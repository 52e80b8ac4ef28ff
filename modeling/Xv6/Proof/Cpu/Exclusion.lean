/-
This file shows when a process runs on one CPU at a time. The round robin always keeps this. The
first-come and the feedback scheduler keep it when no other CPU is inside one of its two windows on the
process that they run: after its release and before `c->proc = 0`, or after `topmost` and before `acquire`.
-/

import Xv6.Proof.Cpu.Invariant

namespace Xv6.Cpu
open TransitionSystem

variable {n : Nat}

/-- No process is the running process of two CPUs. -/
def Exclusive (s : Machine n) : Prop :=
  ∀ c d p, s.cproc c = some p → s.cproc d = some p → (s.proc p).state = .running → c = d

/-- A section of a scheduler moves processes only from runnable to running. -/
def ClaimsRunnable (s : Machine n) (event : CpuEvent n) (t : Machine n) : Prop :=
  ∀ c, event = .step c → s.handler c = none → s.cur c = none →
    ∀ p, (t.proc p).state ≠ (s.proc p).state →
      (s.proc p).state = .runnable ∧ (t.proc p).state = .running

/-- No other CPU is between `release(&p->lock)` and `c->proc = 0`, or between `topmost` and `acquire`, for
the process that a scheduler is about to run. -/
def Undisturbed (s : Machine n) : CpuEvent n → Prop
  | .step c => ∀ p ∈ claim s c, ∀ d, d ≠ c → (s.sched d).pc ≠ .stale p ∧ (s.sched d).pc ≠ .lockNext p
  | _ => True

/-- No CPU is between `release(&p->lock)` and `c->proc = 0` for the slot that `fork` takes. -/
def Vacated (s : Machine n) : CpuEvent n → Prop
  | .call _ (.fork np _) => ∀ d, (s.sched d).pc ≠ .stale np
  | _ => True

/-- What each build needs at a step. The round robin needs nothing. -/
def Guarded (build : Build) (s : Machine n) (event : CpuEvent n) : Prop :=
  (build ≠ .rr → Undisturbed s event) ∧ (build = .mlfq → Vacated s event)

instance (s : Machine n) (event : CpuEvent n) : Decidable (Undisturbed s event) :=
  match event with
  | .step c => inferInstanceAs (Decidable (∀ p ∈ claim s c, ∀ d, d ≠ c → _ ∧ _))
  | .interrupt .. | .call .. => isTrue trivial

instance (s : Machine n) (event : CpuEvent n) : Decidable (Vacated s event) :=
  match event with
  | .call _ (.fork np _) => inferInstanceAs (Decidable (∀ d, (s.sched d).pc ≠ .stale np))
  | .step _ | .interrupt .. => isTrue trivial
  | .call _ .enter | .call _ .leave | .call _ (.sleep _) | .call _ (.exit _) => isTrue trivial
  | .call _ (.wakeup _) | .call _ (.kill _) | .call _ (.wait _) => isTrue trivial

instance (build : Build) (s : Machine n) (event : CpuEvent n) : Decidable (Guarded build s event) :=
  inferInstanceAs (Decidable (_ ∧ _))

/-- What the condition asks of a step of the protocol. -/
def Spaced (build : Build) (b : Board n) : Act n → Prop
  | .run c p => build ≠ .rr → ∀ d, d ≠ c → b.pc d ≠ .stale p ∧ b.pc d ≠ .lockNext p
  | .alloc _ np => build = .mlfq → ∀ d, b.pc d ≠ .stale np
  | _ => True

/-- No two CPUs name one process. -/
def Apart (b : Board n) : Prop := ∀ c d p, b.cproc c = some p → b.cproc d = some p → c = d

/-- What the windows of the schedulers leave in place. -/
structure Windows (build : Build) (b : Board n) : Prop where
  apart : Apart b
  departed : build = .mlfq → ∀ c p, b.pc c = .stale p → b.state p ≠ .used
  chosen : build = .mlfq → ∀ c p, b.pc c = .lockNext p → b.state p = .runnable

section Protocol

variable {build : Build} {b d : Board n} {act : Act n} {c : Fin n} {p : Slot}

/-- Each scheduler runs a runnable process. -/
theorem found_runnable (inv : BoardInv build b) (windows : Windows build b)
    (stepped : BoardStep build b (.run c p) d) : b.state p = .runnable := by
  cases stepped with
  | run _ _ _ _ _ claimed =>
      cases build with
      | rr => exact claimed.1
      | fcfs => exact (inv.held c p claimed).2
      | mlfq => exact windows.chosen rfl c p claimed.1

/-- A CPU that names a process executes it or has just released it. -/
theorem stale_of_idle (inv : BoardInv build b) (named : b.cproc c = some p) (idle : b.cur c ≠ some p) :
    build ≠ .rr ∧ b.pc c = .stale p := by
  obtain ⟨delayed, left⟩ := (inv.stale c p named).resolve_left idle
  refine ⟨delayed, ?_⟩
  cases position : b.pc c with
  | stale q =>
      rw [position] at left
      rw [Option.some.inj left]
  | _ => simp [position, released] at left

/-- A step inside no window does no harm. -/
theorem harmless_of_windows (inv : BoardInv build b) (windows : Windows build b)
    (stepped : BoardStep build b act d) : Harmless b act := by
  cases act with
  | run c p => exact found_runnable inv windows stepped
  | stray c p =>
      cases stepped with
      | stray _ _ preempts idle named =>
          obtain ⟨delayed, left⟩ := stale_of_idle inv named (by simp [idle])
          have feedback : build = .mlfq := by cases build <;> simp_all
          refine ⟨fun e executes => ?_, windows.departed feedback c p left⟩
          rw [windows.apart e c p (inv.named e p executes) named, idle] at executes
          cases executes
  | _ => trivial

/-- Only a step that runs a process can name it a second time. -/
theorem apart_step (stepped : BoardStep build b act d)
    (free : ∀ c p, act = .run c p → ∀ d, d ≠ c → b.cproc d ≠ some p) (apart : Apart b) :
    Apart d := by
  unfold Apart at apart ⊢
  cases stepped <;> grind

/-- No other CPU names the process that a scheduler runs. -/
theorem released_of_spaced (inv : BoardInv build b) (windows : Windows build b)
    (spaced : Spaced build b (.run c p)) (stepped : BoardStep build b (.run c p) d) (e : Fin n)
    (other : e ≠ c) : b.cproc e ≠ some p := by
  intro named
  by_cases executes : b.cur e = some p
  · have running := inv.running e p executes
    rw [found_runnable inv windows stepped] at running
    cases running
  · obtain ⟨delayed, left⟩ := stale_of_idle inv named executes
    exact (spaced delayed e other).1 left

theorem windows_step (inv : BoardInv build b) (windows : Windows build b) (spaced : Spaced build b act)
    (stepped : BoardStep build b act d) : Windows build d where
  apart := by
    refine apart_step stepped ?_ windows.apart
    rintro c p rfl
    exact released_of_spaced inv windows spaced stepped
  departed := fun feedback => by
    have departed := windows.departed feedback
    have newborn := inv.newborn
    cases stepped <;> grind [Spaced, Scanning, released]
  chosen := fun feedback => by
    have chosen := windows.chosen feedback
    have running := inv.running
    cases stepped <;> grind [Spaced, Scanning, Claimed]

end Protocol

section Step

variable {build : Build} {s t : Machine n} {event : CpuEvent n}

/-- What holds in every run whose steps meet the condition. -/
structure Apportioned (build : Build) (s : Machine n) : Prop extends CpuInv build s where
  windows : Windows build (board s)

theorem spaced_of_guarded {act : Act n} (guarded : Guarded build s event)
    (executes : Executes build s event act) : Spaced build (board s) act := by
  cases executes with
  | run c p _ _ claimed => exact fun delayed => guarded.1 delayed p (claimed.resolve_left delayed)
  | fork c p np memory => exact guarded.2
  | _ => trivial

theorem apportioned_step (before : Apportioned build s) (guarded : Guarded build s event)
    (stepped : s.Step build event t) : Apportioned build t := by
  obtain ⟨act, executes, moved⟩ := follows_next before.calm before.seated stepped
  have harmless := harmless_of_windows before.inv before.windows moved
  exact ⟨⟨wired_step before.toWired stepped, boardInv_step before.inv harmless moved⟩,
    windows_step before.inv before.windows (spaced_of_guarded guarded executes) moved⟩

/-- A scheduler thread outside a handler only passes over the table or runs a process. -/
theorem scheduler_act {c : Fin n} {act : Act n} (executes : Executes build s (.step c) act)
    (idle : s.handler c = none) (current : s.cur c = none) :
    act = .quiet ∨ act = .pass c ∨ ∃ p, act = .run c p := by
  cases executes with
  | quiet => exact .inl rfl
  | pass => exact .inr (.inl rfl)
  | run _ p => exact .inr (.inr ⟨p, rfl⟩)
  | wakeup _ j chan call => simp [wakingAt, waking, idle] at call
  | kill _ j kills =>
      obtain ⟨p, mode, _, seated, _⟩ := kills
      simp [current] at seated
  | yield _ p trap after position => simp [idle] at position
  | stray _ p trap after position => simp [idle] at position
  | ready _ p np mode _ seated => simp [current] at seated

/-- A step that runs a process changes that process only. -/
theorem change_run {c : Fin n} {p q : Slot} {before after : ProcState}
    (change : Change (.run c p) q before after) : q = p ∧ after = .running := by
  cases change
  exact ⟨rfl, rfl⟩

theorem claimsRunnable_next (before : Apportioned build s) (stepped : s.Step build event t) :
    ClaimsRunnable s event t := by
  rintro c rfl idle current p changed
  obtain ⟨act, executes, moved⟩ := follows_next before.calm before.seated stepped
  have change := (change_of_step moved p).resolve_left changed
  rcases scheduler_act executes idle current with rfl | rfl | ⟨q, rfl⟩
  · exact (nomatch change)
  · exact (nomatch change)
  · obtain ⟨rfl, ended⟩ := change_run change
    exact ⟨found_runnable before.inv before.windows moved, ended⟩

end Step

section Run

variable {build : Build} {table cwd : Uint64} {trace : List (Machine n × CpuEvent n)} {s : Machine n}

theorem windows_boot (build : Build) (n : Nat) (table cwd : Uint64) :
    Windows build (board (Machine.boot build n table cwd)) where
  apart := nofun
  departed := fun _ => nofun
  chosen := fun _ => nofun

theorem apportioned_run (run : Run (fun s => s.Step build) (.boot build n table cwd) trace s)
    (guarded : ∀ entry ∈ trace, Guarded build entry.1 entry.2) : Apportioned build s :=
  run.invariant (Guarded build) (fun _ _ _ allowed before stepped => apportioned_step before allowed stepped)
    guarded ⟨⟨wired_boot build n table cwd, boardInv_boot build n table cwd⟩, windows_boot build n table cwd⟩

/-- In every run whose steps meet the condition of their build, a process runs on one CPU at a time,
and each scheduler moves processes only from runnable to running. -/
theorem one_cpu_per_process
    (run : Run (fun s => s.Step build) (.boot build n table cwd) trace s)
    (guarded : ∀ entry ∈ trace, Guarded build entry.1 entry.2) :
    Exclusive s ∧ ∀ event t, s.Step build event t → ClaimsRunnable s event t := by
  have reached := apportioned_run run guarded
  refine ⟨fun c d p first second _ => reached.windows.apart c d p first second, ?_⟩
  intro event t stepped
  exact claimsRunnable_next reached stepped

end Run

/-- The first CPU scans the table and runs the first process. -/
def firstScan : List (CpuEvent 2) := Machine.steps 0 66

/-- The first process sleeps before the second CPU wakes it, and the second CPU runs it before the
first CPU has cleared `c->proc`. -/
def secondScan : List (CpuEvent 2) :=
  firstScan ++ [.call 0 (.sleep (.other 0)), .step 1, .interrupt 1 (.other [.other 0])] ++
    Machine.steps 1 132

/-- The first process makes a child, and the second CPU chooses it. -/
def childLocked : List (CpuEvent 2) :=
  Machine.steps 0 68 ++ [.call 0 (.fork 1 ⟨some junkFrame, some 0, true⟩), .step 0] ++ Machine.steps 1 67

/-- The feedback scheduler runs the first process and its child on two CPUs. -/
theorem one_cpu_parent_and_child :
    (Machine.play .mlfq (childLocked ++ [.step 1])).cproc 0 = some 0 ∧
      (Machine.play .mlfq (childLocked ++ [.step 1])).cproc 1 = some 1 ∧
      ((Machine.play .mlfq (childLocked ++ [.step 1])).proc 0).state = .running ∧
      ((Machine.play .mlfq (childLocked ++ [.step 1])).proc 1).state = .running ∧
      Exclusive (Machine.play .mlfq (childLocked ++ [.step 1])) := by
  obtain ⟨trace, run, guarded⟩ :=
    run_of_events .mlfq (childLocked ++ [.step 1]) (Guarded .mlfq) (by decide +kernel)
  exact ⟨by decide +kernel, by decide +kernel, by decide +kernel, by decide +kernel,
    (one_cpu_per_process run guarded).1⟩

/-- The first-come build can run one process on two CPUs. -/
theorem two_cpus_one_process : ∃ s : Machine 2,
    Reachable (fun s => s.Step .fcfs) (.boot .fcfs 2 0 0) s ∧ ¬ Exclusive s := by
  refine ⟨Machine.play .fcfs secondScan, reachable_of_events .fcfs secondScan (by decide +kernel), ?_⟩
  intro exclusive
  have same : (0 : Fin 2) = 1 :=
    exclusive 0 1 0 (by decide +kernel) (by decide +kernel) (by decide +kernel)
  exact absurd same (by decide)

end Xv6.Cpu
