/-
This file shows when no wakeup is lost. A watch follows each call of `wakeup` and keeps the processes
that have slept on its channel since it began. The round robin loses no wakeup. The other two
schedulers lose none when `c->proc` of the calling CPU does not name a sleeper on the channel.
-/

import Xv6.Proof.Cpu.Control

namespace Xv6.Cpu
open TransitionSystem

variable {n : Nat}

/-- The process sleeps on the channel. -/
def asleepOn (s : Machine n) (chan : Chan) (j : Slot) : Bool :=
  (s.proc j).state == .sleeping && (s.proc j).chan == some chan

/-- The sleepers of each CPU's call of `wakeup` after a step. A call begins when its CPU comes to the
first slot. From then on its sleepers can only wake. -/
def sleepers (before : Fin n → Slot → Bool) (event : CpuEvent n) (t : Machine n) (c : Fin n) (j : Slot) : Bool :=
  match wakingAt t c with
  | some (chan, i) => asleepOn t chan j && (before c j || (event.cpu == c && i == 0))
  | none => false

/-- A machine with the sleepers of each CPU's call of `wakeup`. -/
abbrev Watch (n : Nat) := Monitored (Machine n) (Fin n → Slot → Bool)

def Watch.Step (build : Build) : Watch n → CpuEvent n → Watch n → Prop :=
  Monitored.Step (fun s => s.Step build) fun before _ => sleepers before

def Watch.boot (build : Build) (n : Nat) (table cwd : Uint64) : Watch n :=
  ⟨.boot build n table cwd, fun _ _ => false⟩

/-- A call of `wakeup` that has visited every slot leaves none of its sleepers asleep. -/
def NoneLost (w : Watch n) : Prop :=
  ∀ c chan i, wakingAt w.sys c = some (chan, i) → nproc ≤ i → ∀ j, w.mon c j = false

/-- When a CPU begins `wakeup`, its `c->proc` does not name a sleeper on the channel. -/
def callerAwake (t : Machine n) (c : Fin n) : Bool :=
  match wakingAt t c, t.cproc c with
  | some (chan, 0), some p => !asleepOn t chan p
  | _, _ => true

/-- The step begins no call of `wakeup` that would pass over a sleeper. -/
def NamesAwake (build : Build) (s : Machine n) (event : CpuEvent n) : Prop :=
  ∀ t ∈ s.next build event, callerAwake t event.cpu = true

instance (build : Build) (s : Machine n) (event : CpuEvent n) :
    Decidable (NamesAwake build s event) :=
  inferInstanceAs (Decidable (∀ _ ∈ _, _))

/-- A call has woken its sleepers below the slot that it visits next, and it never had the process
that its CPU names. No call waits on a thread that no CPU executes. -/
structure WakeInv (w : Watch n) : Prop where
  woken : ∀ c chan i, wakingAt w.sys c = some (chan, i) →
    ∀ j, j.val < i ∨ w.sys.cproc c = some j → w.mon c j = false
  resting : ∀ p, (∀ c, w.sys.cur c ≠ some p) → waking (w.sys.thread p).handler = none

section Step

variable {build : Build} {s t : Machine n} {event : CpuEvent n}

/-- The visited slot is the one that the CPU names, or it does not sleep on the channel. -/
theorem asleep_wakeupAt {u : Machine n} {c : Fin n} {j : Slot} {chan : Chan}
    (visited : s.wakeupAt c j chan = some u) :
    s.cproc c = some j ∨ asleepOn u chan j = false := by
  unfold Machine.wakeupAt at visited
  split_ifs at visited with mine
  · exact .inl mine
  · obtain ⟨_, rfl⟩ := visit_some visited
    refine .inr ?_
    unfold asleepOn wakeupSlot
    by_cases asleep : (s.proc j).state = .sleeping ∧ (s.proc j).chan = some chan
    · simp [asleep, Machine.setProc]
    · simp only [if_neg asleep, Machine.setProc, Function.update_self, Bool.and_eq_false_iff,
        beq_eq_false_iff_ne, ne_eq]
      exact not_and_or.mp asleep

theorem asleepOn_setHandler (u : Machine n) (c : Fin n) (handler : Option HandlerPc) (chan : Chan)
    (j : Slot) : asleepOn (u.setHandler c handler) chan j = asleepOn u chan j := by
  unfold Machine.setHandler
  cases u.cur c <;> rfl

/-- A step of `wakeup` deals with the slot that it visits. -/
theorem asleep_next {c : Fin n} {chan : Chan} {j : Slot} (call : wakingAt s c = some (chan, j.val))
    (stepped : s.Step build (.step c) t) : s.cproc c = some j ∨ asleepOn t chan j = false := by
  unfold Machine.Step Machine.next at stepped
  unfold wakingAt at call
  cases position : s.handler c with
  | none => simp [position, waking] at call
  | some pc =>
      simp only [position] at stepped call
      cases pc with
      | wakeupCall chan' i | wakeup trap timer chan' rest i =>
          obtain ⟨rfl, rfl⟩ : chan' = chan ∧ i = j.val := by simpa [waking] using call
          simp only [Machine.handlerStep, slotAt_val, Option.map_eq_some_iff] at stepped
          obtain ⟨u, visited, rfl⟩ := stepped
          rw [asleepOn_setHandler]
          exact asleep_wakeupAt visited
      | _ => simp [waking] at call

theorem waking_wakeRest {trap : Trap} {timer : Bool} {rest : List Chan} {chan : Chan} {i : Nat}
    (call : waking (some (.wakeRest trap timer rest)) = some (chan, i)) : i = 0 := by
  cases rest with
  | nil => exact (nomatch call)
  | cons first rest => exact (Prod.mk.inj (Option.some.inj call)).2.symm

theorem waking_devintr {trap : Trap} {first : Bool} {device : Device} {chan : Chan} {i : Nat}
    (call : waking (some (.devintr trap first device)) = some (chan, i)) : i = 0 := by
  cases device with
  | timer => cases first <;> exact (nomatch call)
  | other chans => exact waking_wakeRest call

/-- A new position is outside `wakeup`, starts a call of it, or goes to the next slot. -/
theorem waking_flow {first : Bool} {named : Option Slot} {before after : Option HandlerPc} {chan : Chan} {i : Nat}
    (flow : Flow build first named before after) (call : waking after = some (chan, i)) :
    i = 0 ∨ ∃ j, i = j + 1 ∧ waking before = some (chan, j) := by
  cases flow with
  | interrupt => exact .inl (waking_devintr call)
  | wakeupDone => exact .inl (waking_wakeRest call)
  | flagDone trap => cases trap <;> exact (nomatch call)
  | _ => simp_all [waking]

/-- A thread that leaves its CPU does not go on inside `wakeup`. -/
theorem waking_resumes {before after : Option HandlerPc} (resumes : Resumes before after) :
    waking after = none := by
  cases resumes with
  | call => rfl
  | yield trap next => cases next <;> rfl

/-- A step of one CPU leaves the call of another CPU where it is, with the process that it names. -/
theorem call_other {c d : Fin n} {k l : Control n} {call : Chan × Nat}
    (unique : ∀ p, k.cur c = some p → k.cur d ≠ some p) (different : c ≠ d) (shift : Shift build k d l)
    (after : waking (l.handler c) = some call) :
    waking (k.handler c) = some call ∧ l.cproc c = k.cproc c := by
  have outside : waking none = none := rfl
  cases shift with
  | leave p handler named current resumes =>
      have left := waking_resumes resumes
      grind [Control.handler]
  | _ => grind [Control.handler]

/-- After a step of its own CPU a call is new, or it went on to the next slot. -/
theorem call_self {c : Fin n} {k l : Control n} {chan : Chan} {i : Nat}
    (resting : ∀ p, l.cur c = some p → k.cur c = none → waking (k.hand p) = none)
    (shift : Shift build k c l) (after : waking (l.handler c) = some (chan, i)) :
    l.cproc c = k.cproc c ∧ (i = 0 ∨ ∃ j, i = j + 1 ∧ waking (k.handler c) = some (chan, j)) := by
  have outside : waking none = none := rfl
  cases shift with
  | idle handler current flow | hand p handler current flow =>
      refine ⟨rfl, waking_flow flow ?_⟩
      simpa [Control.handler, current] using after
  | _ => grind [Control.handler]

/-- No call waits on a thread that no CPU executes. -/
theorem resting_shift {c : Fin n} {k l : Control n}
    (resting : ∀ p, (∀ d, k.cur d ≠ some p) → waking (k.hand p) = none)
    (shift : Shift build k c l) : ∀ p, (∀ d, l.cur d ≠ some p) → waking (l.hand p) = none := by
  have outside : waking none = none := rfl
  cases shift with
  | run p handler current resumed =>
      intro q away
      have different : q ≠ p := by
        rintro rfl
        exact away c (by simp)
      have before : ∀ d, k.cur d ≠ some q := fun d seated => by
        by_cases same : d = c
        · simp [same, current] at seated
        · exact away d (by simpa [same] using seated)
      simpa [different] using resting q before
  | leave p handler named current resumes =>
      intro q away
      by_cases same : q = p
      · simpa [same] using waking_resumes resumes
      · have before : ∀ d, k.cur d ≠ some q := fun d seated => by
          by_cases here : d = c
          · exact same (Option.some.inj (seated.symm.trans (here ▸ current)))
          · exact away d (by simpa [here] using seated)
        simpa [same] using resting q before
  | _ => grind [Control.handler]

/-- A step of one CPU leaves the other CPUs on their threads. -/
theorem cur_other {c d : Fin n} {k l : Control n} (different : d ≠ c) (shift : Shift build k c l) :
    l.cur d = k.cur d := by
  cases shift <;> grind

/-- The watch of a call that its own CPU moves. -/
theorem woken_self {w : Watch n} {chan : Chan} {i : Nat} {j : Slot} (inv : WakeInv w)
    (stepped : w.sys.Step build event t) (awake : callerAwake t event.cpu = true)
    (seated : Seated (board w.sys))
    (resting : ∀ p, t.cur event.cpu = some p → w.sys.cur event.cpu = none →
      waking (w.sys.thread p).handler = none)
    (call : wakingAt t event.cpu = some (chan, i))
    (dealt : j.val < i ∨ t.cproc event.cpu = some j) :
    asleepOn t chan j = false ∨ w.mon event.cpu j = false ∧ i ≠ 0 := by
  obtain ⟨named, origin⟩ := call_self resting (shift_next seated stepped) call
  have same : t.cproc event.cpu = w.sys.cproc event.cpu := named
  by_cases new : i = 0
  · subst new
    have mine := dealt.resolve_left (Nat.not_lt_zero _)
    refine .inl ?_
    simpa [callerAwake, call, mine] using awake
  · rcases origin with start | ⟨m, rfl, earlier⟩
    · exact absurd start new
    · by_cases visited : j.val = m
      · subst visited
        have code : event = .step event.cpu := by
          cases position : w.sys.handler event.cpu with
          | none => simp [position, waking] at earlier
          | some pc => exact event_of_handler position stepped
        rw [code] at stepped
        rcases asleep_next earlier stepped with mine | woken
        · exact .inr ⟨inv.woken _ chan _ earlier j (.inr mine), new⟩
        · exact .inl woken
      · refine .inr ⟨inv.woken _ chan m earlier j ?_, new⟩
        rcases dealt with below | mine
        · exact .inl (by omega)
        · exact .inr (same ▸ mine)

theorem wakeInv_step {w v : Watch n} (inv : WakeInv w) (before : CpuInv build w.sys)
    (after : CpuInv build v.sys) (awake : callerAwake v.sys event.cpu = true)
    (stepped : w.Step build event v) : WakeInv v := by
  obtain ⟨moved, watched⟩ := stepped
  have shift := shift_next before.seated moved
  constructor
  · intro c chan i call j dealt
    rw [watched]
    simp only [sleepers, call]
    by_cases own : event.cpu = c
    · subst own
      have resting (p : Slot) (seated : v.sys.cur event.cpu = some p)
          (idle : w.sys.cur event.cpu = none) :
          waking (w.sys.thread p).handler = none := by
        refine inv.resting p fun d current => ?_
        by_cases same : d = event.cpu
        · simp [same, idle] at current
        · have other : v.sys.cur d = w.sys.cur d := cur_other same shift
          exact same (after.inv.unique d event.cpu p (other.trans current) seated)
      rcases woken_self inv moved awake before.seated resting call dealt with woken | ⟨none, later⟩
      · simp [woken]
      · simp [none, later]
    · have unique (p : Slot) (seated : w.sys.cur c = some p) :
          w.sys.cur event.cpu ≠ some p := fun current =>
        own (before.inv.unique event.cpu c p current seated)
      obtain ⟨earlier, named⟩ := call_other unique (Ne.symm own) shift call
      have same : v.sys.cproc c = w.sys.cproc c := named
      simp [inv.woken c chan i earlier j (same ▸ dealt), own]
  · exact resting_shift inv.resting shift

end Step

/-- A CPU of the round robin names only a running process. -/
theorem callerAwake_of_rr {t : Machine n} (inv : BoardInv .rr (board t)) (c : Fin n) :
    callerAwake t c = true := by
  unfold callerAwake
  split
  · rename_i chan p _ named
    have current : (board t).cur c = some p :=
      (inv.stale c p named).resolve_right fun released => released.1 rfl
    have running : (t.proc p).state = .running := inv.running c p current
    simp [asleepOn, running]
  · rfl

/-- What the feedback scheduler and the first-come scheduler need at a step. -/
def Heard (build : Build) (s : Machine n) (event : CpuEvent n) : Prop :=
  (build = .mlfq → OrderlyStep s event) ∧ (build ≠ .rr → NamesAwake build s event)

instance (build : Build) (s : Machine n) (event : CpuEvent n) : Decidable (Heard build s event) :=
  inferInstanceAs (Decidable (_ ∧ _))

theorem heard_step {build : Build} {w v : Watch n} {event : CpuEvent n}
    (heard : Heard build w.sys event) (before : CpuInv build w.sys ∧ WakeInv w)
    (stepped : w.Step build event v) : CpuInv build v.sys ∧ WakeInv v := by
  have after := cpuInv_step before.1 heard.1 stepped.1
  refine ⟨after, wakeInv_step before.2 before.1 after ?_ stepped⟩
  by_cases first : build = .rr
  · subst first
    exact callerAwake_of_rr after.inv event.cpu
  · exact heard.2 first v.sys stepped.1

/-- In every run of the round robin, and in every run of the other schedulers whose steps meet their
conditions, a finished call of `wakeup` leaves none of its sleepers asleep. -/
theorem no_lost_wakeup {build : Build} {table cwd : Uint64} {w : Watch n}
    {trace : List (Watch n × CpuEvent n)}
    (run : Run (Watch.Step build) (Watch.boot build n table cwd) trace w)
    (heard : ∀ entry ∈ trace, Heard build entry.1.sys entry.2) : NoneLost w := by
  have initial : WakeInv (Watch.boot build n table cwd) :=
    ⟨fun _ _ _ call => (nomatch call), fun _ _ => rfl⟩
  have keeps : ∀ (w : Watch n) (event : CpuEvent n) (v : Watch n), Heard build w.sys event →
      CpuInv build w.sys ∧ WakeInv w → w.Step build event v →
      CpuInv build v.sys ∧ WakeInv v := fun _ _ _ heard before stepped =>
    heard_step heard before stepped
  have inv := (run.invariant (fun w event => Heard build w.sys event) keeps heard
    ⟨⟨wired_boot build n table cwd, boardInv_boot build n table cwd⟩, initial⟩).2
  intro c chan i call ended j
  exact inv.woken c chan i call j (.inl (j.isLt.trans_le ended))

section Replay

def Watch.next (build : Build) : Watch n → CpuEvent n → Watch n :=
  Monitored.after (Machine.after build) fun before _ => sleepers before

/-- The state after some events that follow the boot. -/
def Watch.play (build : Build) (events : List (CpuEvent n)) : Watch n :=
  events.foldl (Watch.next build) (Watch.boot build n 0 0)

/-- The first process runs and sleeps on a device. -/
def deviceSleep : List (CpuEvent 1) := Machine.steps 0 66 ++ [.call 0 (.sleep (.other 0))]

/-- The interrupt of the device arrives and its handler visits every slot. -/
def deviceWakeup : List (CpuEvent 1) := [.interrupt 0 (.other [.other 0])] ++ Machine.steps 0 64

/-- The scheduler has cleared `c->proc` before the interrupt, and the process is woken. -/
theorem no_lost_wakeup_device :
    wakingAt (Watch.play .fcfs (deviceSleep ++ [.step 0] ++ deviceWakeup)).sys 0 =
        some (.other 0, 64) ∧
      NoneLost (Watch.play .fcfs (deviceSleep ++ [.step 0] ++ deviceWakeup)) := by
  have played : plays (fun w event => Machine.legal .fcfs w.sys event &&
      decide (Heard .fcfs w.sys event)) (Watch.next .fcfs) (Watch.boot .fcfs 1 0 0)
      (deviceSleep ++ [.step 0] ++ deviceWakeup) = true := by decide +kernel
  obtain ⟨run, heard⟩ := Monitored.run_entries Machine.legal_step played
  exact ⟨by decide +kernel, no_lost_wakeup run heard⟩

/-- The interrupt arrives before the scheduler has cleared `c->proc`, and the process sleeps on. -/
theorem wakeup_lost : ∃ w : Watch 1,
    Reachable (Watch.Step .fcfs) (Watch.boot .fcfs 1 0 0) w ∧ ¬ NoneLost w := by
  refine ⟨Watch.play .fcfs (deviceSleep ++ deviceWakeup),
    Monitored.reachable_of_plays Machine.legal_step (by decide +kernel), fun kept => ?_⟩
  have finished : wakingAt (Watch.play .fcfs (deviceSleep ++ deviceWakeup)).sys 0 =
      some (.other 0, 64) := by decide +kernel
  have asleep : (Watch.play .fcfs (deviceSleep ++ deviceWakeup)).mon 0 0 = true := by
    decide +kernel
  exact Bool.false_ne_true ((kept 0 _ 64 finished (le_refl 64) 0).symm.trans asleep)

end Replay

end Xv6.Cpu
