/-
This file shows who gets a CPU. The round robin runs every other process at most once while a process waits, and the
first-come scheduler never takes a CPU away from a process.
-/

import Xv6.Proof.Cpu.Exclusion

namespace Xv6.Cpu
open TransitionSystem

variable {n : Nat}

/-- The process that a CPU switches to in a step. -/
def picks (c : Fin n) (s t : Machine n) : Option Slot := if s.cur c = none then t.cur c else none

/-- The processes that a CPU switches to in a run, in order. -/
def turns (build : Build) (c : Fin n) (trace : List (Machine n × CpuEvent n)) : List Slot :=
  trace.filterMap fun entry => (entry.1.next build entry.2).bind (picks c entry.1)

/-- The number of slots that a scan examines from one index until it comes to a slot. -/
def distance (q : Slot) (i : Nat) : Nat := if i ≤ q.val then q.val - i else nproc - i + q.val

/-- The number of slots that the round robin examines before it comes to a slot. -/
def ahead (q : Slot) : SchedPc → Nat
  | .scan i _ => distance q i
  | .away _ i => distance q (i + 1)
  | _ => q.val

/-- How the round robin goes on, and the process that it runs. -/
inductive Rotates (proc : Slot → Proc) : SchedPc → Option Slot → SchedPc → Prop where
  | stay (pc : SchedPc) : Rotates proc pc none pc
  | top : Rotates proc .top none (.scan 0 none)
  | skip (j : Slot) (first : Option Slot) :
      (proc j).state ≠ .runnable → Rotates proc (.scan j.val first) none (.scan (j.val + 1) none)
  | wrap (i : Nat) (first : Option Slot) : nproc ≤ i → Rotates proc (.scan i first) none .top
  | run (j : Slot) (first : Option Slot) : Rotates proc (.scan j.val first) (some j) (.away j j.val)
  | back (p : Slot) (i : Nat) : Rotates proc (.away p i) none (.scan (i + 1) none)
  | clear (p : Slot) : Rotates proc (.stale p) none .top

/-- How a step takes the round robin of one CPU on. -/
def Turned (s t : Machine n) (d : Fin n) : Prop :=
  Rotates s.proc (s.sched d).pc (picks d s t) (t.sched d).pc

section Step

variable {s t : Machine n} {event : CpuEvent n} {c d : Fin n}

theorem turned_same (pc : (t.sched d).pc = (s.sched d).pc) (cur : t.cur d = s.cur d) : Turned s t d := by
  have none : picks d s t = none := by
    unfold picks
    rw [cur]
    split_ifs with idle
    · exact idle
    · rfl
  rw [Turned, none, pc]
  exact .stay _

/-- A step of one CPU leaves the other schedulers where they are. -/
theorem turned_at {pc : SchedPc} {cur : Option Slot}
    (scheds : ∀ d, (t.sched d).pc = Function.update (fun d => (s.sched d).pc) c pc d)
    (curs : t.cur = Function.update s.cur c cur)
    (here : Rotates s.proc (s.sched c).pc (if s.cur c = none then cur else none) pc) : Turned s t d := by
  by_cases same : d = c
  · subst same
    rw [Turned, scheds, Function.update_self, picks, curs, Function.update_self]
    exact here
  · refine turned_same ?_ ?_
    · rw [scheds, Function.update_of_ne same]
    · rw [curs, Function.update_of_ne same]

theorem pc_update (thread : SchedThread) (d : Fin n) :
    (Function.update s.sched c thread d).pc = Function.update (fun d => (s.sched d).pc) c thread.pc d :=
  Function.apply_update (fun _ => SchedThread.pc) s.sched c thread d

/-- A scheduler that moves on runs no process. -/
theorem turned_goto {thread : SchedThread} (curs : t.cur = s.cur) (scheds : t.sched = Function.update s.sched c thread)
    (current : s.cur c = none) (here : Rotates s.proc (s.sched c).pc none thread.pc) : Turned s t d := by
  refine @turned_at _ s _ c _ thread.pc _ (fun d => ?_) (curs.trans (Function.update_eq_self c s.cur).symm) ?_
  · rw [scheds, pc_update]
  · rw [if_pos current, current]
    exact here

theorem turned_board {u : Machine n} (same : board t = board u)
    (kept : (∀ d, (u.sched d).pc = (s.sched d).pc) ∧ u.cur = s.cur) : Turned s t d :=
  turned_same ((congrFun (congrArg Board.pc same) d).trans (kept.1 d))
    ((congrFun (congrArg Board.cur same) d).trans (congrFun kept.2 d))

/-- A process that leaves its CPU brings the round robin back to the next slot. -/
theorem turned_back {p : Slot} {u : Machine n} {ie : Bool} (seated : Seated (board s)) (current : s.cur c = some p)
    (kept : (∀ d, (u.sched d).pc = (s.sched d).pc) ∧ u.cur = s.cur) : Turned s (u.swtch .rr c ie) d := by
  have away : runs (s.sched c).pc = some p := (seated.runs c).trans current
  cases position : (s.sched c).pc with
  | away q i =>
      have there : (u.sched c).pc = .away q i := (kept.1 c).trans position
      refine @turned_at _ s _ c _ (.scan (i + 1) none) none (fun d => ?_) ?_ ?_
      · simp only [Machine.swtch, there]
        rw [pc_update, funext kept.1]
      · simp only [Machine.swtch, there, kept.2]
      · rw [position, current]
        exact .back q i
  | _ => simp [position, runs] at away

theorem rotates_pass {before after : SchedPc} (passed : Pass .rr s before after) :
    Rotates s.proc before none after := by
  cases passed with
  | rr j first _ _ waits => exact .skip j first waits
  | rrDone i first _ ended => exact .wrap i first ended
  | fcfsHold _ _ only | fcfs _ _ only | fcfsDone _ only | mlfqDone _ _ only => cases only

theorem rotates_run {before : SchedPc} {p : Slot} {i : Nat} (chosen : Runs .rr s before p i) :
    Rotates s.proc before (some p) (.away p i) := by
  cases chosen with
  | rr j first => exact .run p first
  | fcfs _ _ only | mlfq _ only => cases only

theorem rotates_clear {before after : SchedPc} (cleared : Clear .rr s.proc before after) :
    Rotates s.proc before none after := by
  cases cleared with
  | stale p => exact .clear p
  | choose _ only | empty only => cases only

/-- Each step of the machine turns the round robins. -/
theorem turned_next (seated : Seated (board s)) (stepped : s.Step .rr event t) (d : Fin n) : Turned s t d := by
  cases move_next stepped with
  | interrupt | turn | tick | visit | demote | wakeup => exact turned_board (board_setHandler _ _ _) ⟨fun _ => rfl, rfl⟩
  | yield c p q trap after position names current =>
      have same := board_setHandler (s.setProc p { s.proc p with state := .runnable }) c (some (after.pc trap))
      exact turned_back seated current ⟨congrFun (congrArg Board.pc same), congrArg Board.cur same⟩
  | stray c p trap after position names current =>
      exact turned_board (board_swtch_idle _ .rr false ((seated.runs c).trans current)) ⟨fun _ => rfl, rfl⟩
  | top c idle current position => exact turned_goto rfl rfl current (by rw [position]; exact .top)
  | pass c pc idle current passed => exact turned_goto rfl rfl current (rotates_pass passed)
  | clear c pc idle current cleared => exact turned_goto rfl rfl current (rotates_clear cleared)
  | scan c j first only => cases only
  | run c p i idle current chosen =>
      refine @turned_at _ s _ c _ (.away p i) (some p) (fun d => pc_update _ d) rfl ?_
      rw [if_pos current]
      exact rotates_run chosen
  | dying | goes | calls | kill | ready | fork | forkFailed | wait => exact turned_same rfl rfl
  | sleep c p mode chan idle current => exact turned_back seated current ⟨fun _ => rfl, rfl⟩
  | exit c p mode status idle current => exact turned_back seated current ⟨fun _ => rfl, rfl⟩

end Step

section Bypass

variable {q : Slot}

theorem distance_self (q : Slot) : distance q q.val = 0 := by
  simp [distance]

theorem distance_next {q j : Slot} (other : j ≠ q) : distance q (j.val + 1) < distance q j.val := by
  have apart : j.val ≠ q.val := fun same => other (Fin.ext same)
  have small := j.isLt
  unfold distance
  split_ifs <;> omega

/-- A slot that waits comes nearer, and nearer still when another process runs. -/
theorem ahead_rotates {proc : Slot → Proc} {before after : SchedPc} {chosen : Option Slot}
    (turned : Rotates proc before chosen after) (waits : (proc q).state = .runnable) :
    chosen.elim (ahead q after ≤ ahead q before) fun p =>
      p ≠ q → ahead q before = distance q p.val ∧ ahead q after < distance q p.val := by
  cases turned with
  | stay | clear | back => exact le_rfl
  | top => simp [ahead, distance]
  | skip j first passed =>
      have other : j ≠ q := by
        rintro rfl
        exact passed waits
      exact (distance_next other).le
  | wrap i first ended =>
      have above : ¬ i ≤ q.val := by
        have small := q.isLt
        omega
      simp only [Option.elim, ahead, distance, if_neg above]
      omega
  | run j first => exact fun other => ⟨rfl, distance_next other⟩

variable {table cwd : Uint64} {first trace : List (Machine n × CpuEvent n)} {s t : Machine n}

theorem turns_append (build : Build) (c : Fin n) {event : CpuEvent n} (stepped : s.Step build event t) :
    turns build c (trace ++ [(s, event)]) = turns build c trace ++ (picks c s t).toList := by
  unfold Machine.Step at stepped
  unfold turns
  rw [List.filterMap_append, List.filterMap_cons, List.filterMap_nil]
  simp only [stepped, Option.bind_some]
  cases picks c s t <;> rfl

/-- While a process waits, the round robin of each CPU comes nearer to it with every process that it runs. -/
theorem turns_nearer (started : Run (fun s => s.Step .rr) (.boot .rr n table cwd) first s)
    (run : Run (fun s => s.Step .rr) s trace t) (waits : ∀ entry ∈ trace, (entry.1.proc q).state = .runnable)
    (still : (t.proc q).state = .runnable) (c : Fin n) :
    (turns .rr c trace).Pairwise (fun a b => distance q b.val < distance q a.val) ∧
      ∀ p ∈ turns .rr c trace, ahead q (t.sched c).pc < distance q p.val := by
  induction run with
  | refl => exact ⟨List.Pairwise.nil, fun p inside => by cases inside⟩
  | @tail trace middle t event before stepped ih =>
      have here := waits _ (List.mem_append_right _ (List.mem_singleton_self _))
      obtain ⟨sorted, nearer⟩ := ih (fun entry inside => waits entry (List.mem_append_left _ inside)) here
      have inv := (cpuInv_run (started.trans before) (by rintro ⟨⟩)).inv
      have after := (cpuInv_run ((started.trans before).tail stepped) (by rintro ⟨⟩)).inv
      have turned := ahead_rotates (turned_next inv.toSeated stepped c) here
      rw [turns_append .rr c stepped]
      cases chosen : picks c middle t with
      | none =>
          rw [chosen] at turned
          rw [Option.toList_none, List.append_nil]
          exact ⟨sorted, fun p inside => Nat.lt_of_le_of_lt turned (nearer p inside)⟩
      | some p =>
          have current : t.cur c = some p := by
            unfold picks at chosen
            split_ifs at chosen
            exact chosen
          have other : p ≠ q := by
            rintro rfl
            have running := after.running c p current
            exact absurd (running.symm.trans still) (by decide)
          rw [chosen] at turned
          obtain ⟨place, less⟩ := turned other
          rw [Option.toList_some]
          refine ⟨List.pairwise_append.mpr ⟨sorted, List.pairwise_singleton _ _, ?_⟩, ?_⟩
          · intro a inside b last
            rw [List.mem_singleton.mp last, ← place]
            exact nearer a inside
          · intro a inside
            rcases List.mem_append.mp inside with old | last
            · exact Nat.lt_trans less (place ▸ nearer a old)
            · rw [List.mem_singleton.mp last]
              exact less

/-- In every run of the round robin, and as long as a process stays runnable, each CPU runs every other process at most
once. So it switches to fewer than `NPROC` processes before the one that waits. -/
theorem round_robin_bypass (started : Run (fun s => s.Step .rr) (.boot .rr n table cwd) first s)
    (run : Run (fun s => s.Step .rr) s trace t) (waits : ∀ entry ∈ trace, (entry.1.proc q).state = .runnable)
    (still : (t.proc q).state = .runnable) (c : Fin n) :
    (turns .rr c trace).Nodup ∧ q ∉ turns .rr c trace ∧ (turns .rr c trace).length < nproc := by
  obtain ⟨sorted, nearer⟩ := turns_nearer started run waits still c
  have distinct : (turns .rr c trace).Nodup := sorted.imp fun less same => by
    rw [same] at less
    exact Nat.lt_irrefl _ less
  have absent : q ∉ turns .rr c trace := fun inside => by
    have less := nearer q inside
    rw [distance_self] at less
    exact Nat.not_lt_zero _ less
  have bound := (List.nodup_cons.mpr ⟨absent, distinct⟩).length_le_card
  rw [Fintype.card_fin, List.length_cons] at bound
  exact ⟨distinct, absent, bound⟩

end Bypass

/-- The first process makes a second one and yields in a timer interrupt. -/
def firstShare : List (CpuEvent 1) :=
  Machine.steps 0 2 ++ [.call 0 (.fork 1 ⟨some junkFrame, some 0, true⟩), .step 0, .interrupt 0 .timer] ++
    Machine.steps 0 133

/-- The second process runs while the first one waits. -/
theorem round_robin_second : turns .rr 0 [(Machine.play .rr firstShare, .step 0)] = [1] ∧
    0 ∉ turns .rr 0 [(Machine.play .rr firstShare, .step 0)] := by
  obtain ⟨trace, run, _⟩ := run_of_events .rr firstShare (fun _ _ => True) (by decide +kernel)
  have stepped := @Machine.legal_step _ .rr (Machine.play .rr firstShare) (.step 0) (by decide +kernel)
  refine ⟨by decide +kernel, (round_robin_bypass (q := 0) run (.single stepped) ?_ (by decide +kernel) 0).2.1⟩
  intro entry inside
  rw [List.mem_singleton.mp inside]
  decide +kernel

/-- A CPU stops executing a process only when the process leaves it. -/
theorem leave_of_step {build : Build} {b d : Board n} {act : Act n} {c : Fin n} {p : Slot}
    (stepped : BoardStep build b act d) (current : b.cur c = some p) (left : d.cur c ≠ some p) :
    ∃ state, act = .leave c p state := by
  have here {e : Fin n} {next : Option Slot} (changed : Function.update b.cur e next c ≠ some p) : c = e := by
    by_contra other
    exact changed ((Function.update_of_ne other _ _).trans current)
  cases stepped with
  | run e q i idle =>
      rw [← here left, current] at idle
      cases idle
  | leave e q state i seated =>
      obtain rfl := here left
      obtain rfl := Option.some.inj (current.symm.trans seated)
      exact ⟨state, rfl⟩
  | _ => exact absurd current left

/-- The first-come scheduler never takes a CPU away from a process. A process leaves its CPU only in its own call of
`sleep` or `exit`. -/
theorem first_come_never_preempts {table cwd : Uint64} {trace : List (Machine n × CpuEvent n)} {s t : Machine n}
    {event : CpuEvent n} (run : Run (fun s => s.Step .fcfs) (.boot .fcfs n table cwd) trace s)
    (stepped : s.Step .fcfs event t) {c : Fin n} {p : Slot} (current : s.cur c = some p) (left : t.cur c ≠ some p) :
    (∃ chan, event = .call c (.sleep chan)) ∨ ∃ status, event = .call c (.exit status) := by
  have wired := wired_run run
  obtain ⟨act, executes, moved⟩ := follows_next wired.calm wired.seated stepped
  obtain ⟨state, rfl⟩ := leave_of_step moved current left
  cases executes with
  | yield _ _ trap after position =>
      have tame := (wired.calm rfl).handler c
      rw [position] at tame
      cases tame
  | sleep _ _ chan => exact .inl ⟨chan, rfl⟩
  | exit _ _ status => exact .inr ⟨status, rfl⟩

/-- The first process runs and goes to sleep. -/
theorem first_come_first_sleep :
    (Machine.play .fcfs firstScan).cur 0 = some 0 ∧
      ((∃ chan, (CpuEvent.call 0 (.sleep .ticks) : CpuEvent 2) = .call 0 (.sleep chan)) ∨
        ∃ status, (CpuEvent.call 0 (.sleep .ticks) : CpuEvent 2) = .call 0 (.exit status)) := by
  obtain ⟨trace, run, _⟩ := run_of_events .fcfs firstScan (fun _ _ => True) (by decide +kernel)
  have stepped := @Machine.legal_step _ .fcfs (Machine.play .fcfs firstScan) (.call 0 (.sleep .ticks)) (by decide +kernel)
  exact ⟨by decide +kernel, first_come_never_preempts run stepped (c := 0) (p := 0) (by decide +kernel)
    (by decide +kernel)⟩

end Xv6.Cpu
