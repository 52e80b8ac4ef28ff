/-
This file shows when the aging loops promote only processes that waited for thirty ticks. The age of a
process counts from its last push. A dispatch does not renew it, so the age is the waiting time only when
every process that becomes runnable in its queue has just been pushed.
-/

import Xv6.Proof.Cpu.Aging

namespace Xv6.Cpu
open TransitionSystem

/-- A dispatch or a change of queue ends the wait of a process, and a tick adds to it. -/
def waitStep (q : Slot) (s : Machine 1) (waited : Nat) : Deed → Nat
  | .tick => waited + 1
  | .push _ r qnum =>
      if r = q ∧ ¬ ((s.proc q).mlfqData.inQueue = true ∧ (s.proc q).mlfqData.currPri = qnum) then 0
      else waited
  | .dispatch r => if r = q then 0 else waited
  | _ => waited

/-- The ticks since a process was last dispatched or changed its queue. -/
def waited (q : Slot) (trace : List (Machine 1 × CpuEvent 1)) : Nat :=
  trace.foldl (fun count entry => waitStep q entry.1 count (deed entry.1 entry.2)) 0

/-- A process that becomes runnable in a queue was pushed in the same tick. -/
def Renewed (s : Machine 1) (event : CpuEvent 1) : Prop :=
  ∀ t ∈ s.next .mlfq event, ∀ q, (s.proc q).state ≠ .runnable → Waits (t.proc q) →
    (t.proc q).mlfqData.intime = t.ticks

instance (s : Machine 1) (event : CpuEvent 1) : Decidable (Renewed s event) := by
  unfold Renewed
  infer_instance

section Step

variable {k l : Core} {act : Deed} {q : Slot}

theorem aging_next {qnum : Int} (stepped : CoreStep k act l) (pushed : act = .push .aging q qnum) :
    agingDue k.ticks (k.proc q) = true := by
  cases stepped with
  | charge trap j =>
      unfold chargeDeed at pushed
      split_ifs at pushed
  | age trap timer j =>
      unfold agingDeed at pushed
      split_ifs at pushed with due
      obtain ⟨_, rfl, _⟩ := Deed.push.inj pushed
      exact due
  | scan j =>
      unfold scanDeed at pushed
      split_ifs at pushed with due
      · obtain ⟨_, rfl, _⟩ := Deed.push.inj pushed
        exact due
      · exact (nomatch (Deed.push.inj pushed).1)
  | demote | ready => exact (nomatch (Deed.push.inj pushed).1)
  | _ => exact (nomatch pushed)

end Step

section Run

variable {table cwd : Uint64} {s t : Machine 1} {trace : List (Machine 1 × CpuEvent 1)}
  {event : CpuEvent 1} {q : Slot}

theorem waited_append : waited q (trace ++ [(s, event)]) = waitStep q s (waited q trace) (deed s event) := by
  simp [waited]

/-- The age of a waiting process is at most its waiting time. -/
def AgeCounts (trace : List (Machine 1 × CpuEvent 1)) (s : Machine 1) : Prop :=
  ∀ q, Waits (s.proc q) →
    ∃ count ≤ waited q trace, s.ticks - (s.proc q).mlfqData.intime = BitVec.ofNat 32 count

theorem ageCounts_step (wired : Wired .mlfq s) (counts : AgeCounts trace s) (renewed : Renewed s event)
    (stepped : s.Step .mlfq event t) : AgeCounts (trace ++ [(s, event)]) t := by
  intro q waits
  have moved := core_next wired stepped
  have clock : t.ticks = if deed s event = .tick then s.ticks + 1 else s.ticks := ticks_of_step moved
  have fate : Fate (core s) q (deed s event) (t.proc q).mlfqData := fate_next moved q
  have fresh (now : (t.proc q).mlfqData.intime = t.ticks) : ∃ count ≤ waited q (trace ++ [(s, event)]),
      t.ticks - (t.proc q).mlfqData.intime = BitVec.ofNat 32 count :=
    ⟨0, Nat.zero_le _, by simp [now]⟩
  rcases fate.queued waits.2 with ⟨cause, qnum, pushed, data⟩ | ⟨unpushed, inside, _, time⟩
  · refine fresh ?_
    rw [data, clock, if_neg (by simp [pushed])]
    rfl
  · by_cases runnable : (s.proc q).state = .runnable
    · obtain ⟨count, bound, age⟩ := counts q ⟨runnable, inside⟩
      rw [time, waited_append]
      cases what : deed s event with
      | tick =>
          rw [what, if_pos rfl] at clock
          refine ⟨count + 1, Nat.succ_le_succ bound, ?_⟩
          have kept : s.ticks - ((core s).proc q).mlfqData.intime = BitVec.ofNat 32 count := age
          rw [clock, BitVec.ofNat_add, ← kept]
          bv_omega
      | dispatch r =>
          have other : r ≠ q := by
            rintro rfl
            have running := (dispatch_next moved what).2.2
            exact (nomatch running.symm.trans waits.1)
          rw [what, if_neg nofun] at clock
          exact ⟨count, by simpa [waitStep, other] using bound, clock ▸ age⟩
      | push cause r qnum =>
          have other : r ≠ q := by
            rintro rfl
            exact unpushed cause qnum what
          rw [what, if_neg nofun] at clock
          exact ⟨count, by simpa [waitStep, other] using bound, clock ▸ age⟩
      | quiet | charge r =>
          rw [what, if_neg nofun] at clock
          exact ⟨count, bound, clock ▸ age⟩
    · exact fresh (renewed t stepped q runnable waits)

theorem ageCounts_boot (table cwd : Uint64) : AgeCounts [] (Machine.boot .mlfq 1 table cwd) := by
  have zero : ∀ q, (bootTable .mlfq table cwd q).mlfqData.intime = 0 :=
    forall_update (P := fun _ p => p.mlfqData.intime = 0) rfl fun _ _ => rfl
  intro q waits
  refine ⟨0, Nat.zero_le _, ?_⟩
  simp only [Machine.boot, zero q]
  rfl

/-- In every run in which each process that becomes runnable in a queue has just been pushed, the aging
loops promote only a process that was neither dispatched nor moved for thirty ticks. -/
theorem aging_promotes_waiters (run : Run (fun s => s.Step .mlfq) (.boot .mlfq 1 table cwd) trace s)
    (renewed : ∀ entry ∈ trace, Renewed entry.1 entry.2) {event : CpuEvent 1} {t : Machine 1} {q : Slot}
    {qnum : Int} (stepped : s.Step .mlfq event t) (promoted : deed s event = .push .aging q qnum) :
    agingTime ≤ waited q trace := by
  have keeps : ∀ (trace : List (Machine 1 × CpuEvent 1)) (s : Machine 1) (event : CpuEvent 1)
      (t : Machine 1), Renewed s event → Wired .mlfq s ∧ AgeCounts trace s → s.Step .mlfq event t →
      Wired .mlfq t ∧ AgeCounts (trace ++ [(s, event)]) t :=
    fun trace s event t kept before stepped =>
      ⟨wired_step before.1 stepped, ageCounts_step before.1 before.2 kept stepped⟩
  obtain ⟨wired, counts⟩ := run.history Renewed keeps renewed
    ⟨wired_boot .mlfq 1 table cwd, ageCounts_boot table cwd⟩
  have due := aging_next (core_next wired stepped) promoted
  obtain ⟨old, inside, runnable⟩ := agingDue_iff.mp due
  obtain ⟨count, bound, age⟩ := counts q ⟨runnable, inside⟩
  have small : (s.ticks - (s.proc q).mlfqData.intime).toNat ≤ count := by
    rw [age, BitVec.toNat_ofNat]
    exact Nat.mod_le _ _
  exact old.trans (small.trans bound)

/-- The wait that started with a dispatch is at most the number of ticks since. -/
theorem waited_dispatched {rest : List (Machine 1 × CpuEvent 1)} (dispatched : deed s event = .dispatch q) :
    waited q (trace ++ [(s, event)] ++ rest) ≤ tickCount rest := by
  have later (count : Nat) : rest.foldl (fun count entry =>
      waitStep q entry.1 count (deed entry.1 entry.2)) count ≤ count + tickCount rest := by
    induction rest generalizing count with
    | nil => exact le_refl _
    | cons entry rest ih =>
        have first : waitStep q entry.1 count (deed entry.1 entry.2) ≤
            count + tickCount [entry] := by
          cases what : deed entry.1 entry.2 with
          | tick => simp [waitStep, tickCount, what]
          | push cause r qnum | dispatch r =>
              simp only [waitStep]
              split_ifs <;> omega
          | quiet | charge => exact Nat.le_add_right _ _
        have total := ih (waitStep q entry.1 count (deed entry.1 entry.2))
        have sum : tickCount (entry :: rest) = tickCount [entry] + tickCount rest :=
          tickCount_append [entry] rest
        rw [List.foldl_cons]
        omega
  have zero : waited q (trace ++ [(s, event)]) = 0 := by
    simp [waited_append, dispatched, waitStep]
  unfold waited at zero ⊢
  rw [List.foldl_append, zero]
  exact (later 0).trans (by omega)

end Run

section Idle

variable {s t : Machine 1} {rest : List (Machine 1 × CpuEvent 1)}

/-- The scheduler runs and `c->proc` is clear. -/
def schedules (s : Machine 1) : Bool := (s.cur 0).isNone && (s.cproc 0).isNone

/-- While the scheduler runs and no process sleeps, no process becomes runnable. -/
theorem awake_step {k l : Core} {act : Deed} (idle : k.cur = none) (clear : k.cproc = none)
    (awake : ∀ q, (k.proc q).state ≠ .sleeping) (stepped : CoreStep k act l) (q : Slot) :
    (l.proc q).state ≠ .sleeping ∧ ((l.proc q).state = .runnable → (k.proc q).state = .runnable) := by
  have write {j : Slot} {record : Proc} (same : record.state = (k.proc j).state) :
      (Function.update k.proc j record q).state ≠ .sleeping ∧
        ((Function.update k.proc j record q).state = .runnable → (k.proc q).state = .runnable) := by
    by_cases here : q = j
    · subst here
      rw [Function.update_self, same]
      exact ⟨awake q, id⟩
    · rw [Function.update_of_ne here]
      exact ⟨awake q, id⟩
  have wake {j : Slot} {chan : Chan} : (wakeupSlot chan (k.proc j)).state = (k.proc j).state := by
    simp [wakeupSlot, awake j]
  cases stepped with
  | rest | walk | tick | sched => exact ⟨awake q, id⟩
  | charge trap j => exact write (updateTime_state _ _)
  | wakeCall chan j | wake _ _ chan _ j => exact write wake
  | age trap timer j => exact write (aging_state _ _)
  | scan j => exact write (scanSlot_state _ _)
  | demote trap p => exact write rfl
  | leave p record after current => cases idle.symm.trans current
  | stray p trap after position current names => cases clear.symm.trans names
  | ready p np free current => cases idle.symm.trans current
  | kill j free busy | fork j record free busy | free j record free busy => exact absurd idle busy
  | run p =>
      by_cases here : q = p
      · subst here
        simp
      · simp only [Function.update_of_ne here]
        exact ⟨awake q, id⟩

theorem renewed_idle (wired : Wired .mlfq s) (awake : ∀ q, (s.proc q).state ≠ .sleeping)
    (run : Run (fun s => s.Step .mlfq) s rest t) (idle : ∀ entry ∈ rest, schedules entry.1 = true) :
    Wired .mlfq t ∧ (∀ q, (t.proc q).state ≠ .sleeping) ∧ ∀ entry ∈ rest, Renewed entry.1 entry.2 := by
  induction run with
  | refl => exact ⟨wired, awake, nofun⟩
  | @tail rest u t event run stepped ih =>
      obtain ⟨wired, awake, renewed⟩ := ih fun entry inside => idle entry (List.mem_append_left _ inside)
      have here := idle (u, event) (List.mem_append_right _ (List.mem_singleton_self _))
      simp only [schedules, Bool.and_eq_true, Option.isNone_iff_eq_none] at here
      have quiet := awake_step here.1 here.2 awake (core_next wired stepped)
      refine ⟨wired_step wired stepped, fun q => (quiet q).1, fun entry inside => ?_⟩
      rcases List.mem_append.mp inside with old | new
      · exact renewed entry old
      · rw [List.mem_singleton.mp new]
        intro v taken q busy waits
        rw [Option.some.inj (taken.symm.trans stepped)] at waits
        exact absurd ((quiet q).2 waits.1) busy

theorem schedules_sound (s : Machine 1) (move : Stride) (t : Machine 1)
    (entry : Machine 1 × CpuEvent 1) (checked : schedules s = true)
    (inside : StrideStep s move t entry) : schedules entry.1 = true := by
  cases move with
  | event event =>
      rw [show entry = (s, event) from inside]
      exact checked
  | sweep =>
      unfold schedules
      rw [inside.1.1, inside.1.2.1]
      exact checked

/-- The condition holds at an event, and a loop changes no state. -/
def renews (s : Machine 1) (move : Stride) (t : Machine 1) : Bool :=
  match move with
  | .event event => decide (Renewed s event)
  | .sweep => decide (∀ q, (t.proc q).state = (s.proc q).state)

theorem renews_sound (s : Machine 1) (move : Stride) (t : Machine 1)
    (entry : Machine 1 × CpuEvent 1) (checked : renews s move t = true)
    (inside : StrideStep s move t entry) : Renewed entry.1 entry.2 := by
  cases move with
  | event event =>
      rw [show entry = (s, event) from inside]
      exact of_decide_eq_true checked
  | sweep =>
      have same : ∀ q, (t.proc q).state = (s.proc q).state := of_decide_eq_true checked
      have state {u : Machine 1} (between : Between s t u) (q : Slot) :
          (u.proc q).state = (s.proc q).state := by
        rcases between.2.2 q with old | new
        · rw [old]
        · rw [new, same q]
      intro u taken q busy waits
      have after := state (inside.2 u taken) q
      rw [state inside.1 q, ← after] at busy
      exact absurd waits.1 busy

/-- What the run of the first process shows before its promotion. -/
def promotionShows : Bool :=
  (strides renews (Machine.boot .mlfq 1 0 0, 0) untilYielded).any fun start =>
    decide (∀ q, (start.1.proc q).state ≠ .sleeping) &&
      (strides (fun s _ _ => schedules s) start (idleTicks 29 ++ idleTick)).any fun last =>
        deed last.1 (.step 0) == .push .aging 0 0 && (last.1.next .mlfq (.step 0)).isSome

/-- The first process waits thirty ticks in the second queue before it is promoted. -/
theorem aging_promotes_first : ∃ (trace : List (Machine 1 × CpuEvent 1)) (s t : Machine 1),
    Run (fun s => s.Step .mlfq) (.boot .mlfq 1 0 0) trace s ∧ s.Step .mlfq (.step 0) t ∧
    deed s (.step 0) = .push .aging 0 0 ∧ agingTime ≤ waited 0 trace := by
  have shows : promotionShows = true := by decide +kernel
  obtain ⟨⟨start, clock⟩, reached, shows⟩ := (Option.any_eq_true _ _).mp shows
  simp only [Bool.and_eq_true, decide_eq_true_eq] at shows
  obtain ⟨awake, shows⟩ := shows
  obtain ⟨⟨s, ticks⟩, waits, shows⟩ := (Option.any_eq_true _ _).mp shows
  simp only [Bool.and_eq_true, beq_iff_eq] at shows
  obtain ⟨promoted, possible⟩ := shows
  obtain ⟨before, first, _, renewed⟩ := run_of_strides Renewed renews_sound reached
  obtain ⟨rest, onward, _, idle⟩ := run_of_strides (fun u _ => schedules u = true) schedules_sound waits
  have later := (renewed_idle (wired_run first) awake onward idle).2.2
  have stepped := Machine.legal_step s (.step 0) possible
  refine ⟨_, s, _, first.trans onward, stepped, promoted, ?_⟩
  refine aging_promotes_waiters (first.trans onward) (fun entry inside => ?_) stepped promoted
  rcases List.mem_append.mp inside with old | new
  · exact renewed entry old
  · exact later entry new

end Idle

/-- A child is promoted fewer than thirty ticks after it was dispatched. -/
theorem dispatched_child_promoted : ∃ (trace : List (Machine 1 × CpuEvent 1)) (s t : Machine 1),
    Run (fun s => s.Step .mlfq) (.boot .mlfq 1 0 0) trace s ∧ s.Step .mlfq (.step 0) t ∧
    deed s (.step 0) = .push .aging 1 1 ∧ (s.proc 1).mlfqData.currPri = 2 ∧ waited 1 trace < agingTime := by
  obtain ⟨before, middle, _, resumed, running, aged, _, first, dispatched, again, second, early, promoted,
    pri, possible, _⟩ := longRun
  have stepped := Machine.legal_step aged (.step 0) possible
  refine ⟨_, aged, _, (first.tail again).trans second, stepped, promoted, pri, ?_⟩
  exact lt_of_le_of_lt (waited_dispatched dispatched) early

end Xv6.Cpu
