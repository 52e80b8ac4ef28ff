/-
This file compares the queues of the feedback scheduler with an explicit list of pushes. On one CPU the
scheduler takes the head of the list when the pushes of one tick come in slot order.
-/

import Xv6.Proof.Cpu.Slice

namespace Xv6.Cpu
open TransitionSystem

/-- A push moves its process to the end of the list. -/
def pushStep (order : List Slot) : Deed → List Slot
  | .push _ q _ => order.filter (· ≠ q) ++ [q]
  | _ => order

/-- The processes in the order of their last pushes. The first process is pushed at boot. -/
def pushOrder (trace : List (Machine 1 × CpuEvent 1)) : List Slot :=
  trace.foldl (fun order entry => pushStep order (deed entry.1 entry.2)) [0]

/-- The processes that wait in one queue, in the order of their last pushes. -/
def line (trace : List (Machine 1 × CpuEvent 1)) (proc : Slot → Proc) (qnum : Int) : List Slot :=
  (pushOrder trace).filter fun q => queuedAt (proc q) qnum

/-- The clock does not wrap, a push finds no process of a later slot that was pushed into its queue in the
same tick, and no interrupt arrives between the choice of a process and its lock. -/
def PushOrdered (s : Machine 1) (event : CpuEvent 1) : Prop :=
  Unhurried s event ∧
    match deed s event with
    | .tick => s.ticks + 1 ≠ 0
    | .push _ q qnum => ∀ r, r ≠ q → (s.proc r).mlfqData.inQueue = true →
        (s.proc r).mlfqData.currPri = qnum → (s.proc r).mlfqData.intime = s.ticks → r.val < q.val
    | _ => True

instance (s : Machine 1) (event : CpuEvent 1) : Decidable (PushOrdered s event) :=
  @instDecidableAnd (Unhurried s event) _ _ <| match deed s event with
    | .tick => inferInstanceAs (Decidable (s.ticks + 1 ≠ 0))
    | .push _ q qnum => inferInstanceAs (Decidable (∀ r, r ≠ q → (s.proc r).mlfqData.inQueue = true →
        (s.proc r).mlfqData.currPri = qnum → (s.proc r).mlfqData.intime = s.ticks → r.val < q.val))
    | .quiet | .charge _ | .dispatch _ => isTrue trivial

/-- Two processes of one queue are taken in their order. -/
def Precedes (proc : Slot → Proc) (p q : Slot) : Prop :=
  (proc p).mlfqData.inQueue = true → (proc q).mlfqData.inQueue = true →
    (proc p).mlfqData.currPri = (proc q).mlfqData.currPri → Before proc p q

/-- The times in the table agree with the list of pushes, and the chosen process is still the first. -/
structure Lined (trace : List (Machine 1 × CpuEvent 1)) (s : Machine 1) : Prop where
  wired : Wired .mlfq s
  stamped : Stamped s
  listed : ∀ q, (s.proc q).mlfqData.inQueue = true → q ∈ pushOrder trace
  sorted : (pushOrder trace).Pairwise (Precedes s.proc)
  chosen : ∀ p, s.cur 0 = none → (s.sched 0).pc = .lockNext p →
    s.handler 0 = none ∧ chooseNext s.proc = some p

section Step

variable {trace : List (Machine 1 × CpuEvent 1)} {s t : Machine 1} {event : CpuEvent 1}

theorem pushOrder_append (s : Machine 1) (event : CpuEvent 1) :
    pushOrder (trace ++ [(s, event)]) = pushStep (pushOrder trace) (deed s event) := by
  simp [pushOrder]

theorem PushOrdered.steady (ordered : PushOrdered s event) (tick : deed s event = .tick) :
    s.ticks + 1 ≠ 0 := by
  simpa only [tick] using ordered.2

theorem PushOrdered.slots {cause : Cause} {q r : Slot} {qnum : Int} (ordered : PushOrdered s event)
    (pushed : deed s event = .push cause q qnum) (other : r ≠ q)
    (inside : (s.proc r).mlfqData.inQueue = true) (pri : (s.proc r).mlfqData.currPri = qnum) :
    (s.proc r).mlfqData.intime = s.ticks → r.val < q.val := by
  have apart := ordered.2
  simp only [pushed] at apart
  exact apart r other inside pri

/-- A step that pushes no process keeps the queued processes where they are. -/
theorem queued_kept (wired : Wired .mlfq s) (stepped : s.Step .mlfq event t)
    (quiet : ∀ cause q qnum, deed s event ≠ .push cause q qnum) (q : Slot)
    (inside : (t.proc q).mlfqData.inQueue = true) :
    (s.proc q).mlfqData.inQueue = true ∧
      (t.proc q).mlfqData.currPri = (s.proc q).mlfqData.currPri ∧
      (t.proc q).mlfqData.intime = (s.proc q).mlfqData.intime := by
  have fate : Fate (core s) q (deed s event) (t.proc q).mlfqData := fate_next (core_next wired stepped) q
  rcases fate.queued inside with ⟨cause, qnum, pushed, _⟩ | ⟨_, kept⟩
  · exact absurd pushed (quiet cause q qnum)
  · exact kept

theorem Precedes.kept {p q : Slot} (precedes : Precedes s.proc p q) (wired : Wired .mlfq s)
    (stepped : s.Step .mlfq event t) (quiet : ∀ cause q qnum, deed s event ≠ .push cause q qnum) :
    Precedes t.proc p q := by
  intro first second same
  obtain ⟨firstIn, firstPri, firstTime⟩ := queued_kept wired stepped quiet p first
  obtain ⟨secondIn, secondPri, secondTime⟩ := queued_kept wired stepped quiet q second
  rw [firstPri, secondPri] at same
  unfold Before
  rw [firstTime, secondTime]
  exact precedes firstIn secondIn same

/-- A push into a queue goes behind the processes that are in it. -/
theorem precedes_push {cause : Cause} {q r : Slot} {qnum : Int} (lined : Lined trace s)
    (ordered : PushOrdered s event) (pushed : deed s event = .push cause q qnum)
    (stepped : s.Step .mlfq event t) (other : r ≠ q) : Precedes t.proc r q := by
  intro inside _ pri
  have same : t.proc r = s.proc r := push_others (core_next lined.wired stepped) pushed other
  rw [pushed_data lined.wired pushed stepped, same] at pri
  rw [same] at inside
  exact before_pushed lined.wired lined.stamped pushed stepped other inside
    (ordered.slots pushed other inside pri)

theorem sorted_next (lined : Lined trace s) (ordered : PushOrdered s event)
    (stepped : s.Step .mlfq event t) :
    (pushStep (pushOrder trace) (deed s event)).Pairwise (Precedes t.proc) := by
  by_cases pushes : ∃ cause q qnum, deed s event = .push cause q qnum
  · obtain ⟨cause, q, qnum, pushed⟩ := pushes
    have same {r : Slot} (other : r ≠ q) : t.proc r = s.proc r :=
      push_others (core_next lined.wired stepped) pushed other
    simp only [pushed, pushStep]
    refine List.pairwise_append.mpr ⟨?_, List.pairwise_singleton _ _, fun r inside p last => ?_⟩
    · refine (lined.sorted.filter _).imp_of_mem fun {p r} first second precedes => ?_
      have one : p ≠ q := by simpa using (List.mem_filter.mp first).2
      have two : r ≠ q := by simpa using (List.mem_filter.mp second).2
      unfold Precedes Before
      rw [same one, same two]
      exact precedes
    · rw [List.mem_singleton.mp last]
      exact precedes_push lined ordered pushed stepped (by simpa using (List.mem_filter.mp inside).2)
  · have quiet (cause : Cause) (q : Slot) (qnum : Int) : deed s event ≠ .push cause q qnum :=
      fun pushed => pushes ⟨cause, q, qnum, pushed⟩
    have same : pushStep (pushOrder trace) (deed s event) = pushOrder trace := by
      unfold pushStep
      split
      · rename_i pushed
        exact absurd pushed (quiet _ _ _)
      · rfl
    rw [same]
    exact lined.sorted.imp fun precedes => precedes.kept lined.wired stepped quiet

theorem listed_next (lined : Lined trace s) (stepped : s.Step .mlfq event t) (q : Slot)
    (inside : (t.proc q).mlfqData.inQueue = true) : q ∈ pushStep (pushOrder trace) (deed s event) := by
  have fate : Fate (core s) q (deed s event) (t.proc q).mlfqData :=
    fate_next (core_next lined.wired stepped) q
  rcases fate.queued inside with ⟨cause, qnum, pushed, _⟩ | ⟨other, kept, _⟩
  · simp [pushed, pushStep]
  · have before := lined.listed q kept
    unfold pushStep
    split
    · rename_i cause r qnum pushed
      have apart : q ≠ r := fun same => other cause qnum (same ▸ pushed)
      exact List.mem_append_left _ (List.mem_filter.mpr ⟨before, by simpa using apart⟩)
    · exact before

/-- The choice stands until the process is locked. -/
theorem choice_next (lined : Lined trace s) (ordered : PushOrdered s event)
    (stepped : s.Step .mlfq event t) {p : Slot} (idle : t.cur 0 = none)
    (locks : (t.sched 0).pc = .lockNext p) : t.handler 0 = none ∧ chooseNext t.proc = some p := by
  obtain ⟨_, _, _, _, chosen, same, quiet⟩ := chosen_of_lock lined.wired ordered.1 stepped
    (fun current before => (lined.chosen p current before).1) idle locks
  exact ⟨quiet, same ▸ chosen⟩

theorem lined_step (lined : Lined trace s) (ordered : PushOrdered s event)
    (stepped : s.Step .mlfq event t) : Lined (trace ++ [(s, event)]) t where
  wired := wired_step lined.wired stepped
  stamped := stamped_step lined.wired lined.stamped ordered.steady stepped
  listed := by
    rw [pushOrder_append]
    exact listed_next lined stepped
  sorted := by
    rw [pushOrder_append]
    exact sorted_next lined ordered stepped
  chosen := fun _ idle locks => choice_next lined ordered stepped idle locks

end Step

section Run

variable {table cwd : Uint64} {s t : Machine 1} {trace : List (Machine 1 × CpuEvent 1)}

theorem lined_boot (table cwd : Uint64) : Lined [] (Machine.boot .mlfq 1 table cwd) where
  wired := wired_boot .mlfq 1 table cwd
  stamped := stamped_boot table cwd
  listed := by
    refine forall_update (P := fun q p => p.mlfqData.inQueue = true → q ∈ [0]) ?_ ?_
    · exact fun _ => List.mem_singleton_self _
    · exact fun _ _ => nofun
  sorted := List.pairwise_singleton _ _
  chosen := nofun

/-- The head of a sorted list is its least element. -/
theorem head_of_least {proc : Slot → Proc} {slots : List Slot} {q : Slot}
    (sorted : slots.Pairwise (Before proc)) (member : q ∈ slots)
    (least : ∀ r ∈ slots, r = q ∨ Before proc q r) : slots.head? = some q := by
  cases slots with
  | nil => exact (nomatch member)
  | cons first rest =>
      rcases List.mem_cons.mp member with rfl | later
      · rfl
      · have ahead := (List.pairwise_cons.mp sorted).1 q later
        rcases least first List.mem_cons_self with rfl | behind
        · rfl
        · exact (ahead.asymm behind).elim

/-- On one CPU the scheduler takes the head of the list of pushes, and a push goes to the tail of its
queue, when the pushes of one tick come in slot order. -/
theorem queues_fifo {event : CpuEvent 1}
    (run : Run (fun s => s.Step .mlfq) (.boot .mlfq 1 table cwd) trace s)
    (ordered : ∀ entry ∈ trace ++ [(s, event)], PushOrdered entry.1 entry.2)
    (stepped : s.Step .mlfq event t) :
    (∀ q, deed s event = .dispatch q →
      (line trace s.proc (s.proc q).mlfqData.currPri).head? = some q) ∧
    ∀ cause q qnum, deed s event = .push cause q qnum → AtTail t.proc q qnum := by
  have lined : Lined trace s :=
    run.history PushOrdered (fun _ _ _ _ allowed lined stepped => lined_step lined allowed stepped)
      (fun entry inside => ordered entry (List.mem_append_left _ inside)) (lined_boot table cwd)
  have last := ordered _ (List.mem_append_right _ (List.mem_singleton_self _))
  refine ⟨fun q dispatched => ?_, fun cause q qnum pushed => ?_⟩
  · obtain ⟨current, locks, _⟩ := dispatch_next (core_next lined.wired stepped) dispatched
    obtain ⟨_, chosen⟩ := lined.chosen q current locks
    obtain ⟨runnable, inside⟩ := chooseNext_waits chosen
    have member : q ∈ line trace s.proc (s.proc q).mlfqData.currPri :=
      List.mem_filter.mpr ⟨lined.listed q inside, (queuedAt_iff _ _).mpr ⟨inside, rfl, runnable⟩⟩
    refine head_of_least ?_ member fun r inside => chooseNext_first chosen (List.mem_filter.mp inside).2
    refine (lined.sorted.filter _).imp_of_mem fun {p r} first second precedes => ?_
    obtain ⟨firstIn, firstPri, _⟩ := (queuedAt_iff _ _).mp (List.mem_filter.mp first).2
    obtain ⟨secondIn, secondPri, _⟩ := (queuedAt_iff _ _).mp (List.mem_filter.mp second).2
    exact precedes firstIn secondIn (firstPri.trans secondPri.symm)
  · have data := pushed_data lined.wired pushed stepped
    refine ⟨by rw [data], by rw [data], fun r other waits => ?_⟩
    obtain ⟨inside, pri, _⟩ := (queuedAt_iff _ _).mp waits
    exact precedes_push lined last pushed stepped other inside (by rw [data]) (by rw [pri, data])

end Run

/-- The first process forks two children and sleeps, and the scheduler has chosen the first child. -/
def childChosen : List (CpuEvent 1) :=
  firstPass ++ [.call 0 (.fork 1 ⟨some junkFrame, some 0, true⟩), .step 0,
    .call 0 (.fork 2 ⟨some junkFrame, some 0, true⟩), .step 0, .call 0 (.sleep (.other 0))] ++
    Machine.steps 0 68

/-- The first child wakes the first process and sleeps, and the scheduler has chosen the next process. -/
def parentChosen : List (CpuEvent 1) :=
  childChosen ++ [.step 0, .call 0 (.wakeup (.other 0))] ++ Machine.steps 0 65 ++
    [.call 0 (.sleep (.other 1))] ++ Machine.steps 0 68

/-- The scheduler dispatches the first child, which was pushed before the second. -/
theorem queues_fifo_children : ∃ (trace : List (Machine 1 × CpuEvent 1)) (s : Machine 1),
    Run (fun s => s.Step .mlfq) (.boot .mlfq 1 0 0) trace s ∧ deed s (.step 0) = .dispatch 1 ∧
    queuedAt (s.proc 2) 0 = true ∧ (line trace s.proc 0).head? = some 1 := by
  obtain ⟨trace, run, ordered⟩ := run_of_events .mlfq childChosen PushOrdered (by decide +kernel)
  have facts : Machine.legal .mlfq (Machine.play .mlfq childChosen) (.step 0) = true ∧
      PushOrdered (Machine.play .mlfq childChosen) (.step 0) ∧
      deed (Machine.play .mlfq childChosen) (.step 0) = .dispatch 1 ∧
      queuedAt ((Machine.play .mlfq childChosen).proc 2) 0 = true ∧
      ((Machine.play .mlfq childChosen).proc 1).mlfqData.currPri = 0 := by decide +kernel
  generalize Machine.play .mlfq childChosen = s at run facts
  obtain ⟨possible, last, dispatched, waits, pri⟩ := facts
  refine ⟨trace, s, run, dispatched, waits, ?_⟩
  have stepped := Machine.legal_step s (.step 0) possible
  have first := (queues_fifo run (fun entry inside => ?_) stepped).1 1 dispatched
  · rwa [pri] at first
  · rcases List.mem_append.mp inside with old | new
    · exact ordered entry old
    · rw [List.mem_singleton.mp new]
      exact last

/-- The scheduler dispatches the first process, which was pushed after the second child in the same
tick. -/
theorem parent_overtakes_child : ∃ (trace : List (Machine 1 × CpuEvent 1)) (s : Machine 1),
    Run (fun s => s.Step .mlfq) (.boot .mlfq 1 0 0) trace s ∧
    (s.next .mlfq (.step 0)).isSome = true ∧ deed s (.step 0) = .dispatch 0 ∧
    line trace s.proc 0 = [2, 0] := by
  have played : plays (Machine.legal .mlfq) (Machine.after .mlfq) (.boot .mlfq 1 0 0) parentChosen = true := by
    decide +kernel
  refine ⟨_, _, (run_entries Machine.legal_step (fun _ _ _ => trivial) played).1, ?_⟩
  decide +kernel

end Xv6.Cpu
