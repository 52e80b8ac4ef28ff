/-
This file runs the table loops of the feedback scheduler on one CPU in one piece, so that runs over many
ticks can be computed.
-/

import Xv6.Proof.Cpu.Fate

namespace Xv6.Cpu
open TransitionSystem

/-- The number of ticks in a trace. -/
def tickCount (trace : List (Machine 1 × CpuEvent 1)) : Nat :=
  trace.countP fun entry => deed entry.1 entry.2 == .tick

@[simp] theorem tickCount_append (first second : List (Machine 1 × CpuEvent 1)) :
    tickCount (first ++ second) = tickCount first + tickCount second :=
  List.countP_append

/-- The table after a loop has visited the slots from `i` on. -/
def sweepFrom (i : Nat) (body : Slot → Proc → Proc) (proc : Slot → Proc) : Slot → Proc :=
  fun j => if i ≤ j.val then body j (proc j) else proc j

/-- The body of `wakeup` passes over the process that `c->proc` names. -/
def wakes (named : Option Slot) (chan : Chan) (j : Slot) (p : Proc) : Proc :=
  if named = some j then p else wakeupSlot chan p

/-- The machine with another table. -/
def withProc (s : Machine 1) (proc : Slot → Proc) : Machine 1 := { s with proc := proc }

/-- The machine after a loop of a handler has visited the slots from `i` on. -/
def sweepHandler (s : Machine 1) (place : Nat → HandlerPc) (i : Nat) (body : Slot → Proc → Proc) :
    Option (Machine 1) :=
  if i ≤ nproc then
    some ((withProc s (sweepFrom i body s.proc)).setHandler 0 (some (place nproc)))
  else none

/-- The machine after the scheduler's scan has visited the slots from `i` on. -/
def sweepScan (s : Machine 1) (i : Nat) : Option (Machine 1) :=
  if i ≤ nproc then
    some ((withProc s (sweepFrom i (fun _ => scanSlot s.ticks) s.proc)).goto 0 (.scan nproc none))
  else none

/-- The machine after the rest of the table loop that it executes. -/
def sweep (s : Machine 1) : Option (Machine 1) :=
  match s.handler 0 with
  | some (.update trap i) => sweepHandler s (.update trap) i fun _ => updateTime .mlfq
  | some (.wakeupCall chan i) => sweepHandler s (.wakeupCall chan) i (wakes (s.cproc 0) chan)
  | some (.wakeup trap timer chan rest i) =>
      sweepHandler s (.wakeup trap timer chan rest) i (wakes (s.cproc 0) chan)
  | some (.aging trap timer i) => sweepHandler s (.aging trap timer) i fun _ => aging s.ticks
  | some _ => none
  | none => match s.cur 0, (s.sched 0).pc with
      | none, .scan i none => sweepScan s i
      | _, _ => none

section Loop

variable {s t : Machine 1}

/-- A loop keeps what the CPU executes, and each record is the one before the loop or the one after. -/
def Between (s t u : Machine 1) : Prop :=
  u.cur = s.cur ∧ u.cproc = s.cproc ∧ ∀ q, u.proc q = s.proc q ∨ u.proc q = t.proc q

/-- A step inside a loop. -/
def Inside (s t : Machine 1) (entry : Machine 1 × CpuEvent 1) : Prop :=
  Between s t entry.1 ∧ ∀ u, entry.1.Step .mlfq entry.2 u → Between s t u

/-- The run of a loop takes no tick. -/
def Quickly (s t : Machine 1) : Prop :=
  ∃ trace, Run (fun s => s.Step .mlfq) s trace t ∧ tickCount trace = 0 ∧ ∀ entry ∈ trace, Inside s t entry

theorem sweepFrom_end (body : Slot → Proc → Proc) (proc : Slot → Proc) :
    sweepFrom nproc body proc = proc := by
  funext j
  simp [sweepFrom, Nat.not_le.mpr j.isLt]

/-- A loop visits its slot and then the rest. -/
theorem sweepFrom_next (body : Slot → Proc → Proc) (proc : Slot → Proc) (j : Slot) :
    sweepFrom (j.val + 1) body (Function.update proc j (body j (proc j))) = sweepFrom j.val body proc := by
  funext q
  by_cases same : q = j
  · simp [sweepFrom, same]
  · have different : q.val ≠ j.val := fun equal => same (Fin.ext equal)
    have order : j.val + 1 ≤ q.val ↔ j.val ≤ q.val := by omega
    simp [sweepFrom, same, order]

/-- The iterations of a loop compose to the whole loop. -/
theorem quickly_loop (place : Nat → (Slot → Proc) → Machine 1) (body : Slot → Proc → Proc)
    (table : ∀ i proc, (place i proc).proc = proc)
    (still : ∀ i proc, (place i proc).cur = s.cur ∧ (place i proc).cproc = s.cproc)
    (visit : ∀ (j : Slot) (proc : Slot → Proc), deed (place j.val proc) (.step 0) ≠ .tick ∧
      (place j.val proc).Step .mlfq (.step 0)
        (place (j.val + 1) (Function.update proc j (body j (proc j)))))
    (left : Nat) (i : Nat) (inside : i + left = nproc) (proc : Slot → Proc) :
    Quickly (place i proc) (place nproc (sweepFrom i body proc)) := by
  induction left generalizing i proc with
  | zero =>
      obtain rfl : i = nproc := inside
      rw [sweepFrom_end]
      exact ⟨[], .refl, rfl, nofun⟩
  | succ left ih =>
      have below : i < nproc := by omega
      obtain ⟨j, rfl⟩ : ∃ j : Slot, i = j.val := ⟨⟨i, below⟩, rfl⟩
      obtain ⟨timeless, stepped⟩ := visit j proc
      have rest := ih (j.val + 1) (by omega) (Function.update proc j (body j (proc j)))
      rw [sweepFrom_next body proc j] at rest
      obtain ⟨trace, run, zero, kept⟩ := rest
      have wider (u : Machine 1) (between : Between
          (place (j.val + 1) (Function.update proc j (body j (proc j))))
          (place nproc (sweepFrom j.val body proc)) u) :
          Between (place j.val proc) (place nproc (sweepFrom j.val body proc)) u := by
        obtain ⟨cur, cproc, records⟩ := between
        refine ⟨cur.trans ?_, cproc.trans ?_, fun q => ?_⟩
        · rw [(still _ _).1, (still _ _).1]
        · rw [(still _ _).2, (still _ _).2]
        rcases records q with old | new
        · rw [table] at old ⊢
          by_cases same : q = j
          · subst same
            exact .inr (by simpa [table, sweepFrom] using old)
          · exact .inl (by simpa [same] using old)
        · exact .inr new
      refine ⟨_, (Run.single stepped).trans run, by simp [tickCount, timeless, ← zero], ?_⟩
      intro entry member
      rcases List.mem_append.mp member with first | later
      · rw [List.mem_singleton.mp first]
        refine ⟨⟨rfl, rfl, fun q => .inl rfl⟩, fun u taken => wider u ?_⟩
        rw [Option.some.inj (taken.symm.trans stepped)]
        exact ⟨rfl, rfl, fun q => .inl rfl⟩
      · exact ⟨wider _ (kept entry later).1, fun u taken => wider u ((kept entry later).2 u taken)⟩

/-- The one CPU keeps no lock between two steps. -/
def Free (s : Machine 1) : Prop := (s.sched 0).pc.held = none

theorem Free.unlocked (free : Free s) (j : Slot) : s.Unlocked j := by
  intro c
  rw [Subsingleton.elim c 0, show (s.sched 0).pc.held = none from free]
  nofun

theorem setHandler_setHandler (s : Machine 1) (first second : Option HandlerPc) :
    (s.setHandler 0 first).setHandler 0 second = s.setHandler 0 second := by
  cases current : s.cur 0 <;>
    simp [Machine.setHandler, current, Machine.setSched, Machine.setThread]

theorem setHandler_self (s : Machine 1) : s.setHandler 0 (s.handler 0) = s := by
  cases current : s.cur 0 <;>
    simp [Machine.setHandler, Machine.handler, current, Machine.setSched, Machine.setThread]

theorem sched_setHandler (s : Machine 1) (handler : Option HandlerPc) :
    ((s.setHandler 0 handler).sched 0).pc = (s.sched 0).pc := by
  cases current : s.cur 0 <;> simp [Machine.setHandler, current, Machine.setSched, Machine.setThread]

theorem still_setHandler (s : Machine 1) (handler : Option HandlerPc) :
    (s.setHandler 0 handler).cur = s.cur ∧ (s.setHandler 0 handler).cproc = s.cproc := by
  cases current : s.cur 0 <;> simp [Machine.setHandler, current, Machine.setSched, Machine.setThread]

/-- A loop of a handler runs to its end without a tick. -/
theorem quickly_sweepHandler {place : Nat → HandlerPc} {i : Nat} {body : Slot → Proc → Proc}
    (position : s.handler 0 = some (place i)) (swept : sweepHandler s place i body = some t)
    (timeless : ∀ u j, handlerDeed u (place j) ≠ .tick)
    (visit : ∀ (j : Slot) (proc : Slot → Proc),
      ((withProc s proc).setHandler 0 (some (place j.val))).handlerStep .mlfq 0 (place j.val) =
        some ((withProc s (Function.update proc j (body j (proc j)))).setHandler 0
          (some (place (j.val + 1))))) : Quickly s t := by
  unfold sweepHandler at swept
  split_ifs at swept with inside
  rw [← Option.some.inj swept]
  have start : (withProc s s.proc).setHandler 0 (some (place i)) = s := by
    rw [← position]
    exact setHandler_self s
  have loop := quickly_loop (fun i proc => (withProc s proc).setHandler 0 (some (place i))) body
    (fun _ _ => proc_setHandler _ _ _) (fun i proc => still_setHandler (withProc s proc) _)
    (fun j proc => ?_) (nproc - i) i (by omega) s.proc
  · rwa [start] at loop
  · have here : ((withProc s proc).setHandler 0 (some (place j.val))).handler 0 = some (place j.val) :=
      handler_setHandler _ 0 _
    refine ⟨?_, ?_⟩
    · rw [deed_handler here]
      exact timeless _ _
    · simp only [Machine.Step, Machine.next, here]
      exact visit j proc

/-- One iteration of a loop writes its slot and moves the handler. -/
theorem visit_place (free : Free s) (proc : Slot → Proc) (before after : Option HandlerPc) (j : Slot)
    (body : Proc → Proc) :
    (((withProc s proc).setHandler 0 before).visit j body).map (·.setHandler 0 after) =
      some ((withProc s (Function.update proc j (body (proc j)))).setHandler 0 after) := by
  have unlocked : ((withProc s proc).setHandler 0 before).Unlocked j := by
    refine Free.unlocked ?_ j
    unfold Free
    rw [sched_setHandler]
    exact free
  simp only [Machine.visit, unlocked, if_true, Option.map_some, proc_setHandler, Option.some.injEq]
  cases current : s.cur 0 <;>
    simp [withProc, Machine.setHandler, current, Machine.setProc, Machine.setSched, Machine.setThread]

theorem wakeup_place (free : Free s) (proc : Slot → Proc) (before after : Option HandlerPc) (j : Slot)
    (chan : Chan) :
    (((withProc s proc).setHandler 0 before).wakeupAt 0 j chan).map (·.setHandler 0 after) =
      some ((withProc s (Function.update proc j (wakes (s.cproc 0) chan j (proc j)))).setHandler 0
        after) := by
  have named : ((withProc s proc).setHandler 0 before).cproc 0 = s.cproc 0 :=
    congrFun (still_setHandler (withProc s proc) before).2 0
  unfold Machine.wakeupAt
  rw [named]
  split_ifs with mine
  · simp [wakes, mine, setHandler_setHandler]
  · rw [visit_place free]
    simp [wakes, mine]

/-- The scheduler's scan runs to its end without a tick. -/
theorem quickly_scan {i : Nat} (idle : s.handler 0 = none) (current : s.cur 0 = none)
    (position : (s.sched 0).pc = .scan i none) (swept : sweepScan s i = some t) : Quickly s t := by
  unfold sweepScan at swept
  split_ifs at swept with inside
  rw [← Option.some.inj swept]
  have start : (withProc s s.proc).goto 0 (.scan i none) = s := by
    simp [withProc, Machine.goto, Machine.setSched, ← position]
  have loop := quickly_loop (fun i proc => (withProc s proc).goto 0 (.scan i none))
    (fun _ => scanSlot s.ticks) (fun _ _ => rfl) (fun _ _ => ⟨rfl, rfl⟩) (fun j proc => ?_) (nproc - i) i (by omega) s.proc
  · rwa [start] at loop
  · have free : ((withProc s proc).goto 0 (.scan j.val none)).handler 0 = none := by
      simp only [Machine.handler, current] at idle
      simp [withProc, Machine.goto, Machine.setSched, Machine.handler, current, idle]
    have waits : ((withProc s proc).goto 0 (.scan j.val none)).cur 0 = none := current
    have place : (((withProc s proc).goto 0 (.scan j.val none)).sched 0).pc = .scan j.val none := by
      simp [Machine.goto, Machine.setSched]
    have unlocked : ((withProc s proc).goto 0 (.scan j.val none)).Unlocked j :=
      Free.unlocked (by rw [Free, place]; rfl) j
    refine ⟨?_, ?_⟩
    · rw [deed_sched free waits, place]
      simp only [schedDeed, slotAt_val, Option.map_some, Option.getD_some]
      exact scanDeed_ne_tick _ _ _
    · simp only [Machine.Step, Machine.next, free, waits, Machine.schedStep, place, Machine.scanMlfq,
        slotAt_val, Machine.visit, unlocked, if_true, Option.map_some, Option.some.injEq]
      simp [withProc, Machine.goto, Machine.setSched, Machine.setProc]

/-- The rest of a table loop runs without a tick. -/
theorem quickly_sweep (free : Free s) (swept : sweep s = some t) : Quickly s t := by
  unfold sweep at swept
  cases position : s.handler 0 with
  | some pc =>
      simp only [position] at swept
      cases pc with
      | update trap i =>
          refine quickly_sweepHandler position swept (fun u j => ?_) fun j proc => ?_
          · cases found : slotAt j with
            | none => simp [handlerDeed, found]
            | some q =>
                simp only [handlerDeed, found, Option.map_some, Option.getD_some]
                exact chargeDeed_ne_tick _ _
          · simp only [Machine.handlerStep, slotAt_val]
            exact visit_place free proc _ _ j _
      | wakeupCall chan i | wakeup trap timer chan rest i =>
          refine quickly_sweepHandler position swept (fun u j => by rintro ⟨⟩) fun j proc => ?_
          simp only [Machine.handlerStep, slotAt_val]
          exact wakeup_place free proc _ _ j chan
      | aging trap timer i =>
          refine quickly_sweepHandler position swept (fun u j => ?_) fun j proc => ?_
          · cases found : slotAt j with
            | none => simp [handlerDeed, found]
            | some q =>
                simp only [handlerDeed, found, Option.map_some, Option.getD_some]
                exact agingDeed_ne_tick _ _ _
          · have clock : ((withProc s proc).setHandler 0
                (some (.aging trap timer j.val))).ticks = s.ticks := by
              cases current : s.cur 0 <;>
                simp [withProc, Machine.setHandler, current, Machine.setSched, Machine.setThread]
            simp only [Machine.handlerStep, slotAt_val, clock]
            exact visit_place free proc _ _ j _
      | _ => cases swept
  | none =>
      simp only [position] at swept
      split at swept
      · rename_i current waits
        exact quickly_scan position current waits swept
      · cases swept

end Loop

/-- One event, or the rest of a table loop. -/
inductive Stride where
  | event (event : CpuEvent 1)
  | sweep

def stride (s : Machine 1) : Stride → Option (Machine 1)
  | .event event => s.next .mlfq event
  | .sweep => if (s.sched 0).pc.held = none then sweep s else none

/-- The ticks that a stride takes. -/
def strideTicks (s : Machine 1) : Stride → Nat
  | .event event => if deed s event = .tick then 1 else 0
  | .sweep => 0

/-- The machine after some strides that pass a check, with the number of ticks so far. -/
def strides (check : Machine 1 → Stride → Machine 1 → Bool) (start : Machine 1 × Nat) :
    List Stride → Option (Machine 1 × Nat)
  | [] => some start
  | first :: rest => (stride start.1 first).bind fun next =>
      if check start.1 first next then
        strides check (next, start.2 + strideTicks start.1 first) rest
      else none

/-- The steps that a stride stands for. -/
def StrideStep (s : Machine 1) (move : Stride) (t : Machine 1) (entry : Machine 1 × CpuEvent 1) : Prop :=
  match move with
  | .event event => entry = (s, event)
  | .sweep => Inside s t entry

theorem run_of_stride {s t : Machine 1} {move : Stride} (moved : stride s move = some t) :
    ∃ trace, Run (fun s => s.Step .mlfq) s trace t ∧ tickCount trace = strideTicks s move ∧
      ∀ entry ∈ trace, StrideStep s move t entry := by
  cases move with
  | event event =>
      refine ⟨_, .single moved, ?_, fun entry member => List.mem_singleton.mp member⟩
      by_cases tick : deed s event = .tick <;> simp [tickCount, strideTicks, tick]
  | sweep =>
      unfold stride at moved
      split_ifs at moved with free
      exact quickly_sweep free moved

section Checked

variable {check : Machine 1 → Stride → Machine 1 → Bool} (good : Machine 1 → CpuEvent 1 → Prop)

/-- Strides that pass a check form a run with their number of ticks, and each entry is good. -/
theorem run_of_strides (sound : ∀ s move t entry, check s move t = true → StrideStep s move t entry →
      good entry.1 entry.2) {s t : Machine 1} {before after : Nat} {moves : List Stride}
    (moved : strides check (s, before) moves = some (t, after)) :
    ∃ trace, Run (fun s => s.Step .mlfq) s trace t ∧ before + tickCount trace = after ∧
      ∀ entry ∈ trace, good entry.1 entry.2 := by
  induction moves generalizing s before with
  | nil =>
      obtain ⟨rfl, rfl⟩ := Prod.mk.inj (Option.some.inj moved)
      exact ⟨[], .refl, rfl, nofun⟩
  | cons first rest ih =>
      obtain ⟨next, taken, later⟩ := Option.bind_eq_some_iff.mp moved
      split_ifs at later with checked
      obtain ⟨trace, run, count, kept⟩ := run_of_stride taken
      obtain ⟨others, onward, total, fine⟩ := ih later
      refine ⟨_, run.trans onward, ?_, fun entry member => ?_⟩
      · rw [tickCount_append, count, ← total]
        omega
      · rcases List.mem_append.mp member with old | new
        · exact sound _ _ _ entry checked (kept entry old)
        · exact fine entry new

end Checked

/-- Every stride passes. -/
def unchecked : Machine 1 → Stride → Machine 1 → Bool := fun _ _ _ => true

theorem run_of_unchecked {s t : Machine 1} {before after : Nat} {moves : List Stride}
    (moved : strides unchecked (s, before) moves = some (t, after)) :
    ∃ trace, Run (fun s => s.Step .mlfq) s trace t ∧ before + tickCount trace = after := by
  obtain ⟨trace, run, count, _⟩ := run_of_strides (fun _ _ => True)
    (fun _ _ _ _ _ _ => trivial) moved
  exact ⟨trace, run, count⟩

section Waiting

/-- The CPU executes some sections one by one. -/
def sections (count : Nat) : List Stride := List.replicate count (.event (.step 0))

def doCall (call : KernelCall) : List Stride := [.event (.call 0 call)]

/-- A timer interrupt runs up to the end of its aging loop, and then takes some more sections. -/
def tickTo (count : Nat) : List Stride :=
  .event (.interrupt 0 .timer) :: sections 1 ++ [.sweep] ++ sections 1 ++ [.sweep] ++ sections 2 ++
    [.sweep] ++ sections count

/-- The scheduler clears `c->proc`, scans the table and runs a process. -/
def reschedule : List Stride := sections 2 ++ [.sweep] ++ sections 3

/-- A tick returns to the process that it interrupted. -/
def plainTick : List Stride := tickTo 5

/-- A tick ends the slice of a process, and the next process goes on after its own `yield`. -/
def sliceTick : List Stride := tickTo 3 ++ reschedule ++ sections 3

/-- A tick ends the slice of a process, and the next process returns to user space from a call. -/
def sliceTickNew : List Stride := tickTo 3 ++ reschedule ++ doCall .leave

def forkChild (np : Slot) : List Stride := doCall (.fork np ⟨some junkFrame, some 0, true⟩) ++ sections 1

/-- The first process forks a child and sleeps. The child moves down to the third queue at the fourth
tick and forks. The grandchild preempts it and moves down too, up to the choice of the next process at
the ninth tick. -/
def untilResumed : List Stride :=
  sections 1 ++ [.sweep] ++ sections 3 ++ forkChild 1 ++ doCall (.sleep (.other 0)) ++ reschedule ++
    doCall .leave ++ sliceTick ++ plainTick ++ plainTick ++ sliceTick ++
    doCall .enter ++ forkChild 2 ++ doCall .leave ++ tickTo 4 ++ reschedule ++ doCall .leave ++
    sliceTick ++ plainTick ++ plainTick ++ tickTo 3 ++ sections 2 ++ [.sweep] ++ sections 2

/-- The child runs again, forks five more children and is preempted by them. They move down in turn, and
the last one wakes the first process, which runs when the child has been in the third queue for thirty
ticks. The aging loop is about to visit the child. -/
def untilAged : List Stride :=
  sections 2 ++ plainTick ++ plainTick ++ plainTick ++ doCall .enter ++ forkChild 3 ++ forkChild 4 ++
    forkChild 5 ++ forkChild 6 ++ forkChild 7 ++ doCall .leave ++ tickTo 4 ++ reschedule ++ doCall .leave ++
    sliceTickNew ++ sliceTickNew ++ sliceTickNew ++ sliceTickNew ++ sliceTick ++
    (List.replicate 4 (plainTick ++ plainTick ++ sliceTick)).flatten ++ plainTick ++ plainTick ++
    doCall .enter ++ doCall (.wakeup (.other 0)) ++ [.sweep] ++ sections 1 ++ doCall .leave ++
    sliceTickNew ++
    .event (.interrupt 0 .timer) :: sections 1 ++ [.sweep] ++ sections 1 ++ [.sweep] ++ sections 3

/-- The tick goes on to the test of the slice of the first process. -/
def untilSlice : List Stride := sections 1 ++ [.sweep] ++ sections 1

/-- What the long run shows when the child is dispatched again, when it is aged, and when the slice of
the first process ends. -/
def longRunShows : Bool :=
  (strides unchecked (Machine.boot .mlfq 1 0 0, 0) untilResumed).any fun resumed =>
    deed resumed.1 (.step 0) == .dispatch 1 &&
      (resumed.1.next .mlfq (.step 0)).any fun running =>
        (strides unchecked (running, 0) untilAged).any fun aged =>
          decide (aged.2 < agingTime) && deed aged.1 (.step 0) == .push .aging 1 1 &&
            (aged.1.proc 1).mlfqData.currPri == 2 && (aged.1.next .mlfq (.step 0)).isSome &&
              (strides unchecked aged untilSlice).any fun slice =>
                deed slice.1 (.step 0) == .push .slice 0 1 && (slice.1.next .mlfq (.step 0)).isSome &&
                  queuedAt (slice.1.proc 1) 1 && (slice.1.proc 1).mlfqData.intime == slice.1.ticks

theorem longRun_shows : longRunShows = true := by
  decide +kernel

/-- The child is dispatched fewer than thirty ticks before it is aged, and the slice of the first process
ends in the same tick. -/
theorem longRun : ∃ (before middle after : List (Machine 1 × CpuEvent 1))
    (resumed running aged slice : Machine 1),
    Run (fun s => s.Step .mlfq) (.boot .mlfq 1 0 0) before resumed ∧
    deed resumed (.step 0) = .dispatch 1 ∧ resumed.Step .mlfq (.step 0) running ∧
    Run (fun s => s.Step .mlfq) running middle aged ∧ tickCount middle < agingTime ∧
    deed aged (.step 0) = .push .aging 1 1 ∧ (aged.proc 1).mlfqData.currPri = 2 ∧
    (aged.next .mlfq (.step 0)).isSome = true ∧ Run (fun s => s.Step .mlfq) aged after slice ∧
    deed slice (.step 0) = .push .slice 0 1 ∧ (slice.next .mlfq (.step 0)).isSome = true ∧
    queuedAt (slice.proc 1) 1 = true ∧ (slice.proc 1).mlfqData.intime = slice.ticks := by
  have shows := longRun_shows
  unfold longRunShows at shows
  generalize Machine.boot .mlfq 1 0 0 = boot at shows ⊢
  obtain ⟨⟨resumed, clock⟩, reached, shows⟩ := (Option.any_eq_true _ _).mp shows
  simp only [Bool.and_eq_true, beq_iff_eq] at shows
  obtain ⟨dispatched, shows⟩ := shows
  obtain ⟨running, stepped, shows⟩ := (Option.any_eq_true _ _).mp shows
  obtain ⟨⟨aged, ticks⟩, waited, shows⟩ := (Option.any_eq_true _ _).mp shows
  simp only [Bool.and_eq_true, beq_iff_eq, decide_eq_true_eq] at shows
  obtain ⟨⟨⟨⟨early, pushed⟩, pri⟩, possible⟩, shows⟩ := shows
  obtain ⟨⟨slice, _⟩, onward, shows⟩ := (Option.any_eq_true _ _).mp shows
  simp only [Bool.and_eq_true, beq_iff_eq] at shows
  obtain ⟨⟨⟨ends, next⟩, queued⟩, time⟩ := shows
  obtain ⟨before, first, _⟩ := run_of_unchecked reached
  obtain ⟨middle, second, count⟩ := run_of_unchecked waited
  obtain ⟨after, third, _⟩ := run_of_unchecked onward
  exact ⟨before, middle, after, resumed, running, aged, slice, first, dispatched, stepped, second,
    by omega, pushed, pri, possible, third, ends, next, queued, time⟩

end Waiting

end Xv6.Cpu
