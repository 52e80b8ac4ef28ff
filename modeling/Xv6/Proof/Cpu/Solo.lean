/-
This file gives the feedback scheduler on one CPU. A deed is what a step does to the queues: it counts a
tick, charges a process, pushes it into a queue, or dispatches it. The steps of the machine are listed
again over the one thread that the CPU executes.
-/

import Xv6.Proof.Cpu.Control
import Xv6.Proof.Cpu.Table

namespace Xv6.Cpu
open TransitionSystem

/-- The code that calls `push`. -/
inductive Cause where
  | aging
  | slice
  | insert
  | fork
  deriving DecidableEq

inductive Deed where
  | quiet
  | tick
  | charge (q : Slot)
  | push (cause : Cause) (q : Slot) (qnum : Int)
  | dispatch (q : Slot)
  deriving DecidableEq

/-- `update_time` charges a running process. -/
def chargeDeed (j : Slot) (p : Proc) : Deed := if p.state = .running then .charge j else .quiet

/-- The aging loops push a process that waited long enough. -/
def agingDeed (ticks : Uint) (j : Slot) (p : Proc) : Deed :=
  if agingDue ticks p then .push .aging j (max (p.mlfqData.currPri - 1) 0) else .quiet

/-- The scheduler's scan also pushes a runnable process that is in no queue. -/
def scanDeed (ticks : Uint) (j : Slot) (p : Proc) : Deed :=
  if agingDue ticks p then .push .aging j (max (p.mlfqData.currPri - 1) 0)
  else if p.state = .runnable ∧ p.mlfqData.inQueue = false then .push .insert j p.mlfqData.currPri
  else .quiet

/-- What the section of a handler does to the queues. -/
def handlerDeed (s : Machine 1) : HandlerPc → Deed
  | .clock _ => .tick
  | .update _ i => ((slotAt i).map fun j => chargeDeed j (s.proc j)).getD .quiet
  | .aging _ _ i => ((slotAt i).map fun j => agingDeed s.ticks j (s.proc j)).getD .quiet
  | .slice _ timer p =>
      if timer ∧ sliceUsed (s.proc p) then
        .push .slice p (min ((s.proc p).mlfqData.currPri + 1) (mlfqNumQueues - 1))
      else .quiet
  | _ => .quiet

/-- What the section of the scheduler does to the queues. -/
def schedDeed (s : Machine 1) : SchedPc → Deed
  | .scan i _ => ((slotAt i).map fun j => scanDeed s.ticks j (s.proc j)).getD .quiet
  | .lockNext p => .dispatch p
  | _ => .quiet

/-- What the step does to the queues. -/
def deed (s : Machine 1) : CpuEvent 1 → Deed
  | .step c => match s.handler c with
      | some pc => handlerDeed s pc
      | none => match s.cur c with
          | none => schedDeed s (s.sched c).pc
          | some p => match (s.thread p).base with
              | .forking _ np => .push .fork np 0
              | _ => .quiet
  | _ => .quiet

/-- The CPU's view of the machine. The handlers of the threads that it does not execute are parked. -/
structure Core where
  proc : Slot → Proc
  ticks : Uint
  cur : Option Slot
  cproc : Option Slot
  pc : SchedPc
  handler : Option HandlerPc
  parked : Slot → Option HandlerPc

def core (s : Machine 1) : Core where
  proc := s.proc
  ticks := s.ticks
  cur := s.cur 0
  cproc := s.cproc 0
  pc := (s.sched 0).pc
  handler := s.handler 0
  parked := fun p => if s.cur 0 = some p then none else (s.thread p).handler

/-- A section that changes only the position of the handler. -/
inductive Walk (k : Core) : Option HandlerPc → Prop where
  | interrupt (trap : Trap) (device : Device) :
      k.handler = none → Walk k (some (.devintr trap true device))
  | turn (pc : HandlerPc) (handler : Option HandlerPc) :
      k.handler = some pc → Turn .mlfq k.cproc k.proc pc handler → Walk k handler
  | dying (timer : Bool) : k.handler = some (.killed timer) → Walk k none
  | wakeup (chan : Chan) : k.handler = none → Walk k (some (.wakeupCall chan 0))

/-- A process leaves the CPU with a new record, and its handler is parked. -/
inductive Leaves (k : Core) (p : Slot) : Proc → Option HandlerPc → Prop where
  | yield (trap : Trap) (after : AfterYield) :
      k.handler = some (.yield trap after) →
      Leaves k p { k.proc p with state := .runnable } (some (after.pc trap))
  | sleep (chan : Chan) :
      k.handler = none → Leaves k p { k.proc p with state := .sleeping, chan := some chan } none
  | exit (status : CInt) : k.handler = none → Leaves k p (exitZombie k.ticks status (k.proc p)) none

/-- A section of the scheduler that writes no record. -/
inductive Sched (k : Core) : SchedPc → Option Slot → Prop where
  | top : k.pc = .top → Sched k (.scan 0 none) k.cproc
  | done (i : Nat) (first : Option Slot) :
      k.pc = .scan i first → nproc ≤ i → Sched k .choose k.cproc
  | stale (p : Slot) : k.pc = .stale p → Sched k .top none
  | choose (p : Slot) : k.pc = .choose → chooseNext k.proc = some p → Sched k (.lockNext p) none
  | empty : k.pc = .choose → chooseNext k.proc = none → Sched k .top none

/-- One step of the CPU. -/
inductive CoreStep (k : Core) : Deed → Core → Prop where
  | rest : k.handler = none → CoreStep k .quiet k
  | walk (handler : Option HandlerPc) :
      Walk k handler → CoreStep k .quiet { k with handler := handler }
  | tick (trap : Trap) :
      k.handler = some (.clock trap) →
      CoreStep k .tick { k with ticks := k.ticks + 1, handler := some (.update trap 0) }
  | charge (trap : Trap) (j : Slot) :
      k.handler = some (.update trap j.val) →
      CoreStep k (chargeDeed j (k.proc j)) { k with
        proc := Function.update k.proc j (updateTime .mlfq (k.proc j))
        handler := some (.update trap (j.val + 1)) }
  | wakeCall (chan : Chan) (j : Slot) :
      k.handler = some (.wakeupCall chan j.val) → k.cproc ≠ some j →
      CoreStep k .quiet { k with
        proc := Function.update k.proc j (wakeupSlot chan (k.proc j))
        handler := some (.wakeupCall chan (j.val + 1)) }
  | wake (trap : Trap) (timer : Bool) (chan : Chan) (rest : List Chan) (j : Slot) :
      k.handler = some (.wakeup trap timer chan rest j.val) → k.cproc ≠ some j →
      CoreStep k .quiet { k with
        proc := Function.update k.proc j (wakeupSlot chan (k.proc j))
        handler := some (.wakeup trap timer chan rest (j.val + 1)) }
  | age (trap : Trap) (timer : Bool) (j : Slot) :
      k.handler = some (.aging trap timer j.val) →
      CoreStep k (agingDeed k.ticks j (k.proc j)) { k with
        proc := Function.update k.proc j (aging k.ticks (k.proc j))
        handler := some (.aging trap timer (j.val + 1)) }
  | demote (trap : Trap) (p : Slot) :
      k.handler = some (.slice trap true p) → sliceUsed (k.proc p) = true →
      CoreStep k (.push .slice p (min ((k.proc p).mlfqData.currPri + 1) (mlfqNumQueues - 1))) { k with
        proc := Function.update k.proc p (demote k.ticks (k.proc p))
        handler := some (.yield trap (.flag p)) }
  | leave (p : Slot) (record : Proc) (after : Option HandlerPc) :
      k.cur = some p → Leaves k p record after →
      CoreStep k .quiet { k with
        proc := Function.update k.proc p record
        cur := none
        pc := .stale p
        handler := none
        parked := Function.update k.parked p after }
  | stray (p : Slot) (trap : Trap) (after : AfterYield) :
      k.handler = some (.yield trap after) → k.cur = none → k.cproc = some p →
      CoreStep k .quiet { k with
        proc := Function.update k.proc p { k.proc p with state := .runnable }
        handler := none
        parked := Function.update k.parked p none }
  | sched (pc : SchedPc) (named : Option Slot) :
      k.handler = none → k.cur = none → Sched k pc named →
      CoreStep k .quiet { k with pc := pc, cproc := named }
  | scan (j : Slot) (first : Option Slot) :
      k.handler = none → k.cur = none → k.pc = .scan j.val first →
      CoreStep k (scanDeed k.ticks j (k.proc j)) { k with
        proc := Function.update k.proc j (scanSlot k.ticks (k.proc j))
        pc := .scan (j.val + 1) none }
  | run (p : Slot) (handler : Option HandlerPc) :
      k.handler = none → k.cur = none → k.pc = .lockNext p → (handler = none ∨ handler = k.parked p) →
      CoreStep k (.dispatch p) { k with
        proc := Function.update k.proc p { k.proc p with state := .running, chan := none }
        cur := some p
        cproc := some p
        pc := .away p 0
        handler := handler
        parked := Function.update k.parked p none }
  | kill (j : Slot) :
      k.handler = none → k.cur ≠ none →
      CoreStep k .quiet { k with proc := Function.update k.proc j (killSlot (k.proc j)) }
  | ready (p np : Slot) :
      k.handler = none → k.cur = some p →
      CoreStep k (.push .fork np 0) { k with
        proc := Function.update k.proc np (forkReady .mlfq k.ticks (forkParent p (k.proc np))) }
  | fork (np : Slot) (record : Proc) :
      k.handler = none → k.cur ≠ none → (k.proc np).state = .unused → record.state = .used →
      record.mlfqData = (k.proc np).mlfqData →
      CoreStep k .quiet { k with
        proc := Function.update k.proc np record
        parked := Function.update k.parked np none }
  | free (np : Slot) (record : Proc) :
      k.handler = none → k.cur ≠ none → (k.proc np).state ≠ .running → record.state = .unused →
      record.mlfqData = .zero →
      CoreStep k .quiet { k with proc := Function.update k.proc np record }

section View

variable (s : Machine 1)

@[simp] theorem core_setProc (j : Slot) (record : Proc) :
    core (s.setProc j record) = { core s with proc := Function.update s.proc j record } := rfl

@[simp] theorem core_setHandler (handler : Option HandlerPc) :
    core (s.setHandler 0 handler) = { core s with handler := handler } := by
  unfold Machine.setHandler
  cases current : s.cur 0 with
  | none => simp [core, Machine.setSched, Machine.handler, current]
  | some p =>
      simp only [core, Machine.setThread, Machine.handler, current, Function.update_self,
        Core.mk.injEq, true_and]
      funext q
      by_cases same : p = q
      · simp [same]
      · simp [same, Function.update_of_ne (Ne.symm same)]

@[simp] theorem core_goto (pc : SchedPc) : core (s.goto 0 pc) = { core s with pc := pc } := by
  cases current : s.cur 0 <;>
    simp [core, Machine.goto, Machine.setSched, Machine.handler, current]

@[simp] theorem core_setBase (p : Slot) (base : Base) : core (s.setBase p base) = core s := by
  have same (q : Slot) : ((s.setBase p base).thread q).handler = (s.thread q).handler := by
    by_cases this : q = p <;> simp [Machine.setBase, Machine.setThread, this]
  have kept : (s.setBase p base).cur 0 = s.cur 0 := rfl
  have position : (s.setBase p base).handler 0 = s.handler 0 := by
    unfold Machine.handler
    rw [kept]
    cases s.cur 0 with
    | none => rfl
    | some q => exact same q
  simp only [core, position, same, kept]
  rfl

theorem core_setThread_none (p : Slot) (base : Base) (idle : s.cur 0 = some p → s.handler 0 = none) :
    core (s.setThread p ⟨none, base⟩) =
      { core s with parked := Function.update (core s).parked p none } := by
  have position : (s.setThread p ⟨none, base⟩).handler 0 = s.handler 0 := by
    unfold Machine.handler at idle ⊢
    cases current : s.cur 0 with
    | none => simp [Machine.setThread, current]
    | some q =>
        by_cases same : q = p
        · subst same
          simp only [current] at idle
          simp [Machine.setThread, current, idle]
        · simp [Machine.setThread, current, same]
  simp only [core, Core.mk.injEq, position, true_and]
  refine ⟨rfl, rfl, rfl, rfl, rfl, ?_⟩
  funext q
  by_cases same : q = p <;> simp [Machine.setThread, same]

theorem core_swtch {p : Slot} {i : Nat} (ie : Bool) (current : s.cur 0 = some p)
    (away : (s.sched 0).pc = .away p i) :
    core (s.swtch .mlfq 0 ie) = { core s with
      cur := none
      pc := .stale p
      handler := none
      parked := Function.update (core s).parked p (s.thread p).handler } := by
  simp only [core, Machine.swtch, away, Machine.handler, Function.update_self, Core.mk.injEq, true_and]
  funext q
  by_cases same : q = p
  · simp [same]
  · simp [same, current, Ne.symm same]

theorem core_swtch_idle (ie : Bool) (current : s.cur 0 = none) (idle : runs (s.sched 0).pc = none) :
    core (s.swtch .mlfq 0 ie) = { core s with handler := none } := by
  rw [swtch_idle s .mlfq ie idle]
  simp [core, Machine.setSched, Machine.handler, current]

theorem core_dispatch (p : Slot) (current : s.cur 0 = none) :
    ∃ handler, (handler = none ∨ handler = (core s).parked p) ∧
      core (s.dispatch 0 p 0) = { core s with
        proc := Function.update s.proc p { s.proc p with state := .running, chan := none }
        cur := some p
        cproc := some p
        pc := .away p 0
        handler := handler
        parked := Function.update (core s).parked p none } := by
  refine ⟨(s.dispatch 0 p 0).handler 0, ?_, ?_⟩
  · simp only [Machine.handler, Machine.dispatch, Function.update_self, core, current]
    split
    · exact .inl rfl
    · exact .inr rfl
  · simp only [core, Machine.dispatch, Function.update_self, Core.mk.injEq, true_and, current]
    funext q
    by_cases same : q = p
    · simp [same]
    · simp [same, Ne.symm same]

end View

/-- An allocated slot keeps its queue record. -/
theorem allocproc_mlfqData {build : Build} {pid : CInt} {ticks : Uint} {page : Option Trapframe}
    {table : Option Uint64} {p child after : Proc}
    (done : allocproc build pid ticks page table p = (some child, after)) :
    child.mlfqData = p.mlfqData := by
  cases page with
  | none => simp [allocproc] at done
  | some page =>
      cases table with
      | none => simp [allocproc] at done
      | some table =>
          simp only [allocproc, Prod.mk.injEq, Option.some.injEq] at done
          rw [← done.1]

theorem forkFailed_mlfqData (pid : CInt) (ticks : Uint) (page : Option Trapframe)
    (table : Option Uint64) (p : Proc) :
    (forkFailed .mlfq pid ticks page table p).mlfqData = .zero := by
  cases page <;> cases table <;> rfl

section Step

variable {s t : Machine 1} {event : CpuEvent 1}

theorem deed_handler {pc : HandlerPc} (position : s.handler 0 = some pc) :
    deed s (.step 0) = handlerDeed s pc := by
  simp only [deed, position]

theorem deed_sched (idle : s.handler 0 = none) (current : s.cur 0 = none) :
    deed s (.step 0) = schedDeed s (s.sched 0).pc := by
  simp only [deed, idle, current]

/-- A section of a handler that writes nothing is quiet. -/
theorem deed_turn {pc : HandlerPc} {handler : Option HandlerPc}
    (turned : Turn .mlfq (s.cproc 0) s.proc pc handler) : handlerDeed s pc = .quiet := by
  have ended {i : Nat} (past : nproc ≤ i) : slotAt i = none := by
    simp [slotAt, Nat.not_lt.mpr past]
  cases turned with
  | updateDone trap i past
  | agingSlice trap timer i p past
  | agingLeave trap timer i past => simp [handlerDeed, ended past]
  | sliceKeep trap timer p kept => simp only [handlerDeed, if_neg kept]
  | _ => rfl

theorem coreStep_visit {pc after : HandlerPc} {j : Slot} {body : Proc → Proc}
    (position : s.handler 0 = some pc) (visited : Visit .mlfq (s.cproc 0) s.ticks pc j body after) :
    CoreStep (core s) (handlerDeed s pc)
      (core ((s.setProc j (body (s.proc j))).setHandler 0 (some after))) := by
  rw [core_setHandler, core_setProc]
  cases visited with
  | call chan j other => exact .wakeCall chan j position other
  | update trap j =>
      have charged : handlerDeed s (.update trap j.val) = chargeDeed j (s.proc j) := by
        simp [handlerDeed]
      rw [charged]
      exact .charge trap j position
  | wakeup trap timer chan rest j other => exact .wake trap timer chan rest j position other
  | aging trap timer j =>
      have aged : handlerDeed s (.aging trap timer j.val) = agingDeed s.ticks j (s.proc j) := by
        simp [handlerDeed]
      rw [aged]
      exact .age trap timer j position

/-- A process that leaves the CPU parks its handler. -/
theorem coreStep_leave {p : Slot} {u : Machine 1} {record : Proc} {handler : Option HandlerPc}
    {parked : Slot → Option HandlerPc} {ie : Bool} (wired : Wired .mlfq s) (current : s.cur 0 = some p)
    (leaves : Leaves (core s) p record (u.thread p).handler)
    (view : core u = { core s with
      proc := Function.update s.proc p record
      handler := handler
      parked := parked })
    (others : ∀ q, q ≠ p → parked q = (core s).parked q) :
    CoreStep (core s) .quiet (core (u.swtch .mlfq 0 ie)) := by
  have cur : u.cur 0 = some p := (congrArg Core.cur view).trans current
  have pc : (u.sched 0).pc = (s.sched 0).pc := congrArg Core.pc view
  have waits : runs (u.sched 0).pc = some p := by
    rw [pc]
    exact (wired.seated.runs 0).trans current
  obtain ⟨i, away⟩ : ∃ i, (u.sched 0).pc = .away p i := by
    cases position : (u.sched 0).pc with
    | away q i => exact ⟨i, by simpa [position, runs] using waits⟩
    | _ => simp [position, runs] at waits
  have kept (after : Option HandlerPc) :
      Function.update parked p after = Function.update (core s).parked p after := by
    funext q
    by_cases same : q = p
    · simp [same]
    · simp [same, others q same]
  rw [core_swtch u ie cur away, view]
  simp only [kept]
  exact .leave p record _ current leaves

/-- A `yield` on the scheduler's thread overwrites the context of the process that `c->proc` names. -/
theorem coreStep_stray {p : Slot} {trap : Trap} {after : AfterYield} (wired : Wired .mlfq s)
    (position : s.handler 0 = some (.yield trap after)) (names : s.cproc 0 = some p)
    (current : s.cur 0 = none) :
    CoreStep (core s) .quiet (core (((s.setProc p { s.proc p with state := .runnable }).setThread p
      ⟨none, .lost⟩).swtch .mlfq 0 false)) := by
  generalize written : (s.setProc p { s.proc p with state := .runnable }).setThread p ⟨none, .lost⟩ = u
  have view : core u = { core s with
      proc := Function.update s.proc p { s.proc p with state := .runnable }
      parked := Function.update (core s).parked p none } := by
    rw [← written, core_setThread_none, core_setProc]
    exact fun busy => (nomatch current.symm.trans busy)
  have idle : runs (u.sched 0).pc = none := by
    rw [show (u.sched 0).pc = (s.sched 0).pc from congrArg Core.pc view]
    exact (wired.seated.runs 0).trans current
  rw [core_swtch_idle u false ((congrArg Core.cur view).trans current) idle, view]
  exact .stray p trap after position current names

/-- A section of the scheduler that writes no record. -/
theorem coreStep_sched {pc : SchedPc} {named : Option Slot} (idle : s.handler 0 = none)
    (current : s.cur 0 = none) (sched : Sched (core s) pc named)
    (view : core t = { core s with pc := pc, cproc := named }) :
    CoreStep (core s) (deed s (.step 0)) (core t) := by
  have quiet : schedDeed s (s.sched 0).pc = .quiet := by
    have position : (core s).pc = (s.sched 0).pc := rfl
    cases sched with
    | done i first here past =>
        rw [← position, here]
        simp [schedDeed, slotAt, Nat.not_lt.mpr past]
    | top here | stale _ here | choose _ here | empty here =>
        rw [← position, here]
        rfl
  rw [deed_sched idle current, quiet, view]
  exact .sched pc named idle current sched

theorem coreStep_pass {pc : SchedPc} (idle : s.handler 0 = none) (current : s.cur 0 = none)
    (passed : Pass .mlfq s (s.sched 0).pc pc) :
    CoreStep (core s) (deed s (.step 0)) (core (s.goto 0 pc)) := by
  generalize position : (s.sched 0).pc = before at passed
  cases passed with
  | mlfqDone i first _ past =>
      exact coreStep_sched idle current (.done i first position past) (core_goto s .choose)
  | rr _ _ only | rrDone _ _ only | fcfsHold _ _ only | fcfs _ _ only | fcfsDone _ only =>
      exact (nomatch only)

theorem coreStep_clear {pc : SchedPc} (idle : s.handler 0 = none) (current : s.cur 0 = none)
    (cleared : Clear .mlfq s.proc (s.sched 0).pc pc) :
    CoreStep (core s) (deed s (.step 0))
      (core ({ s with cproc := Function.update s.cproc 0 none }.goto 0 pc)) := by
  have view : core ({ s with cproc := Function.update s.cproc 0 none }.goto 0 pc) =
      { core s with pc := pc, cproc := none } := by
    rw [core_goto]
    rfl
  generalize position : (s.sched 0).pc = before at cleared
  cases cleared with
  | stale p => exact coreStep_sched idle current (.stale p position) view
  | choose p _ chosen => exact coreStep_sched idle current (.choose p position chosen) view
  | empty _ chosen => exact coreStep_sched idle current (.empty position chosen) view

theorem coreStep_run {p : Slot} {i : Nat} (idle : s.handler 0 = none) (current : s.cur 0 = none)
    (chosen : Runs .mlfq s (s.sched 0).pc p i) :
    CoreStep (core s) (deed s (.step 0)) (core (s.dispatch 0 p i)) := by
  rw [deed_sched idle current]
  generalize position : (s.sched 0).pc = before at chosen
  cases chosen with
  | mlfq =>
      obtain ⟨handler, parked, view⟩ := core_dispatch s p current
      rw [view]
      exact .run p handler idle current position parked
  | rr _ _ only | fcfs _ _ only => exact (nomatch only)

/-- Every step of the machine on one CPU is a step of its core. -/
theorem core_next (wired : Wired .mlfq s) (stepped : s.Step .mlfq event t) :
    CoreStep (core s) (deed s event) (core t) := by
  have first (c : Fin 1) : c = 0 := Subsingleton.elim c 0
  cases move_next stepped with
  | interrupt c device trap taken =>
      obtain rfl := first c
      rw [core_setHandler]
      exact .walk _ (.interrupt trap device (handler_of_trapNow taken))
  | turn c pc handler position turned =>
      obtain rfl := first c
      rw [core_setHandler, deed_handler position, deed_turn turned]
      exact .walk _ (.turn pc handler position turned)
  | tick c trap position =>
      obtain rfl := first c
      rw [core_setHandler, deed_handler position]
      exact .tick trap position
  | visit c pc after j body position visited =>
      obtain rfl := first c
      rw [deed_handler position]
      exact coreStep_visit position visited
  | demote c trap p position used =>
      obtain rfl := first c
      rw [core_setHandler, core_setProc, deed_handler position]
      simp only [handlerDeed, used, and_self, if_true]
      exact .demote trap p position used
  | yield c p q trap after position names current =>
      obtain rfl := first c
      obtain rfl : q = p := Option.some.inj ((wired.seated.named 0 q current).symm.trans names)
      rw [deed_handler position]
      refine coreStep_leave wired current ?_ (core_setHandler _ _) fun _ _ => rfl
      simp only [Machine.setHandler, Machine.setProc, current, Machine.setThread, Function.update_self]
      exact .yield trap after position
  | stray c p trap after position names current =>
      obtain rfl := first c
      rw [deed_handler position]
      exact coreStep_stray wired position names current
  | dying c p timer position current =>
      obtain rfl := first c
      have view : core (s.setThread p ⟨none, .kern ⟨false, true⟩⟩) =
          { core s with handler := none } := by
        rw [← core_setBase _ p (s.thread p).base, ← core_setHandler]
        simp [Machine.setHandler, current, Machine.setBase, Machine.setThread]
      rw [deed_handler position, view]
      exact .walk none (.dying timer position)
  | top c idle current position =>
      obtain rfl := first c
      refine coreStep_sched idle current (.top position) ?_
      simp only [Machine.handler, current] at idle
      simp [core, Machine.setSched, Machine.handler, current, idle]
  | pass c pc idle current passed =>
      obtain rfl := first c
      exact coreStep_pass idle current passed
  | clear c pc idle current cleared =>
      obtain rfl := first c
      exact coreStep_clear idle current cleared
  | scan c j first' _ idle current position =>
      obtain rfl := first c
      have scanned : schedDeed s (.scan j.val first') = scanDeed s.ticks j (s.proc j) := by
        simp [schedDeed]
      rw [deed_sched idle current, position, scanned, core_goto, core_setProc]
      exact .scan j first' idle current position
  | run c p i idle current chosen =>
      obtain rfl := first c
      exact coreStep_run idle current chosen
  | goes c p base idle current gone =>
      obtain rfl := first c
      have quiet : deed s (.step 0) = .quiet := by
        simp only [deed, idle, current]
        generalize (s.thread p).base = before at gone
        cases gone <;> rfl
      rw [quiet, core_setBase]
      exact .rest idle
  | calls c p call base idle current =>
      obtain rfl := first c
      rw [core_setBase]
      exact .rest idle
  | kill c p j mode idle current position =>
      obtain rfl := first c
      have quiet : deed s (.step 0) = .quiet := by simp only [deed, idle, current, position]
      rw [quiet, core_setBase, core_setProc]
      exact .kill j idle (by simp [core, current])
  | ready c p np mode idle current position =>
      obtain rfl := first c
      have pushed : deed s (.step 0) = .push .fork np 0 := by simp only [deed, idle, current, position]
      rw [pushed, core_setBase, core_setProc]
      exact .ready p np idle current
  | sleep c p mode chan idle current =>
      obtain rfl := first c
      refine coreStep_leave wired current ?_ (core_setProc s p _) fun _ _ => rfl
      have resting : (s.thread p).handler = none := by simpa [Machine.handler, current] using idle
      simp only [Machine.setProc, resting]
      exact .sleep chan idle
  | exit c p mode status idle current =>
      obtain rfl := first c
      refine coreStep_leave wired current ?_ (core_setThread_none _ p .dead fun _ => idle) ?_
      · simp only [Machine.setThread, Function.update_self]
        exact .exit status idle
      · intro q other
        simp [other]
  | wakeup c p mode chan idle =>
      obtain rfl := first c
      rw [core_setHandler]
      exact .walk _ (.wakeup chan idle)
  | fork c p np mode memory child after idle current _ unused _ allocated =>
      obtain rfl := first c
      rw [core_setBase, core_setThread_none]
      · have kept : child.mlfqData = (s.proc np).mlfqData := allocproc_mlfqData allocated
        exact .fork np _ idle (by simp [core, current]) unused (allocproc_state allocated).1 kept
      · exact fun _ => idle
  | forkFailed c p np memory idle current unused =>
      obtain rfl := first c
      rw [core_setProc]
      refine .free np _ idle (by simp [core, current]) (by simp [core, unused]) ?_ ?_
      · exact (forkFailed_free ..).1
      · exact forkFailed_mlfqData ..
  | wait c p child idle current exited =>
      obtain rfl := first c
      rw [core_setProc]
      exact .free child _ idle (by simp [core, current]) (by simp [core, exited]) rfl rfl

end Step

/-- The positions at which a thread goes on after a `yield`. -/
def rests : HandlerPc → Bool
  | .flag _ _ | .killed true | .leave _ true => true
  | _ => false

/-- What the feedback scheduler keeps on one CPU. A process that runs is the current one, and a process
that the scheduler has chosen waits in its queue. -/
structure Solo (k : Core) : Prop where
  named : ∀ p, k.cur = some p → k.cproc = some p
  stale : ∀ p, k.cur = none → k.cproc = some p → k.pc = .stale p
  running : ∀ q, (k.proc q).state = .running → k.cur = some q ∧ (k.proc q).mlfqData.inQueue = true
  chosen : ∀ p, k.cur = none → k.pc = .lockNext p →
    (k.proc p).state = .runnable ∧ (k.proc p).mlfqData.inQueue = true
  subject : ∀ trap timer p, k.handler = some (.slice trap timer p) → k.cproc = some p
  parked : ∀ p, (k.parked p).all rests = true

section Solo

variable {k l : Core} {act : Deed}

theorem rests_pc (trap : Trap) (after : AfterYield) : rests (after.pc trap) = true := by
  cases after <;> rfl

/-- A property of every record after a write follows from the written record and the others. -/
theorem forall_update {proc : Slot → Proc} {P : Slot → Proc → Prop} {j : Slot} {record : Proc}
    (here : P j record) (others : ∀ q, q ≠ j → P q (proc q)) (q : Slot) :
    P q (Function.update proc j record q) := by
  by_cases same : q = j
  · subst same
    rwa [Function.update_self]
  · rw [Function.update_of_ne same]
    exact others q same

theorem Solo.named_next (solo : Solo k) (stepped : CoreStep k act l) (p : Slot)
    (runs : l.cur = some p) : l.cproc = some p := by
  have before := solo.named p
  cases stepped <;> grind

theorem Solo.stale_next (solo : Solo k) (stepped : CoreStep k act l) (p : Slot) (idle : l.cur = none)
    (names : l.cproc = some p) : l.pc = .stale p := by
  have before := solo.stale p
  have owner := solo.named
  cases stepped with
  | sched pc named free current moved => cases moved <;> grind
  | _ => grind

theorem Solo.parked_next (solo : Solo k) (stepped : CoreStep k act l) (p : Slot) :
    (l.parked p).all rests = true := by
  have before := solo.parked p
  cases stepped with
  | leave q record after current leaves =>
      by_cases same : p = q
      · subst same
        cases leaves <;> simp [rests_pc]
      · simpa [same] using before
  | stray q | run q | fork q =>
      by_cases same : p = q <;> simp [same, before]
  | _ => exact before

theorem subject_walk {handler : Option HandlerPc} {trap : Trap} {timer : Bool} {p : Slot}
    (walked : Walk k handler) (about : handler = some (.slice trap timer p)) : k.cproc = some p := by
  cases walked with
  | interrupt _ device =>
      cases device with
      | timer => exact (nomatch about)
      | other chans => cases chans <;> exact (nomatch about)
  | turn pc _ position turned =>
      cases turned with
      | agingSlice _ _ _ q _ names => grind
      | wakeupDone _ _ _ rest => cases rest <;> exact (nomatch about)
      | flagDone trap => cases trap <;> exact (nomatch about)
      | _ => exact (nomatch about)
  | _ => exact (nomatch about)

theorem Solo.subject_next (solo : Solo k) (stepped : CoreStep k act l) (trap : Trap) (timer : Bool)
    (p : Slot) (about : l.handler = some (.slice trap timer p)) : l.cproc = some p := by
  have before := solo.subject trap timer p
  cases stepped with
  | walk handler walked => exact subject_walk (k := k) walked about
  | run q handler _ _ _ resumed =>
      have resting := solo.parked q
      rcases resumed with rfl | rfl
      · exact (nomatch about)
      · have here : k.parked q = some (.slice trap timer p) := about
        simp [here, rests] at resting
  | _ => grind

/-- A running process is the current one and is in its queue. -/
def RunsHere (cur : Option Slot) (q : Slot) (p : Proc) : Prop :=
  p.state = .running → cur = some q ∧ p.mlfqData.inQueue = true

theorem Solo.running_next (solo : Solo k) (stepped : CoreStep k act l) (q : Slot) :
    RunsHere l.cur q (l.proc q) := by
  have before : ∀ r, RunsHere k.cur r (k.proc r) := solo.running
  have write {j : Slot} {record : Proc} (here : RunsHere k.cur j record) :
      RunsHere k.cur q (Function.update k.proc j record q) :=
    forall_update here (fun r _ => before r) q
  cases stepped with
  | rest | walk | tick | sched => exact before q
  | charge trap j | wakeCall chan j | wake _ _ chan _ j | kill j => exact write (by simpa [RunsHere] using before j)
  | age trap timer j =>
      refine write fun runs => ?_
      rw [aging_state] at runs
      rw [aging_of_not_due (agingDue_of_state (by simp [runs]))]
      exact before j runs
  | demote trap p => exact write fun runs => ⟨(before p runs).1, rfl⟩
  | leave p record after current leaves =>
      refine forall_update (by cases leaves <;> exact (nomatch ·)) (fun r other runs => ?_) q
      exact absurd (Option.some.inj ((before r runs).1.symm.trans current)) other
  | stray p => exact write (nomatch ·)
  | scan j first idle current =>
      refine write fun runs => ?_
      rw [scanSlot_state] at runs
      exact (nomatch current.symm.trans (before j runs).1)
  | run p handler idle current locks =>
      refine forall_update (fun _ => ⟨rfl, (solo.chosen p current locks).2⟩) (fun r _ runs => ?_) q
      exact (nomatch current.symm.trans (before r runs).1)
  | ready p np => exact write fun runs => by simp at runs
  | fork np record idle busy unused used => exact write fun runs => (nomatch used.symm.trans runs)
  | free np record idle busy resting unused => exact write fun runs => (nomatch unused.symm.trans runs)

/-- A process that the scheduler has chosen waits in its queue. -/
def Waits (p : Proc) : Prop := p.state = .runnable ∧ p.mlfqData.inQueue = true

theorem Waits.wakeupSlot {p : Proc} (waits : Waits p) (chan : Chan) : Waits (wakeupSlot chan p) := by
  unfold Xv6.wakeupSlot
  rwa [if_neg (by simp [waits.1])]

theorem Waits.aging {p : Proc} (waits : Waits p) (ticks : Uint) : Waits (aging ticks p) := by
  refine ⟨by simp [waits.1], ?_⟩
  unfold Xv6.aging
  split_ifs
  · rfl
  · exact waits.2

theorem Solo.chosen_next (solo : Solo k) (stepped : CoreStep k act l) (p : Slot) (idle : l.cur = none)
    (locks : l.pc = .lockNext p) : Waits (l.proc p) := by
  have before (idle : k.cur = none) (locks : k.pc = .lockNext p) : Waits (k.proc p) :=
    solo.chosen p idle locks
  have write {j : Slot} {record : Proc} (waits : Waits (k.proc p)) (here : p = j → Waits record) :
      Waits (Function.update k.proc j record p) := by
    by_cases same : p = j
    · subst same
      rw [Function.update_self]
      exact here rfl
    · rwa [Function.update_of_ne same]
  cases stepped with
  | rest | walk | tick => exact before idle locks
  | charge trap j =>
      refine write (before idle locks) fun same => ?_
      subst same
      simpa [Waits] using before idle locks
  | wakeCall chan j | wake _ _ chan _ j =>
      refine write (before idle locks) fun same => ?_
      subst same
      exact (before idle locks).wakeupSlot chan
  | age trap timer j =>
      refine write (before idle locks) fun same => ?_
      subst same
      exact (before idle locks).aging k.ticks
  | demote trap r position =>
      have named := solo.stale r idle (solo.subject _ _ r position)
      exact (nomatch named.symm.trans locks)
  | stray r trap after position current names =>
      exact (nomatch (solo.stale r current names).symm.trans locks)
  | sched pc named free current moved =>
      cases moved with
      | choose r position chosen =>
          obtain rfl : r = p := SchedPc.lockNext.inj locks
          exact chooseNext_waits chosen
      | _ => exact (nomatch locks)
  | kill j _ busy | fork j _ _ busy | free j _ _ busy => exact absurd idle busy
  | ready r np free current => exact (nomatch idle.symm.trans current)
  | leave | scan => exact (nomatch locks)
  | run => exact (nomatch idle)

/-- A step of the CPU keeps the invariant. -/
theorem solo_step (solo : Solo k) (stepped : CoreStep k act l) : Solo l where
  named := solo.named_next stepped
  stale := solo.stale_next stepped
  running := solo.running_next stepped
  chosen := solo.chosen_next stepped
  subject := solo.subject_next stepped
  parked := solo.parked_next stepped

theorem solo_boot (table cwd : Uint64) : Solo (core (Machine.boot .mlfq 1 table cwd)) where
  named := nofun
  stale := nofun
  running := fun q runs => by
    by_cases first : q = 0
    · subst first
      exact (nomatch runs)
    · simp [core, Machine.boot, bootTable, first, Proc.zero] at runs
  chosen := nofun
  subject := nofun
  parked := fun _ => rfl

end Solo

end Xv6.Cpu
