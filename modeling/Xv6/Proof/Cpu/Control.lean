/-
This file says what one step of a CPU does to the code that runs with interrupts off, on that CPU and
on the others.
-/

import Xv6.Proof.Cpu.Invariant

namespace Xv6.Cpu

variable {n : Nat}

/-- The handler of each thread, the thread that each CPU executes, and each CPU's `c->proc`. -/
structure Control (n : Nat) where
  idle : Fin n → Option HandlerPc
  hand : Slot → Option HandlerPc
  cur : Fin n → Option Slot
  cproc : Fin n → Option Slot

/-- The handler that runs on a CPU. -/
def Control.handler (k : Control n) (c : Fin n) : Option HandlerPc :=
  match k.cur c with
  | none => k.idle c
  | some p => k.hand p

/-- The order of the sections. The feedback scheduler reads `c->proc` after its aging loop. -/
inductive Flow (build : Build) (first : Bool) (named : Option Slot) :
    Option HandlerPc → Option HandlerPc → Prop where
  | idle : Flow build first named none none
  | interrupt (trap : Trap) (device : Device) :
      Flow build first named none (some (.devintr trap first device))
  | call (chan : Chan) : Flow build first named none (some (.wakeupCall chan 0))
  | callNext (chan : Chan) (i : Nat) :
      Flow build first named (some (.wakeupCall chan i)) (some (.wakeupCall chan (i + 1)))
  | callDone (chan : Chan) (i : Nat) : Flow build first named (some (.wakeupCall chan i)) none
  | clock (trap : Trap) : Flow build first named (some (.clock trap)) (some (.update trap 0))
  | updateNext (trap : Trap) (i : Nat) :
      Flow build first named (some (.update trap i)) (some (.update trap (i + 1)))
  | updateDone (trap : Trap) (i : Nat) :
      Flow build first named (some (.update trap i)) (some (.wakeup trap true .ticks [] 0))
  | wakeupNext (trap : Trap) (timer : Bool) (chan : Chan) (rest : List Chan) (i : Nat) :
      Flow build first named (some (.wakeup trap timer chan rest i))
        (some (.wakeup trap timer chan rest (i + 1)))
  | wakeupDone (trap : Trap) (timer : Bool) (chan : Chan) (rest : List Chan) (i : Nat) :
      Flow build first named (some (.wakeup trap timer chan rest i)) (some (.wakeRest trap timer rest))
  | devKilled (timer : Bool) :
      (build = .mlfq → timer = false) →
      Flow build first named (some (.devDone .user timer)) (some (.killed timer))
  | devYield (trap : Trap) (timer : Bool) :
      Flow build first named (some (.devDone trap timer)) (some (.yield trap (.afterFlag trap)))
  | devLeave (timer : Bool) :
      Flow build first named (some (.devDone .kernel timer)) (some (.leave .kernel timer))
  | devAging (trap : Trap) (timer : Bool) :
      Flow build first named (some (.devDone trap timer)) (some (.aging trap timer 0))
  | agingNext (trap : Trap) (timer : Bool) (i : Nat) :
      Flow build first named (some (.aging trap timer i)) (some (.aging trap timer (i + 1)))
  | agingSlice (trap : Trap) (timer : Bool) (i : Nat) (p : Slot) :
      named = some p →
      Flow build first named (some (.aging trap timer i)) (some (.slice trap timer p))
  | agingLeave (trap : Trap) (timer : Bool) (i : Nat) :
      named = none →
      Flow build first named (some (.aging trap timer i)) (some (.leave trap timer))
  | sliceYield (trap : Trap) (timer : Bool) (p : Slot) :
      Flow build first named (some (.slice trap timer p)) (some (.yield trap (.flag p)))
  | sliceFlag (trap : Trap) (timer : Bool) (p : Slot) :
      Flow build first named (some (.slice trap timer p)) (some (.flag trap p))
  | flagYield (trap : Trap) (p : Slot) :
      Flow build first named (some (.flag trap p)) (some (.yield trap (.afterFlag trap)))
  | flagDone (trap : Trap) (p : Slot) :
      Flow build first named (some (.flag trap p)) (some ((AfterYield.afterFlag trap).pc trap))
  | killedYield (timer : Bool) :
      Flow build first named (some (.killed timer)) (some (.yield .user .leave))
  | killedLeave (timer : Bool) :
      Flow build first named (some (.killed timer)) (some (.leave .user timer))
  | killedExit (timer : Bool) : Flow build first named (some (.killed timer)) none
  | leave (trap : Trap) (timer : Bool) : Flow build first named (some (.leave trap timer)) none

/-- The position at which a thread that leaves its CPU goes on. -/
inductive Resumes : Option HandlerPc → Option HandlerPc → Prop where
  | call : Resumes none none
  | yield (trap : Trap) (after : AfterYield) :
      Resumes (some (.yield trap after)) (some (after.pc trap))

def control (s : Machine n) : Control n where
  idle := fun c => (s.sched c).handler
  hand := fun p => (s.thread p).handler
  cur := s.cur
  cproc := s.cproc

/-- One step of a CPU. -/
inductive Shift (build : Build) (k : Control n) (c : Fin n) : Control n → Prop where
  | keep : k.handler c = none → Shift build k c k
  | idle (handler : Option HandlerPc) :
      k.cur c = none → Flow build (c.val == 0) (k.cproc c) (k.handler c) handler →
      Shift build k c { k with idle := Function.update k.idle c handler }
  | hand (p : Slot) (handler : Option HandlerPc) :
      k.cur c = some p → Flow build (c.val == 0) (k.cproc c) (k.handler c) handler →
      Shift build k c { k with hand := Function.update k.hand p handler }
  | clear : k.handler c = none → Shift build k c { k with cproc := Function.update k.cproc c none }
  | run (p : Slot) (handler : Option HandlerPc) :
      k.cur c = none → (handler = none ∨ handler = k.hand p) →
      Shift build k c { k with
        idle := Function.update k.idle c none
        hand := Function.update k.hand p handler
        cur := Function.update k.cur c (some p)
        cproc := Function.update k.cproc c (some p) }
  | leave (p : Slot) (handler : Option HandlerPc) (named : Option Slot) :
      k.cur c = some p → Resumes (k.handler c) handler →
      Shift build k c { k with
        idle := Function.update k.idle c none
        hand := Function.update k.hand p handler
        cur := Function.update k.cur c none
        cproc := Function.update k.cproc c named }
  | stray (p : Slot) :
      k.cur c = none →
      Shift build k c { k with
        idle := Function.update k.idle c none
        hand := Function.update k.hand p none }
  | fork (np : Slot) : k.handler c = none →
      Shift build k c { k with hand := Function.update k.hand np none }

section View

variable (s : Machine n)

@[simp] theorem control_handler (c : Fin n) : (control s).handler c = s.handler c := rfl

@[simp] theorem control_setProc (p : Slot) (record : Proc) :
    control (s.setProc p record) = control s := rfl

theorem control_setThread (p : Slot) (thread : ProcThread) :
    control (s.setThread p thread) = { control s with
      hand := Function.update (control s).hand p thread.handler } := by
  simp only [control, Machine.setThread, Control.mk.injEq, and_true, true_and]
  funext q
  by_cases same : q = p <;> simp [same]

theorem control_setSched (c : Fin n) (thread : SchedThread) :
    control (s.setSched c thread) = { control s with
      idle := Function.update (control s).idle c thread.handler } := by
  simp only [control, Machine.setSched, Control.mk.injEq, and_true]
  funext d
  by_cases same : d = c <;> simp [same]

@[simp] theorem control_setBase (p : Slot) (base : Base) : control (s.setBase p base) = control s := by
  rw [Machine.setBase, control_setThread]
  simp [control, Function.update_eq_self]

@[simp] theorem control_goto (c : Fin n) (pc : SchedPc) : control (s.goto c pc) = control s := by
  rw [Machine.goto, control_setSched]
  simp [control, Function.update_eq_self]

@[simp] theorem handler_setHandler (c : Fin n) (handler : Option HandlerPc) :
    (s.setHandler c handler).handler c = handler := by
  unfold Machine.setHandler Machine.handler
  cases current : s.cur c with
  | none => simp [Machine.setSched, current]
  | some p => simp [Machine.setThread, current]

theorem control_dispatch (c : Fin n) (p : Slot) (i : Nat) :
    ∃ handler, (handler = none ∨ handler = (s.thread p).handler) ∧
      control (s.dispatch c p i) = { control s with
        idle := Function.update (control s).idle c none
        hand := Function.update (control s).hand p handler
        cur := Function.update s.cur c (some p)
        cproc := Function.update s.cproc c (some p) } := by
  cases base : (s.thread p).base with
  | forkret =>
      refine ⟨none, .inl rfl, ?_⟩
      simp only [control, Machine.dispatch, base, Control.mk.injEq, and_true]
      refine ⟨?_, ?_⟩ <;> funext x <;> simp only [Function.update_apply] <;> split_ifs <;> rfl
  | _ =>
      refine ⟨(s.thread p).handler, .inr rfl, ?_⟩
      simp only [control, Machine.dispatch, base, Control.mk.injEq, and_true]
      refine ⟨?_, ?_⟩ <;> funext x <;> simp only [Function.update_apply] <;> split_ifs <;> rfl

/-- A switch to the scheduler leaves no handler on it. -/
theorem control_swtch (build : Build) {c : Fin n} {p : Slot} (ie : Bool)
    (away : runs (s.sched c).pc = some p) :
    ∃ named, control (s.swtch build c ie) = { control s with
      idle := Function.update (control s).idle c none
      cur := Function.update s.cur c none
      cproc := Function.update s.cproc c named } := by
  cases position : (s.sched c).pc with
  | away q i =>
      refine ⟨if build = .rr then none else s.cproc c, ?_⟩
      cases build <;> simp only [control, Machine.swtch, position, Control.mk.injEq, and_true,
        reduceIte, reduceCtorEq, Function.update_eq_self] <;> funext d <;>
        simp only [Function.update_apply] <;> split_ifs <;> rfl
  | _ => simp [position, runs] at away

theorem control_swtch_idle (build : Build) {c : Fin n} (ie : Bool)
    (idle : runs (s.sched c).pc = none) : control (s.swtch build c ie) = { control s with
      idle := Function.update (control s).idle c none } := by
  rw [swtch_idle s build ie idle, control_setSched]

end View

section Step

variable {build : Build} {s t u : Machine n} {c : Fin n}

/-- An interrupt is taken only when no handler runs. -/
theorem handler_of_trapNow {trap : Trap} (taken : s.trapNow c = some trap) : s.handler c = none := by
  unfold Machine.trapNow at taken
  unfold Machine.handler
  cases current : s.cur c with
  | none =>
      cases busy : (s.sched c).handler with
      | none => rfl
      | some pc => simp [current, busy] at taken
  | some p =>
      cases busy : (s.thread p).handler with
      | none => exact busy
      | some pc => simp [current, busy] at taken

/-- A call or a section of a scheduler that keeps the control. -/
theorem shift_same (idle : s.handler c = none) (same : control t = control s) :
    Shift build (control s) c (control t) := by
  rw [same]
  exact .keep idle

/-- A section of a handler that moves to a new position. -/
theorem shift_setHandler {handler : Option HandlerPc} (same : control u = control s)
    (flow : Flow build (c.val == 0) (s.cproc c) (s.handler c) handler) :
    Shift build (control s) c (control (u.setHandler c handler)) := by
  have cur : (control s).cur = u.cur := (congrArg Control.cur same).symm
  unfold Machine.setHandler
  cases current : u.cur c with
  | none =>
      rw [control_setSched, same]
      exact .idle handler ((congrFun cur c).trans current) flow
  | some p =>
      rw [control_setThread, same]
      exact .hand p handler ((congrFun cur c).trans current) flow

/-- A thread that gives up its CPU leaves it to the scheduler. -/
theorem shift_swtch {p : Slot} {handler : Option HandlerPc} (ie : Bool)
    (seated : Seated (board s)) (current : s.cur c = some p)
    (resumes : Resumes (s.handler c) handler)
    (view : control u = { control s with hand := Function.update (control s).hand p handler })
    (same : (u.sched c).pc = (s.sched c).pc) : Shift build (control s) c (control (u.swtch build c ie)) := by
  have away : runs (u.sched c).pc = some p := by
    rw [same]
    exact (seated.runs c).trans current
  obtain ⟨named, swapped⟩ := control_swtch u build ie away
  have cur : u.cur = s.cur := congrArg Control.cur view
  have cproc : u.cproc = s.cproc := congrArg Control.cproc view
  rw [swapped, view, cur, cproc]
  exact .leave p handler named current resumes

theorem flow_turn {first : Bool} {named : Option Slot} {proc : Slot → Proc} {pc : HandlerPc}
    {handler : Option HandlerPc} (turned : Turn build named proc pc handler) :
    Flow build first named (some pc) handler := by
  cases turned with
  | callSkip chan j => exact .callNext chan j.val
  | callDone chan i => exact .callDone chan i
  | updateDone trap i => exact .updateDone trap i
  | wakeupSkip trap timer chan rest j => exact .wakeupNext trap timer chan rest j.val
  | wakeupDone trap timer chan rest i => exact .wakeupDone trap timer chan rest i
  | devKilled timer only => exact .devKilled timer fun same => only.resolve_left (same ▸ nofun)
  | devYield trap => exact .devYield trap true
  | devLeave timer => exact .devLeave timer
  | devAging trap timer => exact .devAging trap timer
  | agingSlice trap timer i p ended names => exact .agingSlice trap timer i p names
  | agingLeave trap timer i ended names => exact .agingLeave trap timer i names
  | sliceKeep trap timer p => exact .sliceFlag trap timer p
  | flagYield trap p => exact .flagYield trap p
  | flagDone trap p => exact .flagDone trap p
  | killedYield => exact .killedYield true
  | killedLeave timer => exact .killedLeave timer
  | leave trap timer => exact .leave trap timer

theorem flow_visit {first : Bool} {named : Option Slot} {ticks : Uint} {pc after : HandlerPc} {j : Slot}
    {body : Proc → Proc} (visited : Visit build named ticks pc j body after) :
    Flow build first named (some pc) (some after) := by
  cases visited with
  | call chan => exact .callNext chan j.val
  | update trap => exact .updateNext trap j.val
  | wakeup trap timer chan rest => exact .wakeupNext trap timer chan rest j.val
  | aging trap timer => exact .agingNext trap timer j.val

/-- One step of the machine shifts the control of one CPU. -/
theorem shift_next {event : CpuEvent n} (seated : Seated (board s))
    (stepped : s.Step build event t) : Shift build (control s) event.cpu (control t) := by
  cases move_next stepped with
  | interrupt c device trap taken =>
      have flow : Flow build (c.val == 0) (s.cproc c) (s.handler c) (some (.devintr trap (c.val == 0) device)) :=
        handler_of_trapNow taken ▸ .interrupt trap device
      exact shift_setHandler rfl flow
  | turn c pc handler position turned => exact shift_setHandler rfl (position ▸ flow_turn turned)
  | tick c trap position => exact shift_setHandler rfl (position ▸ .clock trap)
  | visit c pc after j body position visited =>
      exact shift_setHandler rfl (position ▸ flow_visit visited)
  | demote c trap p position => exact shift_setHandler rfl (position ▸ .sliceYield trap true p)
  | yield c p q trap after position names current =>
      have resumes : Resumes (s.handler c) (some (after.pc trap)) := position ▸ .yield trap after
      refine shift_swtch false seated current resumes ?_ ?_
      · simp only [Machine.setHandler, Machine.setProc, current]
        exact control_setThread _ q _
      · simp [Machine.setHandler, Machine.setProc, Machine.setThread, current]
  | stray c p trap after position names current =>
      rw [control_swtch_idle, control_setThread, control_setProc]
      · exact .stray p current
      · exact (seated.runs c).trans current
  | dying c p timer position current =>
      rw [control_setThread]
      have flow : Flow build (c.val == 0) (s.cproc c) (s.handler c) none := position ▸ .killedExit timer
      exact .hand p none current flow
  | top c idle current =>
      rw [control_setSched]
      have flow : Flow build (c.val == 0) (s.cproc c) (s.handler c) none := by
        rw [idle]
        exact .idle
      exact .idle none current flow
  | pass c pc idle => exact shift_same idle (control_goto s c pc)
  | clear c pc idle =>
      rw [control_goto]
      exact .clear idle
  | scan c j first only idle => exact shift_same idle (control_goto _ c _)
  | run c p i idle current =>
      obtain ⟨handler, resumed, view⟩ := control_dispatch s c p i
      exact view ▸ .run p handler current resumed
  | goes c p base idle | calls c p call base idle => exact shift_same idle (control_setBase s p base)
  | kill c p j mode idle | ready c p np mode idle => exact shift_same idle (control_setBase _ p _)
  | sleep c p mode chan idle current =>
      have resumes : Resumes (s.handler c) none := idle ▸ .call
      refine shift_swtch mode.ie seated current resumes ?_ rfl
      have handler : (control s).hand p = none := by
        rw [← idle]
        simp [control, Machine.handler, current]
      rw [control_setProc, ← handler, Function.update_eq_self]
  | exit c p mode status idle current =>
      have resumes : Resumes (s.handler c) none := idle ▸ .call
      exact shift_swtch mode.ie seated current resumes (control_setThread _ p _) rfl
  | wakeup c p mode chan idle => exact shift_setHandler rfl (idle ▸ .call chan)
  | fork c p np mode memory child after idle =>
      rw [control_setBase, control_setThread, control_setProc]
      exact .fork np idle
  | forkFailed c p np memory idle => exact shift_same idle rfl
  | wait c p child idle => exact shift_same idle rfl

/-- A CPU inside a handler takes only steps of its own code. -/
theorem event_of_handler {event : CpuEvent n} {pc : HandlerPc} (position : s.handler event.cpu = some pc)
    (stepped : s.Step build event t) : event = .step event.cpu := by
  unfold Machine.Step Machine.next at stepped
  cases event with
  | step c => rfl
  | interrupt c device =>
      obtain ⟨trap, taken, _⟩ := Option.map_eq_some_iff.mp stepped
      exact (nomatch (handler_of_trapNow taken).symm.trans position)
  | call c call =>
      have busy : s.handler c = some pc := position
      simp [busy] at stepped

end Step

end Xv6.Cpu
