/-
This file shows that each step of the machine of the CPUs is a step of the protocol, and names the
code that the step executes.
-/

import Xv6.Proof.Cpu.Protocol
import Xv6.Proof.Cpu.Move
import Xv6.Proof.Cpu.Queues

namespace Xv6.Cpu

variable {n : Nat}

/-- The child that `fork` has allocated and not yet made runnable. -/
def makes : Base → Option Slot
  | .forking _ np => some np
  | _ => none

/-- The protocol's view of the machine. -/
def board (s : Machine n) : Board n where
  state := fun p => (s.proc p).state
  making := fun p => makes (s.thread p).base
  pc := fun c => (s.sched c).pc
  cur := s.cur
  cproc := s.cproc

section View

variable (s : Machine n)

theorem board_setProc (p : Slot) (record : Proc) :
    board (s.setProc p record) = { board s with
      state := Function.update (board s).state p record.state } := by
  simp only [board, Machine.setProc, Board.mk.injEq, and_true]
  funext i
  by_cases same : i = p <;> simp [same]

/-- A record that keeps its state keeps the view. -/
theorem board_setProc_same (p : Slot) {record : Proc} (same : record.state = (s.proc p).state) :
    board (s.setProc p record) = board s := by
  rw [board_setProc, same]
  simp [board, Function.update_eq_self]

theorem board_setThread (p : Slot) (thread : ProcThread) :
    board (s.setThread p thread) = { board s with
      making := Function.update (board s).making p (makes thread.base) } := by
  simp only [board, Machine.setThread, Board.mk.injEq, and_true, true_and]
  funext i
  by_cases same : i = p <;> simp [same]

theorem board_setBase (p : Slot) (base : Base) :
    board (s.setBase p base) = { board s with
      making := Function.update (board s).making p (makes base) } :=
  board_setThread s p _

/-- A thread that makes no child before and after keeps the view. -/
theorem board_setThread_same (p : Slot) {thread : ProcThread}
    (same : makes thread.base = makes (s.thread p).base) : board (s.setThread p thread) = board s := by
  rw [board_setThread, same]
  simp [board, Function.update_eq_self]

theorem board_setSched (c : Fin n) (thread : SchedThread) :
    board (s.setSched c thread) = { board s with
      pc := Function.update (board s).pc c thread.pc } := by
  simp only [board, Machine.setSched, Board.mk.injEq, and_true, true_and]
  funext i
  by_cases same : i = c <;> simp [same]

theorem board_goto (c : Fin n) (pc : SchedPc) :
    board (s.goto c pc) = { board s with pc := Function.update (board s).pc c pc } :=
  board_setSched s c _

@[simp] theorem board_setHandler (c : Fin n) (handler : Option HandlerPc) :
    board (s.setHandler c handler) = board s := by
  unfold Machine.setHandler
  cases s.cur c with
  | none =>
      rw [board_setSched]
      simp [board, Function.update_eq_self]
  | some p => exact board_setThread_same s p rfl

theorem board_dispatch (c : Fin n) (p : Slot) (i : Nat) :
    board (s.dispatch c p i) = { board s with
      state := Function.update (board s).state p .running
      pc := Function.update (board s).pc c (.away p i)
      cur := Function.update (board s).cur c (some p)
      cproc := Function.update (board s).cproc c (some p) } := by
  simp only [board, Machine.dispatch, Board.mk.injEq, and_true]
  refine ⟨?_, ?_, ?_⟩
  · funext q
    by_cases same : q = p <;> simp [same]
  · funext q
    by_cases same : q = p
    · subst same
      cases base : (s.thread q).base <;> simp [makes, base]
    · simp [same]
  · funext d
    by_cases same : d = c <;> simp [same]

/-- A thread that gives up its CPU brings the scheduler back. -/
theorem board_swtch (build : Build) {c : Fin n} {p : Slot} (ie : Bool)
    (away : runs (s.sched c).pc = some p) :
    ∃ i, board (s.swtch build c ie) = { board s with
      pc := Function.update (board s).pc c (if build = .rr then .scan i none else .stale p)
      cur := Function.update (board s).cur c none
      cproc := Function.update (board s).cproc c (if build = .rr then none else (board s).cproc c) } := by
  cases position : (s.sched c).pc with
  | away q i =>
      obtain rfl : q = p := by simpa [position, runs] using away
      refine ⟨i + 1, ?_⟩
      cases build <;> simp only [board, Machine.swtch, position, Board.mk.injEq, true_and, and_true,
        reduceIte, reduceCtorEq, Function.update_eq_self] <;> funext d <;>
        by_cases same : d = c <;> simp [same]
  | _ => simp [position, runs] at away

/-- A `yield` on a scheduler thread leaves that scheduler where it is. -/
theorem swtch_idle (build : Build) {c : Fin n} (ie : Bool) (idle : runs (s.sched c).pc = none) :
    s.swtch build c ie = s.setSched c ⟨none, (s.sched c).pc, ie⟩ := by
  cases position : (s.sched c).pc <;> cases build <;> simp_all [Machine.swtch, runs]

theorem board_swtch_idle (build : Build) {c : Fin n} (ie : Bool)
    (idle : runs (s.sched c).pc = none) : board (s.swtch build c ie) = board s := by
  rw [swtch_idle s build ie idle, board_setSched]
  simp [board, Function.update_eq_self]

end View

/-- The channel and the next slot of a position inside `wakeup`. -/
def waking : Option HandlerPc → Option (Chan × Nat)
  | some (.wakeupCall chan i) => some (chan, i)
  | some (.wakeup _ _ chan _ i) => some (chan, i)
  | _ => none

/-- The call of `wakeup` that a CPU executes, and the slot that it visits next. -/
def wakingAt (s : Machine n) (c : Fin n) : Option (Chan × Nat) := waking (s.handler c)

/-- The CPU executes `kill` on this slot and finds its pid there. -/
def Kills (s : Machine n) (c : Fin n) (j : Slot) : Prop :=
  ∃ p mode, s.handler c = none ∧ s.cur c = some p ∧
    (s.thread p).base = .killing mode (s.proc j).pid j.val

/-- The process that the first-come or the feedback scheduler is about to run. -/
def claim (s : Machine n) (c : Fin n) : Option Slot :=
  match s.handler c, s.cur c, (s.sched c).pc with
  | none, none, .scan i first => if slotAt i = none then first else none
  | none, none, .lockNext p => some p
  | _, _, _ => none

/-- The code behind each step of the protocol. -/
inductive Executes (build : Build) (s : Machine n) : CpuEvent n → Act n → Prop where
  | quiet (event : CpuEvent n) : Executes build s event .quiet
  | pass (c : Fin n) : s.handler c = none → s.cur c = none → Executes build s (.step c) (.pass c)
  | run (c : Fin n) (p : Slot) :
      s.handler c = none → s.cur c = none → (build = .rr ∨ claim s c = some p) →
      Executes build s (.step c) (.run c p)
  | wakeup (c : Fin n) (j : Slot) (chan : Chan) :
      wakingAt s c = some (chan, j.val) → (s.proc j).chan = some chan →
      Executes build s (.step c) (.wake j)
  | kill (c : Fin n) (j : Slot) : Kills s c j → Executes build s (.step c) (.wake j)
  | yield (c : Fin n) (p : Slot) (trap : Trap) (after : AfterYield) :
      s.handler c = some (.yield trap after) → s.cur c = some p →
      Executes build s (.step c) (.leave c p .runnable)
  | stray (c : Fin n) (p : Slot) (trap : Trap) (after : AfterYield) :
      s.handler c = some (.yield trap after) → s.cur c = none →
      Executes build s (.step c) (.stray c p)
  | sleep (c : Fin n) (p : Slot) (chan : Chan) :
      s.cur c = some p → Executes build s (.call c (.sleep chan)) (.leave c p .sleeping)
  | exit (c : Fin n) (p : Slot) (status : CInt) :
      s.cur c = some p → Executes build s (.call c (.exit status)) (.leave c p .zombie)
  | fork (c : Fin n) (p np : Slot) (memory : Memory) :
      s.cur c = some p → Executes build s (.call c (.fork np memory)) (.alloc p np)
  | ready (c : Fin n) (p np : Slot) (mode : Mode) :
      s.handler c = none → s.cur c = some p → (s.thread p).base = .forking mode np →
      Executes build s (.step c) (.ready p np)
  | wait (c : Fin n) (p child : Slot) :
      s.cur c = some p → Executes build s (.call c (.wait child)) (.reap child)

/-- The first-come scheduler never lets a handler call `yield`. -/
def tame : HandlerPc → Bool
  | .aging _ _ _ | .slice _ _ _ | .flag _ _ | .yield _ _ => false
  | _ => true

/-- Every handler that runs on a thread, or that waits on it, is tame. -/
def Calm (s : Machine n) : Prop :=
  (∀ c, (s.sched c).handler.all tame = true) ∧ ∀ p, (s.thread p).handler.all tame = true

/-- The step follows the protocol. -/
def Follows (build : Build) (s : Machine n) (event : CpuEvent n) (t : Machine n) : Prop :=
  ∃ act, Executes build s event act ∧ BoardStep build (board s) act (board t)

section Follow

variable {build : Build} {s t : Machine n} {c : Fin n}

/-- A step that keeps the view follows the protocol. -/
theorem follows_same {event : CpuEvent n} (same : board t = board s) : Follows build s event t :=
  ⟨.quiet, .quiet event, same ▸ .quiet⟩

/-- A process that makes no child keeps the view. -/
theorem board_setBase_same {p : Slot} {base : Base} (before : makes (s.thread p).base = none)
    (after : makes base = none) : board (s.setBase p base) = board s :=
  board_setThread_same s p (after.trans before.symm)

/-- A loop body that keeps the state keeps the view. -/
theorem follows_quiet {j : Slot} {record : Proc} {handler : Option HandlerPc} {event : CpuEvent n}
    (quiet : record.state = (s.proc j).state) :
    Follows build s event ((s.setProc j record).setHandler c handler) :=
  follows_same ((board_setHandler _ c handler).trans (board_setProc_same s j quiet))

/-- One iteration of `wakeup` wakes a sleeper on its channel or keeps the view. -/
theorem follows_wakeupSlot {j : Slot} {chan : Chan} {handler : Option HandlerPc}
    (waking : wakingAt s c = some (chan, j.val)) :
    Follows build s (.step c)
      ((s.setProc j (wakeupSlot chan (s.proc j))).setHandler c handler) := by
  by_cases asleep : (s.proc j).state = .sleeping ∧ (s.proc j).chan = some chan
  · refine ⟨.wake j, .wakeup c j chan waking asleep.2, ?_⟩
    rw [board_setHandler, board_setProc, wakeupSlot, if_pos asleep]
    exact .wake j asleep.1
  · exact follows_quiet (by rw [wakeupSlot, if_neg asleep])

theorem follows_visit {pc after : HandlerPc} {j : Slot} {body : Proc → Proc}
    (position : s.handler c = some pc)
    (visited : Visit build (s.cproc c) s.ticks pc j body after) :
    Follows build s (.step c) ((s.setProc j (body (s.proc j))).setHandler c (some after)) := by
  cases visited with
  | call chan | wakeup trap timer chan rest => exact follows_wakeupSlot (by simp [wakingAt, waking, position])
  | update trap => exact follows_quiet (by simp)
  | aging trap timer => exact follows_quiet (by simp)

/-- A thread that leaves its CPU follows the protocol. -/
theorem leave_swtch {p : Slot} {state : ProcState} {record : Proc} {u : Machine n} (ie : Bool)
    (seated : Seated (board s)) (current : s.cur c = some p) (after : record.state = state)
    (exited : state = .zombie → makes (s.thread p).base = none) (departed : state ≠ .used)
    (view : board u = board (s.setProc p record)) (same : (u.sched c).pc = (s.sched c).pc) :
    BoardStep build (board s) (.leave c p state) (board (u.swtch build c ie)) := by
  have away : runs (u.sched c).pc = some p := by
    rw [same]
    exact (seated.runs c).trans current
  obtain ⟨i, swapped⟩ := board_swtch u build ie away
  rw [swapped, view, board_setProc, after]
  exact .leave c p state i current exited departed

/-- A process that yields leaves its CPU. -/
theorem follows_yield {p q : Slot} {trap : Trap} {after : AfterYield} (seated : Seated (board s))
    (position : s.handler c = some (.yield trap after)) (names : s.cproc c = some p)
    (current : s.cur c = some q) :
    Follows build s (.step c) (((s.setProc p { s.proc p with state := .runnable }).setHandler c
      (some (after.pc trap))).swtch build c false) := by
  obtain rfl : p = q := Option.some.inj (names.symm.trans (seated.named c q current))
  refine ⟨.leave c p .runnable, .yield c p trap after position current, ?_⟩
  refine leave_swtch false seated current rfl (nomatch ·) nofun (board_setHandler _ c _) ?_
  simp [Machine.setHandler, Machine.setProc, Machine.setThread, current]

/-- A `yield` on a scheduler thread is a stray step. -/
theorem follows_stray {p : Slot} {trap : Trap} {after : AfterYield} (calm : build = .fcfs → Calm s)
    (seated : Seated (board s)) (position : s.handler c = some (.yield trap after))
    (names : s.cproc c = some p) (current : s.cur c = none) :
    Follows build s (.step c) (((s.setProc p { s.proc p with state := .runnable }).setThread p
      ⟨none, .lost⟩).swtch build c false) := by
  refine ⟨.stray c p, .stray c p trap after position current, ?_⟩
  rw [board_swtch_idle, board_setThread, board_setProc]
  · refine .stray c p ?_ current names
    rintro rfl
    have running := (calm rfl).1 c
    simp only [Machine.handler, current] at position
    simp [position, tame] at running
  · exact (seated.runs c).trans current

/-- The scheduler moves on without a new lock. -/
theorem follows_goto {pc : SchedPc} (idle : s.handler c = none) (current : s.cur c = none)
    (before : Scanning (s.sched c).pc) (after : Scanning pc)
    (keeps : pc.held = none ∨ pc.held = (s.sched c).pc.held) (unchosen : ∀ p, pc ≠ .lockNext p) :
    Follows build s (.step c) (s.goto c pc) := by
  refine ⟨.pass c, .pass c idle current, ?_⟩
  rw [board_goto]
  exact .move c pc current before after keeps unchosen

/-- The scheduler runs a process that it has claimed. -/
theorem follows_dispatch {p : Slot} {i : Nat} (idle : s.handler c = none)
    (current : s.cur c = none) (before : Scanning (s.sched c).pc)
    (claimed : Claimed build (board s) c p) (named : build = .rr ∨ claim s c = some p) :
    Follows build s (.step c) (s.dispatch c p i) := by
  refine ⟨.run c p, .run c p idle current named, ?_⟩
  rw [board_dispatch]
  exact .run c p i current before claimed

theorem follows_pass {pc : SchedPc} (idle : s.handler c = none) (current : s.cur c = none)
    (passed : Pass build s (s.sched c).pc pc) : Follows build s (.step c) (s.goto c pc) := by
  generalize before : (s.sched c).pc = position at passed
  have scanning {i : Nat} {first : Option Slot} (same : position = .scan i first) :
      Scanning (s.sched c).pc := before ▸ same ▸ ⟨rfl, rfl⟩
  cases passed with
  | fcfsHold j first only unlocked preferred =>
      refine ⟨.pass c, .pass c idle current, ?_⟩
      rw [board_goto]
      exact .hold c (j.val + 1) j only current (scanning rfl) preferred.1 unlocked
  | fcfs j first =>
      exact follows_goto idle current (scanning rfl) ⟨rfl, rfl⟩ (.inr (by rw [before]; rfl)) nofun
  | _ => exact follows_goto idle current (scanning rfl) ⟨rfl, rfl⟩ (.inl rfl) nofun

theorem follows_clear {pc : SchedPc} (seated : Seated (board s)) (idle : s.handler c = none)
    (current : s.cur c = none) (cleared : Clear build s.proc (s.sched c).pc pc) :
    Follows build s (.step c) ({ s with cproc := Function.update s.cproc c none }.goto c pc) := by
  have ended : runs (s.sched c).pc = none := (seated.runs c).trans current
  refine ⟨.pass c, .pass c idle current, ?_⟩
  rw [board_goto]
  generalize (s.sched c).pc = position at cleared
  have after : Scanning pc ∧ pc.held = none := by
    cases cleared <;> exact ⟨⟨rfl, rfl⟩, rfl⟩
  have chosen : ∀ p, pc = .lockNext p → (s.proc p).state = .runnable := by
    rintro p rfl
    cases cleared with
    | choose _ _ chosen => exact (chooseNext_waits chosen).1
  exact .clear c pc current ended after.1 after.2 chosen

theorem follows_run {p : Slot} {i : Nat} (idle : s.handler c = none) (current : s.cur c = none)
    (chosen : Runs build s (s.sched c).pc p i) : Follows build s (.step c) (s.dispatch c p i) := by
  generalize before : (s.sched c).pc = position at chosen
  cases chosen with
  | rr j first only unlocked runnable =>
      subst only
      exact follows_dispatch idle current (before ▸ ⟨rfl, rfl⟩) ⟨runnable, unlocked⟩ (.inl rfl)
  | fcfs i p only ended =>
      subst only
      refine follows_dispatch idle current (before ▸ ⟨rfl, rfl⟩) ?_ (.inr ?_)
      · show (s.sched c).pc.held = some p
        rw [before]
        rfl
      · simp [claim, idle, current, before, slotAt, Nat.not_lt.mpr ended]
  | mlfq p only unlocked =>
      subst only
      refine follows_dispatch idle current (before ▸ ⟨rfl, rfl⟩) ⟨before, unlocked⟩ (.inr ?_)
      simp [claim, idle, current, before]

theorem goes_childless {before after : Base} (gone : Goes s before after) :
    makes before = none ∧ makes after = none := by
  cases gone <;> exact ⟨rfl, rfl⟩

theorem calls_childless {p : Slot} {call : KernelCall} {before after : Base}
    (called : Calls s p call before after) : makes before = none ∧ makes after = none := by
  cases called <;> exact ⟨rfl, rfl⟩

theorem follows_kill {p j : Slot} {mode : Mode} (idle : s.handler c = none)
    (current : s.cur c = some p)
    (position : (s.thread p).base = .killing mode (s.proc j).pid j.val) :
    Follows build s (.step c) ((s.setProc j (killSlot (s.proc j))).setBase p (.kern mode)) := by
  have view : board ((s.setProc j (killSlot (s.proc j))).setBase p (.kern mode)) =
      board (s.setProc j (killSlot (s.proc j))) :=
    board_setBase_same (show makes (s.thread p).base = none by rw [position]; rfl) rfl
  by_cases asleep : (s.proc j).state = .sleeping
  · refine ⟨.wake j, .kill c j ⟨p, mode, idle, current, position⟩, ?_⟩
    rw [view, board_setProc, killSlot, if_pos asleep]
    exact .wake j asleep
  · refine follows_same (view.trans (board_setProc_same s j ?_))
    rw [killSlot, if_neg asleep]

/-- Each step of the machine is a step of the protocol. -/
theorem follows_next {event : CpuEvent n} (calm : build = .fcfs → Calm s) (seated : Seated (board s))
    (stepped : s.Step build event t) : Follows build s event t := by
  cases move_next stepped with
  | interrupt c device trap | wakeup c p mode chan => exact follows_same (board_setHandler s c _)
  | turn c pc handler => exact follows_same (board_setHandler s c handler)
  | tick c trap => exact follows_same (board_setHandler _ c _)
  | visit c pc after j body position visited => exact follows_visit position visited
  | demote c trap p => exact follows_quiet (by simp)
  | yield c p q trap after position names current =>
      exact follows_yield seated position names current
  | stray c p trap after position names current =>
      exact follows_stray calm seated position names current
  | dying c p timer =>
      refine ⟨.quiet, .quiet _, ?_⟩
      rw [board_setThread]
      exact .drop p
  | top c idle current position =>
      refine ⟨.pass c, .pass c idle current, ?_⟩
      rw [board_setSched]
      exact .move c _ current (show Scanning (s.sched c).pc from position ▸ ⟨rfl, rfl⟩) ⟨rfl, rfl⟩
        (.inl rfl) nofun
  | pass c pc idle current passed => exact follows_pass idle current passed
  | clear c pc idle current cleared => exact follows_clear seated idle current cleared
  | scan c j first only idle current position =>
      refine ⟨.pass c, .pass c idle current, ?_⟩
      rw [board_goto, board_setProc_same s j (by simp)]
      exact .move c _ current (show Scanning (s.sched c).pc from position ▸ ⟨rfl, rfl⟩) ⟨rfl, rfl⟩
        (.inl rfl) nofun
  | run c p i idle current chosen => exact follows_run idle current chosen
  | goes c p base idle current gone =>
      obtain ⟨before, after⟩ := goes_childless gone
      exact follows_same (board_setBase_same before after)
  | calls c p call base idle current called =>
      obtain ⟨before, after⟩ := calls_childless called
      exact follows_same (board_setBase_same before after)
  | kill c p j mode idle current position => exact follows_kill idle current position
  | ready c p np mode idle current position =>
      refine ⟨.ready p np, .ready c p np mode idle current position, ?_⟩
      rw [board_setBase, board_setProc, forkReady_state]
      exact .ready p np (by simp [board, position, makes])
  | sleep c p mode chan idle current position =>
      refine ⟨.leave c p .sleeping, .sleep c p chan current, ?_⟩
      exact leave_swtch mode.ie seated current rfl (nomatch ·) nofun rfl rfl
  | exit c p mode status idle current position =>
      have childless : makes (s.thread p).base = none := by rw [position]; rfl
      refine ⟨.leave c p .zombie, .exit c p status current, ?_⟩
      exact leave_swtch mode.ie seated current rfl (fun _ => childless) nofun
        (board_setThread_same _ p childless.symm) rfl
  | fork c p np mode memory child after idle current position unused unlocked allocated =>
      refine ⟨.alloc p np, .fork c p np memory current, ?_⟩
      rw [board_setBase, board_setThread, board_setProc, forkCopy_state,
        (allocproc_state allocated).1]
      exact .alloc p np (by simp [board, position, makes]) unused unlocked
  | forkFailed c p np memory idle current unused =>
      exact follows_same (board_setProc_same _ np ((forkFailed_free ..).1.trans unused.symm))
  | wait c p child idle current exited =>
      refine ⟨.reap child, .wait c p child current, ?_⟩
      rw [board_setProc]
      exact .reap child exited

end Follow

end Xv6.Cpu
