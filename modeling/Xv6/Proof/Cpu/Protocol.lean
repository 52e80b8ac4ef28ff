/-
This file gives the protocol between the CPUs and the processes: which thread a CPU executes, which
process `c->proc` names, and whose lock a scheduler keeps. The machine of the CPUs refines it.
-/

import Xv6.Kernel.CpuSystem

namespace Xv6.Cpu

/-- The part of the machine that the protocol is about. -/
structure Board (n : Nat) where
  state : Slot → ProcState
  making : Slot → Option Slot
  pc : Fin n → SchedPc
  cur : Fin n → Option Slot
  cproc : Fin n → Option Slot

/-- What one step does to the states of the processes. -/
inductive Act (n : Nat) where
  | quiet
  | pass (c : Fin n)
  | wake (p : Slot)
  | run (c : Fin n) (p : Slot)
  | leave (c : Fin n) (p : Slot) (state : ProcState)
  | stray (c : Fin n) (p : Slot)
  | alloc (p np : Slot)
  | ready (p np : Slot)
  | reap (p : Slot)

/-- The process that a scheduler waits for in `swtch`. -/
def runs : SchedPc → Option Slot
  | .away p _ => some p
  | _ => none

/-- The process that a scheduler has released and that `c->proc` still names. -/
def released : SchedPc → Option Slot
  | .stale p => some p
  | _ => none

/-- The position of a scheduler that has nothing to clear. -/
def Scanning (pc : SchedPc) : Prop := runs pc = none ∧ released pc = none

variable {n : Nat}

/-- No scheduler keeps the lock of this slot. -/
def Board.Unlocked (b : Board n) (p : Slot) : Prop := ∀ c, (b.pc c).held ≠ some p

/-- What each scheduler knows about the process that it runs. -/
def Claimed (build : Build) (b : Board n) (c : Fin n) (p : Slot) : Prop :=
  match build with
  | .rr => b.state p = .runnable ∧ b.Unlocked p
  | .fcfs => (b.pc c).held = some p
  | .mlfq => b.pc c = .lockNext p ∧ b.Unlocked p

/-- One step of the protocol. -/
inductive BoardStep (build : Build) (b : Board n) : Act n → Board n → Prop where
  | quiet : BoardStep build b .quiet b
  | drop (p : Slot) :
      BoardStep build b .quiet { b with making := Function.update b.making p none }
  | move (c : Fin n) (pc : SchedPc) :
      b.cur c = none → Scanning (b.pc c) → Scanning pc → (pc.held = none ∨ pc.held = (b.pc c).held) →
      (∀ p, pc ≠ .lockNext p) →
      BoardStep build b (.pass c) { b with pc := Function.update b.pc c pc }
  | hold (c : Fin n) (i : Nat) (p : Slot) :
      build = .fcfs → b.cur c = none → Scanning (b.pc c) → b.state p = .runnable → b.Unlocked p →
      BoardStep build b (.pass c) { b with pc := Function.update b.pc c (.scan i (some p)) }
  | clear (c : Fin n) (pc : SchedPc) :
      b.cur c = none → runs (b.pc c) = none → Scanning pc → pc.held = none →
      (∀ p, pc = .lockNext p → b.state p = .runnable) →
      BoardStep build b (.pass c) { b with
        pc := Function.update b.pc c pc, cproc := Function.update b.cproc c none }
  | run (c : Fin n) (p : Slot) (i : Nat) :
      b.cur c = none → Scanning (b.pc c) → Claimed build b c p →
      BoardStep build b (.run c p) { b with
        state := Function.update b.state p .running
        pc := Function.update b.pc c (.away p i)
        cur := Function.update b.cur c (some p)
        cproc := Function.update b.cproc c (some p) }
  | wake (p : Slot) :
      b.state p = .sleeping →
      BoardStep build b (.wake p) { b with state := Function.update b.state p .runnable }
  | leave (c : Fin n) (p : Slot) (state : ProcState) (i : Nat) :
      b.cur c = some p → (state = .zombie → b.making p = none) → state ≠ .used →
      BoardStep build b (.leave c p state) { b with
        state := Function.update b.state p state
        pc := Function.update b.pc c (if build = .rr then .scan i none else .stale p)
        cur := Function.update b.cur c none
        cproc := Function.update b.cproc c (if build = .rr then none else b.cproc c) }
  | stray (c : Fin n) (p : Slot) :
      build ≠ .fcfs → b.cur c = none → b.cproc c = some p →
      BoardStep build b (.stray c p) { b with
        state := Function.update b.state p .runnable, making := Function.update b.making p none }
  | alloc (p np : Slot) :
      b.making p = none → b.state np = .unused → b.Unlocked np →
      BoardStep build b (.alloc p np) { b with
        state := Function.update b.state np .used
        making := Function.update (Function.update b.making np none) p (some np) }
  | ready (p np : Slot) :
      b.making p = some np →
      BoardStep build b (.ready p np) { b with
        state := Function.update b.state np .runnable, making := Function.update b.making p none }
  | reap (p : Slot) :
      b.state p = .zombie →
      BoardStep build b (.reap p) { b with state := Function.update b.state p .unused }

/-- How a step changes the state of one process. -/
inductive Change : Act n → Slot → ProcState → ProcState → Prop where
  | wake (p : Slot) : Change (.wake p) p .sleeping .runnable
  | run (c : Fin n) (p : Slot) (before : ProcState) : Change (.run c p) p before .running
  | leave (c : Fin n) (p : Slot) (before after : ProcState) : Change (.leave c p after) p before after
  | stray (c : Fin n) (p : Slot) (before : ProcState) : Change (.stray c p) p before .runnable
  | alloc (p np : Slot) : Change (.alloc p np) np .unused .used
  | ready (p np : Slot) (before : ProcState) : Change (.ready p np) np before .runnable
  | reap (p : Slot) : Change (.reap p) p .zombie .unused

theorem change_of_step {build : Build} {b d : Board n} {act : Act n}
    (stepped : BoardStep build b act d) (q : Slot) :
    d.state q = b.state q ∨ Change act q (b.state q) (d.state q) := by
  cases stepped with
  | quiet | drop | move | hold | clear => exact .inl rfl
  | run c p i =>
      by_cases same : q = p
      · subst same
        simpa using .inr (.run c q (b.state q))
      · simp [same]
  | wake p asleep =>
      by_cases same : q = p
      · subst same
        simpa [asleep] using Change.wake q
      · simp [same]
  | leave c p state i =>
      by_cases same : q = p
      · subst same
        simpa using .inr (.leave c q (b.state q) state)
      · simp [same]
  | stray c p =>
      by_cases same : q = p
      · subst same
        simpa using .inr (.stray c q (b.state q))
      · simp [same]
  | alloc p np _ unused =>
      by_cases same : q = np
      · subst same
        simpa [unused] using Change.alloc p q
      · simp [same]
  | ready p np =>
      by_cases same : q = np
      · subst same
        simpa using .inr (.ready p q (b.state q))
      · simp [same]
  | reap p exited =>
      by_cases same : q = p
      · subst same
        simpa [exited] using Change.reap q
      · simp [same]

/-- The feedback scheduler keeps the protocol when `yield` runs on the thread of its own process and
the process that it runs is still runnable. -/
def Orderly (b : Board n) : Act n → Prop
  | .stray _ _ => False
  | .run _ p => b.state p = .runnable
  | _ => True

/-- A `yield` on a scheduler thread does no harm to a process that no CPU executes and that `fork` is
not making. -/
def Harmless (b : Board n) : Act n → Prop
  | .stray _ p => (∀ c, b.cur c ≠ some p) ∧ b.state p ≠ .used
  | .run _ p => b.state p = .runnable
  | _ => True

theorem harmless_of_orderly {b : Board n} {act : Act n} (orderly : Orderly b act) : Harmless b act := by
  cases act <;> first | exact orderly | exact orderly.elim

/-- A CPU that executes a process names it, and its scheduler waits for it. -/
structure Seated (b : Board n) : Prop where
  named : ∀ c p, b.cur c = some p → b.cproc c = some p
  runs : ∀ c, runs (b.pc c) = b.cur c

/-- The invariant of the protocol. -/
structure BoardInv (build : Build) (b : Board n) : Prop extends Seated b where
  running : ∀ c p, b.cur c = some p → b.state p = .running
  unique : ∀ c d p, b.cur c = some p → b.cur d = some p → c = d
  stale : ∀ c p, b.cproc c = some p → b.cur c = some p ∨ build ≠ .rr ∧ released (b.pc c) = some p
  held : ∀ c p, (b.pc c).held = some p → build = .fcfs ∧ b.state p = .runnable
  holder : ∀ c d p, (b.pc c).held = some p → (b.pc d).held = some p → c = d
  newborn : ∀ p np, b.making p = some np → b.state np = .used
  midwife : ∀ p q np, b.making p = some np → b.making q = some np → p = q

section Step

variable {build : Build} {b d : Board n} {act : Act n}

/-- Every step keeps the CPUs seated, in any order. -/
theorem seated_step (seated : Seated b) (stepped : BoardStep build b act d) : Seated d := by
  have named := seated.named
  have runs := seated.runs
  constructor
  · cases stepped <;> grind
  · cases stepped <;> grind [Scanning, Cpu.runs]

theorem running_step (inv : BoardInv build b) (harmless : Harmless b act)
    (stepped : BoardStep build b act d) : ∀ c p, d.cur c = some p → d.state p = .running := by
  have running := inv.running
  have unique := inv.unique
  have newborn := inv.newborn
  cases stepped <;> grind [Harmless]

theorem unique_step (inv : BoardInv build b) (harmless : Harmless b act)
    (stepped : BoardStep build b act d) :
    ∀ c e p, d.cur c = some p → d.cur e = some p → c = e := by
  have unique := inv.unique
  have running := inv.running
  cases stepped <;> grind [Harmless]

theorem stale_step (inv : BoardInv build b) (stepped : BoardStep build b act d) :
    ∀ c p, d.cproc c = some p → d.cur c = some p ∨ build ≠ .rr ∧ released (d.pc c) = some p := by
  have stale := inv.stale
  have named := inv.named
  have runs := inv.runs
  cases stepped <;> grind [Scanning, released, Cpu.runs]

theorem held_step (inv : BoardInv build b) (harmless : Harmless b act)
    (stepped : BoardStep build b act d) :
    ∀ c p, (d.pc c).held = some p → build = .fcfs ∧ d.state p = .runnable := by
  have held := inv.held
  have running := inv.running
  have holder := inv.holder
  have newborn := inv.newborn
  cases stepped <;> grind [Harmless, SchedPc.held, Claimed]

theorem holder_step (inv : BoardInv build b) (stepped : BoardStep build b act d) :
    ∀ c e p, (d.pc c).held = some p → (d.pc e).held = some p → c = e := by
  have holder := inv.holder
  cases stepped <;> grind [SchedPc.held, Board.Unlocked]

theorem newborn_step (inv : BoardInv build b) (harmless : Harmless b act)
    (stepped : BoardStep build b act d) : ∀ p np, d.making p = some np → d.state np = .used := by
  have newborn := inv.newborn
  have running := inv.running
  have midwife := inv.midwife
  cases stepped <;> grind [Harmless]

theorem midwife_step (inv : BoardInv build b) (stepped : BoardStep build b act d) :
    ∀ p q np, d.making p = some np → d.making q = some np → p = q := by
  have newborn := inv.newborn
  have midwife := inv.midwife
  cases stepped <;> grind

/-- A harmless step keeps the invariant. -/
theorem boardInv_step (inv : BoardInv build b) (harmless : Harmless b act)
    (stepped : BoardStep build b act d) : BoardInv build d where
  toSeated := seated_step inv.toSeated stepped
  running := running_step inv harmless stepped
  unique := unique_step inv harmless stepped
  stale := stale_step inv stepped
  held := held_step inv harmless stepped
  holder := holder_step inv stepped
  newborn := newborn_step inv harmless stepped
  midwife := midwife_step inv stepped

/-- The round robin and the first-come scheduler take only orderly steps. -/
theorem orderly_of_inv (inv : BoardInv build b) (stepped : BoardStep build b act d)
    (claims : build ≠ .mlfq) : Orderly b act := by
  have stale := inv.stale
  have held := inv.held
  cases stepped <;> cases build <;> grind [Orderly, Claimed]

end Step

end Xv6.Cpu
