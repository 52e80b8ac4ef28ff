/-
This file shows that the machine of the process calls refines the protocol of the process tree.
One step of the machine is at most two steps of the protocol.
-/

import Xv6.Proof.Tree.Invariant

namespace Xv6.ProcTree
open Relation

/-- The process tree of the machine. -/
def tree (s : ProcSystem) : Tree where
  state := fun i => (s.proc i).state
  chan := fun i => (s.proc i).chan
  parent := fun i => (s.proc i).parent
  pc := s.pc
  lock := s.waitLock

section View

variable (s : ProcSystem) (p : Slot)

theorem tree_setProc (record : Proc) :
    tree (s.setProc p record) = { tree s with
      state := Function.update (tree s).state p record.state
      chan := Function.update (tree s).chan p record.chan
      parent := Function.update (tree s).parent p record.parent } := by
  simp only [tree, ProcSystem.setProc, Tree.mk.injEq, and_true]
  refine ⟨?_, ?_, ?_⟩ <;> funext i <;> by_cases same : i = p <;> simp [same]

@[simp] theorem tree_goto (pc : CallPc) :
    tree (s.goto p pc) = { tree s with pc := Function.update (tree s).pc p pc } :=
  rfl

/-- A record that keeps its state, its channel and its parent keeps the tree. -/
theorem tree_setProc_same {record : Proc} (state : record.state = (s.proc p).state)
    (chan : record.chan = (s.proc p).chan) (parent : record.parent = (s.proc p).parent) :
    tree (s.setProc p record) = tree s := by
  rw [tree_setProc, state, chan, parent]
  simp [tree, Function.update_eq_self]

/-- A record that changes its state only. -/
theorem tree_setState (record : Proc) {state : ProcState} (now : record.state = state)
    (chan : record.chan = (s.proc p).chan) (parent : record.parent = (s.proc p).parent) :
    tree (s.setProc p record) = { tree s with state := Function.update (tree s).state p state } := by
  rw [tree_setProc, now, chan, parent]
  simp [tree, Function.update_eq_self]

/-- A record that changes its parent only. -/
theorem tree_setParent (record : Proc) {parent : Option Slot} (state : record.state = (s.proc p).state)
    (chan : record.chan = (s.proc p).chan) (now : record.parent = parent) :
    tree (s.setProc p record) = { tree s with parent := Function.update (tree s).parent p parent } := by
  rw [tree_setProc, state, chan, now]
  simp [tree, Function.update_eq_self]

@[simp] theorem tree_ret (value : CInt) :
    tree (s.ret p value) = { tree s with pc := Function.update (tree s).pc p .user } := by
  have same : tree (s.setProc p (storeResult (value.signExtend 64, s.proc p))) = tree s :=
    tree_setProc_same s p rfl rfl rfl
  simp only [ProcSystem.ret, tree_goto, same]

end View

/-- A section that leaves the channel alone is a move. -/
theorem move_pc {t : Tree} {p : Slot} {pc : CallPc} (running : t.state p = .running)
    (before : Plain (t.pc p)) (after : Plain pc) (exiting : exits pc = true → p ≠ initproc) :
    TreeStep t { t with pc := Function.update t.pc p pc } := by
  have moved := TreeStep.move p pc (t.chan p) running before after exiting
  rwa [Function.update_eq_self] at moved

section Records

/-- A failed allocation leaves an unused slot that nothing refers to. -/
theorem allocproc_none {build : Build} {pid : CInt} {ticks : Uint} {page : Option Trapframe}
    {table : Option Uint64} {p after : Proc}
    (failed : allocproc build pid ticks page table p = (none, after)) :
    after.state = .unused ∧ after.chan = none ∧ after.parent = none := by
  unfold allocproc at failed
  cases page <;> cases table <;> simp only [Prod.mk.injEq, reduceCtorEq, false_and] at failed <;>
    obtain ⟨_, rfl⟩ := failed <;> exact ⟨rfl, rfl, rfl⟩

/-- A successful allocation keeps the channel and the parent of the slot. -/
theorem allocproc_some {build : Build} {pid : CInt} {ticks : Uint} {page : Option Trapframe}
    {table : Option Uint64} {p np after : Proc}
    (done : allocproc build pid ticks page table p = (some np, after)) :
    np.state = .used ∧ np.chan = p.chan ∧ np.parent = p.parent := by
  unfold allocproc at done
  cases page <;> cases table <;> simp only [Prod.mk.injEq, reduceCtorEq, false_and] at done
  obtain ⟨same, _⟩ := done
  rw [← Option.some.inj same]
  exact ⟨rfl, rfl, rfl⟩

end Records

section Refines

variable {s t : ProcSystem} {build : Build} {p : Slot}

/-- The machine takes a number of steps of the protocol. -/
abbrev Refines (s t : ProcSystem) : Prop := ReflTransGen TreeStep (tree s) (tree t)

/-- A change outside the tree is no step of the protocol. -/
theorem refines_quiet {record : Proc} (state : record.state = (s.proc p).state)
    (chan : record.chan = (s.proc p).chan) (parent : record.parent = (s.proc p).parent) :
    Refines s (s.setProc p record) := by
  rw [Refines, tree_setProc_same s p state chan parent]

/-- `kill` and `wakeup` at most end a sleep. -/
theorem refines_rouse {record : Proc} (i : Slot)
    (state : record.state = (s.proc i).state ∨
      (s.proc i).state = .sleeping ∧ record.state = .runnable)
    (chan : record.chan = (s.proc i).chan) (parent : record.parent = (s.proc i).parent) :
    Refines s (s.setProc i record) := by
  rcases state with same | ⟨sleeping, runnable⟩
  · exact refines_quiet same chan parent
  · have roused := TreeStep.rouse (t := tree s) i sleeping
    rw [Refines, tree_setState s i record runnable chan parent]
    exact .single roused

theorem wakeupSlot_state (chan : Chan) (q : Proc) :
    (wakeupSlot chan q).state = q.state ∨
      q.state = .sleeping ∧ (wakeupSlot chan q).state = .runnable := by
  unfold wakeupSlot
  split_ifs with due
  · exact Or.inr ⟨due.1, rfl⟩
  · exact Or.inl rfl

theorem refines_wakeup (chan : Chan) (i : Slot) :
    Refines s (s.setProc i (wakeupSlot chan (s.proc i))) := by
  refine refines_rouse i (wakeupSlot_state chan (s.proc i)) ?_ ?_ <;>
    unfold wakeupSlot <;> split_ifs <;> rfl

theorem refines_kill (i : Slot) : Refines s (s.setProc i (killSlot (s.proc i))) := by
  refine refines_rouse i ?_ ?_ ?_
  · unfold killSlot
    split_ifs with sleeping
    · exact Or.inr ⟨sleeping, rfl⟩
    · exact Or.inl rfl
  all_goals unfold killSlot; split_ifs <;> rfl

@[simp] theorem wakeupAt_pc (j : Slot) (chan : Option Slot) : (s.wakeupAt p j chan).pc = s.pc := by
  unfold ProcSystem.wakeupAt
  split
  · split_ifs <;> rfl
  · rfl

theorem refines_wakeupAt (j : Slot) (chan : Option Slot) : Refines s (s.wakeupAt p j chan) := by
  unfold ProcSystem.wakeupAt
  split
  · split_ifs
    · exact .refl
    · exact refines_wakeup _ j
  · exact .refl

/-- The iteration of `wakeup` for the owner of the channel ends its sleep. -/
theorem wakeupAt_awake (running : (s.proc p).state = .running) (q : Slot) :
    ¬ (tree (s.wakeupAt p q (some q))).Waiting q := by
  rintro ⟨sleeping, chan⟩
  unfold ProcSystem.wakeupAt at sleeping chan
  by_cases same : q = p
  · subst same
    simp [tree, running] at sleeping
  · simp only [same, if_false, tree, ProcSystem.setProc, Function.update_self] at sleeping chan
    by_cases due : (s.proc q).state = .sleeping ∧ (s.proc q).chan = some (.proc q)
    · simp [wakeupSlot, due] at sleeping
    · rw [wakeupSlot, if_neg due] at sleeping chan
      exact due ⟨sleeping, chan⟩

/-- A slot that `fork` could not fill stays unused. -/
theorem refines_forkFailed {slot : Slot} {record : Proc} {value : CInt}
    (running : (s.proc p).state = .running) (plain : Plain (s.pc p))
    (free : (s.proc slot).state = .unused) (state : record.state = .unused)
    (chan : record.chan = none) (parent : record.parent = none) :
    Refines s ((s.setProc slot record).ret p value) := by
  have scrubbed : tree (s.setProc slot record) = { tree s with
      parent := Function.update (tree s).parent slot none
      chan := Function.update (tree s).chan slot none } := by
    have same : Function.update (tree s).state slot .unused = (tree s).state :=
      Function.update_eq_iff.mpr ⟨free.symm, fun _ _ => rfl⟩
    rw [tree_setProc, state, chan, parent, same]
  have scrub := TreeStep.scrub (t := tree s) slot free
  rw [← scrubbed] at scrub
  have different : p ≠ slot := fun same => by
    rw [same, free] at running
    cases running
  have still : (tree (s.setProc slot record)).state p = .running := by
    simpa [tree, ProcSystem.setProc, different] using running
  rw [Refines, tree_ret]
  exact .tail (.single scrub) (move_pc still plain ⟨rfl, rfl⟩ fun impossible => by cases impossible)

/-- The sections of `fork` refine the protocol. -/
theorem refines_forkSlot {slot : Slot} {memory : Memory} {i : Nat}
    (running : (s.proc p).state = .running) (position : s.pc p = .fork i)
    (free : (s.proc slot).state = .unused) : Refines s (s.forkSlot build p slot memory) := by
  have plain : Plain (s.pc p) := by
    rw [position]
    exact ⟨rfl, rfl⟩
  let counted : ProcSystem := { s with nextpid := s.nextpid + 1 }
  unfold ProcSystem.forkSlot
  dsimp only
  split
  · rename_i after result
    obtain ⟨state, chan, parent⟩ := allocproc_none result
    exact refines_forkFailed (s := counted) running plain free state chan parent
  · rename_i np after result
    obtain ⟨state, chan, parent⟩ := allocproc_some result
    split_ifs
    · have alloc := TreeStep.alloc (t := tree s) p slot running plain free
      have filled : tree (counted.setProc slot (forkCopy (s.proc p) np)) =
          { tree s with state := Function.update (tree s).state slot .used } := by
        rw [tree_setProc]
        simp only [forkCopy, state, chan, parent]
        simp [tree, counted, Function.update_eq_self]
      rw [Refines, tree_goto, filled]
      exact .single alloc
    · exact refines_forkFailed (s := counted) running plain free rfl rfl rfl

/-- A section that only moves on, outside the lock. -/
theorem refines_goto {pc : CallPc} (running : (s.proc p).state = .running) (before : Plain (s.pc p))
    (after : Plain pc) (exiting : exits pc = true → p ≠ initproc) : Refines s (s.goto p pc) :=
  .single (move_pc running before after exiting)

/-- A call that returns outside the lock. -/
theorem refines_ret {value : CInt} (running : (s.proc p).state = .running)
    (before : Plain (s.pc p)) : Refines s (s.ret p value) := by
  rw [Refines, tree_ret]
  exact .single (move_pc running before ⟨rfl, rfl⟩ fun impossible => (nomatch impossible))

/-- The end of `sleep` clears the channel. -/
theorem refines_tidy {pc : CallPc} (running : (s.proc p).state = .running)
    (before : Plain (s.pc p)) (after : Plain pc) (exiting : exits pc = true → p ≠ initproc) :
    Refines s ((s.setProc p { s.proc p with chan := none }).goto p pc) := by
  have tidied : tree (s.setProc p { s.proc p with chan := none }) =
      { tree s with chan := Function.update (tree s).chan p none } := by
    rw [tree_setProc]
    simp [tree, Function.update_eq_self]
  rw [Refines, tree_goto, tidied]
  exact .single (.move p pc none running before after exiting)

/-- The sections of `fork` refine the protocol. -/
theorem refines_fork {memory : Memory} (running : (s.proc p).state = .running)
    (advanced : s.advance build p memory = some t)
    (forking : (∃ i, s.pc p = .fork i) ∨ ∃ np, s.pc p = .forkParent np ∨ s.pc p = .forkReady np) :
    Refines s t := by
  rcases forking with ⟨i, position⟩ | ⟨np, position | position⟩ <;>
    simp only [ProcSystem.advance, position] at advanced
  · have plain : Plain (s.pc p) := by
      rw [position]
      exact ⟨rfl, rfl⟩
    split at advanced
    · split_ifs at advanced with free <;> obtain rfl := Option.some.inj advanced
      · exact refines_forkSlot running position free
      · exact refines_goto running plain ⟨rfl, rfl⟩ fun impossible => (nomatch impossible)
    · obtain rfl := Option.some.inj advanced
      exact refines_ret running plain
  · split_ifs at advanced with free
    obtain rfl := Option.some.inj advanced
    have adopted := TreeStep.adopt (t := tree s) p np position free
    rw [Refines, tree_goto, tree_setParent s np (forkParent p (s.proc np)) rfl rfl rfl]
    exact .single adopted
  · obtain rfl := Option.some.inj advanced
    have ready := TreeStep.ready (t := tree s) p np position
    have after : tree (s.setProc np (forkReady build s.ticks (s.proc np))) =
        { tree s with state := Function.update (tree s).state np .runnable } := by
      rw [tree_setProc]
      simp [tree, Function.update_eq_self]
    rw [Refines, tree_ret, after]
    exact .single ready

/-- The loop of `reparent` refines the protocol. -/
theorem refines_reparent {memory : Memory} {status : CInt} {i : Nat}
    (advanced : s.advance build p memory = some t) (position : s.pc p = .exitReparent status i) :
    Refines s t := by
  simp only [ProcSystem.advance, position] at advanced
  split at advanced
  · rename_i pp found
    obtain rfl := slotAt_some found
    split_ifs at advanced with child <;> obtain rfl := Option.some.inj advanced
    · have given := TreeStep.give (t := tree s) p status pp position child
      rw [Refines, tree_goto, tree_setParent s pp { s.proc pp with parent := some initproc } rfl rfl rfl]
      exact .single given
    · exact .single (.skip p status pp position child)
  · rename_i ended
    obtain rfl := Option.some.inj advanced
    exact .single (.given p status i position (slotAt_none ended))

/-- The two loops of `wakeup` in `exit` refine the protocol. -/
theorem refines_exitWakeup {memory : Memory} {status : CInt}
    (running : (s.proc p).state = .running) (advanced : s.advance build p memory = some t)
    (waking : (∃ i j, s.pc p = .exitReparentWake status i j) ∨
      ∃ chan j, s.pc p = .exitWakeParent status chan j) : Refines s t := by
  rcases waking with ⟨i, j, position⟩ | ⟨chan, j, position⟩ <;>
    simp only [ProcSystem.advance, position] at advanced
  · split at advanced
    · rename_i target found
      obtain rfl := Option.some.inj advanced
      have still : (s.wakeupAt p target (some initproc)).pc p = .exitReparentWake status i j := by
        simpa using position
      refine .tail (refines_wakeupAt target (some initproc)) (.wakeInit p status i j still ?_)
      intro last
      obtain rfl : target = initproc := Fin.ext ((slotAt_some found).symm.trans last)
      exact wakeupAt_awake running initproc
    · rename_i ended
      obtain rfl := Option.some.inj advanced
      exact .single (.wokenInit p status i j position (slotAt_none ended))
  · split at advanced
    · rename_i target found
      obtain rfl := Option.some.inj advanced
      have still : (s.wakeupAt p target chan).pc p = .exitWakeParent status chan j := by
        simpa using position
      refine .tail (refines_wakeupAt target chan) (.wakeParent p status chan j still ?_)
      rintro q rfl last
      obtain rfl : target = q := Fin.ext ((slotAt_some found).symm.trans last.symm)
      exact wakeupAt_awake running target
    · rename_i ended
      obtain rfl := Option.some.inj advanced
      exact .single (.wokenParent p status chan j position (slotAt_none ended))

/-- `wait` frees an exited child or leaves it after a failed copy. -/
theorem refines_reap {memory : Memory} {call : WaitCall} {pp : Slot} {kids : Bool}
    (position : s.pc p = .waitScan call pp.val kids) (child : (s.proc pp).parent = some p)
    (dead : (s.proc pp).state = .zombie) : Refines s (s.reap build p pp call memory) := by
  unfold ProcSystem.reap
  split_ifs
  · rw [Refines, tree_ret]
    exact .single (.leave p call pp.val kids position)
  · rw [Refines, tree_ret, tree_setProc]
    exact .single (.reap p call pp kids position child dead)

/-- The sections of `wait` and `waitx` refine the protocol. -/
theorem refines_waitScan {memory : Memory} {call : WaitCall} {i : Nat} {kids : Bool}
    (advanced : s.advance build p memory = some t) (position : s.pc p = .waitScan call i kids) :
    Refines s t := by
  simp only [ProcSystem.advance, position] at advanced
  split at advanced
  · rename_i pp found
    obtain rfl := slotAt_some found
    split_ifs at advanced with child dead <;> obtain rfl := Option.some.inj advanced
    · exact refines_reap position child dead
    · exact .single (.pass p call pp kids true position fun _ => dead)
    · exact .single (.pass p call pp kids kids position fun parent => absurd parent child)
  · rename_i ended
    split_ifs at advanced with done <;> obtain rfl := Option.some.inj advanced
    · rw [Refines, tree_ret]
      exact .single (.leave p call i kids position)
    · exact .single (.tire p call i kids position (slotAt_none ended))

/-- Every section of a call refines the protocol. -/
theorem refines_advance {memory : Memory} (running : (s.proc p).state = .running)
    (advanced : s.advance build p memory = some t) (inv : TreeInv (tree s)) : Refines s t := by
  cases position : s.pc p with
  | user =>
      simp only [ProcSystem.advance, position] at advanced
      cases advanced
  | fork i => exact refines_fork running advanced (.inl ⟨i, position⟩)
  | forkParent np => exact refines_fork running advanced (.inr ⟨np, .inl position⟩)
  | forkReady np => exact refines_fork running advanced (.inr ⟨np, .inr position⟩)
  | exitClose status =>
      simp only [ProcSystem.advance, position] at advanced
      obtain rfl := Option.some.inj advanced
      have closed : tree (s.setProc p (exitClose (s.proc p))) = tree s :=
        tree_setProc_same s p rfl rfl rfl
      rw [Refines, tree_goto, closed]
      exact refines_goto running (by rw [position]; exact ⟨rfl, rfl⟩) ⟨rfl, rfl⟩
        fun _ => inv.exitNotInit p (by rw [show (tree s).pc p = _ from position]; rfl)
  | exitLock status =>
      simp only [ProcSystem.advance, position] at advanced
      split_ifs at advanced with free
      obtain rfl := Option.some.inj advanced
      exact .single (.enterExit p status running position free)
  | exitReparent status i => exact refines_reparent advanced position
  | exitReparentWake status i j =>
      exact refines_exitWakeup running advanced (.inl ⟨i, j, position⟩)
  | exitWakeParent status chan j =>
      exact refines_exitWakeup running advanced (.inr ⟨chan, j, position⟩)
  | exitZombie status =>
      simp only [ProcSystem.advance, position] at advanced
      obtain rfl := Option.some.inj advanced
      have died := TreeStep.die (t := tree s) p status position
      have after : tree (({ s with waitLock := none } : ProcSystem).setProc p
          (exitZombie s.ticks status (s.proc p))) =
          { tree s with state := Function.update (tree s).state p .zombie, lock := none } := by
        rw [tree_setProc]
        simp [tree, exitZombie, Function.update_eq_self]
      rw [Refines, tree_goto, after]
      exact .single died
  | waitLock call =>
      simp only [ProcSystem.advance, position] at advanced
      split_ifs at advanced with free
      obtain rfl := Option.some.inj advanced
      exact .single (.enterWait p call running position free)
  | waitScan call i kids => exact refines_waitScan advanced position
  | waitSleep call =>
      simp only [ProcSystem.advance, position] at advanced
      obtain rfl := Option.some.inj advanced
      have slept := TreeStep.sleep (t := tree s) p call position
      have after : tree (({ s with waitLock := none } : ProcSystem).setProc p
          { s.proc p with chan := some (.proc p), state := .sleeping }) =
          { tree s with
            state := Function.update (tree s).state p .sleeping
            chan := Function.update (tree s).chan p (some (.proc p))
            lock := none } := by
        rw [tree_setProc]
        simp [tree, Function.update_eq_self]
      rw [Refines, tree_goto, after]
      exact .single slept
  | waitAsleep call | asleep =>
      simp only [ProcSystem.advance, position] at advanced
      obtain rfl := Option.some.inj advanced
      exact refines_tidy running (by rw [position]; exact ⟨rfl, rfl⟩) ⟨rfl, rfl⟩
        fun impossible => by cases impossible
  | kill pid i =>
      have plain : Plain (s.pc p) := by
        rw [position]
        exact ⟨rfl, rfl⟩
      simp only [ProcSystem.advance, position] at advanced
      split at advanced
      · rename_i target found
        split_ifs at advanced with hit <;> obtain rfl := Option.some.inj advanced
        · have still : ((s.setProc target (killSlot (s.proc target))).proc p).state = .running := by
            by_cases same : p = target
            · subst same
              simp [ProcSystem.setProc, killSlot, running]
            · simpa [ProcSystem.setProc, same] using running
          exact (refines_kill target).trans (refines_ret still plain)
        · exact refines_goto running plain ⟨rfl, rfl⟩ fun impossible => by cases impossible
      · obtain rfl := Option.some.inj advanced
        exact refines_ret running plain

/-- The start of a call refines the protocol. -/
theorem refines_start {call : Call} (user : s.InUser p) (started : s.start p call = some t) :
    Refines s t := by
  obtain ⟨running, position⟩ := user
  have plain : Plain (s.pc p) := by
    rw [position]
    exact ⟨rfl, rfl⟩
  cases call with
  | fork | wait | kill =>
      obtain rfl := Option.some.inj started
      exact refines_goto running plain ⟨rfl, rfl⟩ fun impossible => (nomatch impossible)
  | exit status =>
      simp only [ProcSystem.start] at started
      split_ifs at started with first
      obtain rfl := Option.some.inj started
      exact refines_goto running plain ⟨rfl, rfl⟩ fun _ => first
  | sleep chan =>
      have dozed (other : chan ≠ .proc p) : Refines s
          ((s.setProc p { s.proc p with chan := some chan, state := .sleeping }).goto p .asleep) := by
        have after : tree (s.setProc p { s.proc p with chan := some chan, state := .sleeping }) =
            { tree s with
              state := Function.update (tree s).state p .sleeping
              chan := Function.update (tree s).chan p (some chan) } := by
          rw [tree_setProc]
          simp [tree, Function.update_eq_self]
        rw [Refines, tree_goto, after]
        exact .single (.doze p chan running position other)
      cases chan with
      | proc q => exact (nomatch started)
      | ticks | other address =>
          obtain rfl := Option.some.inj started
          exact dozed (by simp)

end Refines

section Quiet

theorem sysSigalarm_tree {p : Proc} {result : Uint64 × Proc} (called : sysSigalarm p = some result) :
    result.2.state = p.state ∧ result.2.chan = p.chan ∧ result.2.parent = p.parent := by
  unfold sysSigalarm at called
  obtain ⟨frame, _, same⟩ := Option.map_eq_some_iff.mp called
  dsimp only at same
  split_ifs at same <;> rw [← same] <;> exact ⟨rfl, rfl, rfl⟩

theorem sysSigreturn_tree {p : Proc} {result : Uint64 × Proc}
    (called : sysSigreturn p = some result) :
    result.2.state = p.state ∧ result.2.chan = p.chan ∧ result.2.parent = p.parent := by
  obtain ⟨frame, _, same⟩ := Option.map_eq_some_iff.mp called
  rw [← same]
  exact ⟨rfl, rfl, rfl⟩

theorem alarmTick_tree {p q : Proc} {page : Option Trapframe} (ticked : alarmTick page p = some q) :
    q.state = p.state ∧ q.chan = p.chan ∧ q.parent = p.parent := by
  unfold alarmTick at ticked
  dsimp only at ticked
  split_ifs at ticked with armed due
  · split at ticked
    · rw [← Option.some.inj ticked]
      exact ⟨rfl, rfl, rfl⟩
    · exact (nomatch ticked)
  all_goals
    rw [← Option.some.inj ticked]
    exact ⟨rfl, rfl, rfl⟩

theorem updateTime_parent (build : Build) (p : Proc) : (updateTime build p).parent = p.parent := by
  unfold updateTime
  cases build <;> dsimp only <;> split_ifs <;> rfl

theorem aging_parent (ticks : Uint) (p : Proc) : (aging ticks p).parent = p.parent := by
  unfold aging
  split <;> rfl

theorem scanSlot_parent (ticks : Uint) (p : Proc) : (scanSlot ticks p).parent = p.parent := by
  unfold scanSlot
  dsimp only
  split_ifs <;> rfl

end Quiet

/-- Every step of the machine refines the protocol. -/
theorem refines_step {s t : ProcSystem} {build : Build} {event : ProcEvent}
    (inv : TreeInv (tree s)) (stepped : s.Step build event t) : Refines s t := by
  unfold ProcSystem.Step at stepped
  cases event with
  | call p call =>
      simp only [ProcSystem.next] at stepped
      split_ifs at stepped with user
      exact refines_start user stepped
  | advance p memory =>
      simp only [ProcSystem.next] at stepped
      split_ifs at stepped with running
      exact refines_advance running stepped inv
  | run p =>
      simp only [ProcSystem.next] at stepped
      split_ifs at stepped with runnable
      obtain rfl := Option.some.inj stepped
      rw [Refines, tree_setState s p { s.proc p with state := .running } rfl rfl rfl]
      exact .single (.schedule p runnable)
  | yield p =>
      simp only [ProcSystem.next] at stepped
      split_ifs at stepped with running
      obtain rfl := Option.some.inj stepped
      rw [Refines, tree_setState s p { s.proc p with state := .runnable } rfl rfl rfl]
      exact .single (.preempt p running.1 running.2)
  | trap p user | files p ofile cwd | exec p table entry sp size name | demote p =>
      simp only [ProcSystem.next] at stepped
      split_ifs at stepped
      obtain rfl := Option.some.inj stepped
      exact refines_quiet rfl rfl rfl
  | sigalarm p =>
      simp only [ProcSystem.next] at stepped
      split_ifs at stepped
      obtain ⟨result, called, rfl⟩ := Option.map_eq_some_iff.mp stepped
      obtain ⟨state, chan, parent⟩ := sysSigalarm_tree called
      exact refines_quiet state chan parent
  | sigreturn p =>
      simp only [ProcSystem.next] at stepped
      split_ifs at stepped
      obtain ⟨result, called, rfl⟩ := Option.map_eq_some_iff.mp stepped
      obtain ⟨state, chan, parent⟩ := sysSigreturn_tree called
      exact refines_quiet state chan parent
  | alarmTick p page =>
      simp only [ProcSystem.next] at stepped
      split_ifs at stepped
      obtain ⟨result, ticked, rfl⟩ := Option.map_eq_some_iff.mp stepped
      obtain ⟨state, chan, parent⟩ := alarmTick_tree ticked
      exact refines_quiet state chan parent
  | clock =>
      obtain rfl := Option.some.inj stepped
      exact .refl
  | charge i =>
      obtain rfl := Option.some.inj stepped
      exact refines_quiet (updateTime_state _ build) (updateTime_chan _ build)
        (updateTime_parent build _)
  | age i =>
      simp only [ProcSystem.next] at stepped
      split_ifs at stepped
      obtain rfl := Option.some.inj stepped
      exact refines_quiet (aging_state _ _) (aging_chan _ _) (aging_parent _ _)
  | scan i =>
      simp only [ProcSystem.next] at stepped
      split_ifs at stepped
      obtain rfl := Option.some.inj stepped
      exact refines_quiet (scanSlot_state _ _) (scanSlot_chan _ _) (scanSlot_parent _ _)
  | wake chan i =>
      simp only [ProcSystem.next] at stepped
      split at stepped
      · exact (nomatch stepped)
      · obtain rfl := Option.some.inj stepped
        exact refines_wakeup chan i

theorem treeInv_path {t u : Tree} (path : ReflTransGen TreeStep t u) (inv : TreeInv t) :
    TreeInv u := by
  induction path with
  | refl => exact inv
  | tail _ taken ih => exact treeInv_step ih taken

/-- The first process is runnable after `userinit`, and every other slot is unused. -/
theorem boot_state (build : Build) (table cwd : Uint64) (i : Slot) :
    (ProcSystem.boot build table cwd).proc i =
      if i = initproc then userinit build table cwd else Proc.zero := by
  by_cases first : i = initproc
  · subst first
    rfl
  · rw [if_neg first]
    have other : i ≠ 0 := first
    simp [ProcSystem.boot, bootTable, other]

/-- The invariant of the protocol holds after `userinit`. -/
theorem treeInv_boot (build : Build) (table cwd : Uint64) :
    TreeInv (tree (ProcSystem.boot build table cwd)) := by
  have first : (tree (ProcSystem.boot build table cwd)).state initproc = .runnable := by
    cases build <;> rfl
  have others (i : Slot) (other : i ≠ initproc) :
      (tree (ProcSystem.boot build table cwd)).state i = .unused := by
    simp [tree, boot_state, other, Proc.zero]
  have orphans (i : Slot) : (tree (ProcSystem.boot build table cwd)).parent i = none := by
    by_cases same : i = initproc
    · subst same
      cases build <;> rfl
    · simp [tree, boot_state, same, Proc.zero]
  have quiet (i : Slot) : (tree (ProcSystem.boot build table cwd)).pc i = .user := rfl
  refine {
    holder := fun p => by simp [holds, tree, ProcSystem.boot]
    running := fun p held => by simp [quiet, holds] at held
    busy := fun p inCall => absurd (quiet p) inCall
    unborn := fun p np position => by simp [quiet] at position
    born := fun p np position => by simp [quiet] at position
    midwife := fun p q np child => by simp [quiet, newborn] at child
    unused := fun i _ => orphans i
    initAlive := Or.inr (Or.inl first)
    exitNotInit := fun p exiting => by simp [quiet, exits] at exiting
    parentAlive := fun i q parent => by simp [orphans] at parent
    hasParent := fun i other started => ?_
    moved := fun p c below => by simp [quiet, movedBelow] at below
    scanned := fun p c below => by simp [quiet, scannedBelow] at below
    woken := fun p q below => by simp [quiet, wokenBelow] at below
    target := fun p status chan j position => by simp [quiet] at position
    settled := fun p c _ parent => by simp [orphans] at parent }
  rw [others i other] at started
  simp [Alive] at started

end Xv6.ProcTree
