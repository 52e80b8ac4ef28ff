import Xv6.Proof.Tree.Protocol

namespace Xv6.ProcTree

/-- The invariant of the protocol. -/
structure TreeInv (t : Tree) : Prop where
  holder : ∀ p, holds (t.pc p) = true ↔ t.lock = some p
  running : ∀ p, holds (t.pc p) = true → t.state p = .running
  busy : ∀ p, t.pc p ≠ .user → Alive (t.state p)
  unborn : ∀ p np, t.pc p = .forkParent np → t.state np = .used ∧ t.parent np = none
  born : ∀ p np, t.pc p = .forkReady np → t.state np = .used ∧ t.parent np = some p
  midwife : ∀ p q np, newborn (t.pc p) = some np → newborn (t.pc q) = some np → p = q
  unused : ∀ i, t.state i = .unused → t.parent i = none
  initAlive : Alive (t.state initproc)
  exitNotInit : ∀ p, exits (t.pc p) = true → p ≠ initproc
  parentAlive : ∀ i q, t.parent i = some q → Alive (t.state q)
  hasParent : ∀ i, i ≠ initproc → Alive (t.state i) ∨ t.state i = .zombie → t.parent i ≠ none
  moved : ∀ p c, c.val < movedBelow (t.pc p) → t.parent c ≠ some p
  scanned : ∀ p c, c.val < scannedBelow (t.pc p) → t.parent c = some p → t.state c ≠ .zombie
  woken : ∀ p q, q.val < wokenBelow (t.pc p) → t.parent p = some q → ¬ t.Waiting q
  target : ∀ p status chan j, t.pc p = .exitWakeParent status chan j → chan = t.parent p
  settled : ∀ p c, t.Waiting p → t.parent c = some p → t.state c = .zombie →
    p = initproc ∧ t.rousing = true

/-- Only a section that holds the lock has given children away. -/
theorem holds_of_moved {pc : CallPc} {n : Nat} (below : n < movedBelow pc) : holds pc = true := by
  cases pc <;> first | rfl | exact absurd below (Nat.not_lt_zero n)

/-- Only a section that holds the lock has scanned children. -/
theorem holds_of_scanned {pc : CallPc} {n : Nat} (below : n < scannedBelow pc) :
    holds pc = true := by
  cases pc <;> first | rfl | exact absurd below (Nat.not_lt_zero n)

/-- Only a section that holds the lock has woken a parent. -/
theorem holds_of_woken {pc : CallPc} {n : Nat} (below : n < wokenBelow pc) : holds pc = true := by
  cases pc <;> first | rfl | exact absurd below (Nat.not_lt_zero n)

/-- A newborn child is in use and has not run. -/
theorem TreeInv.newborn_used {t : Tree} (inv : TreeInv t) {p np : Slot}
    (child : newborn (t.pc p) = some np) : t.state np = .used := by
  cases position : t.pc p with
  | forkParent slot =>
      rw [position] at child
      exact Option.some.inj child ▸ (inv.unborn p slot position).1
  | forkReady slot =>
      rw [position] at child
      exact Option.some.inj child ▸ (inv.born p slot position).1
  | _ =>
      rw [position] at child
      exact (nomatch child)

section Step

variable {t u : Tree}

theorem holder_step (inv : TreeInv t) (stepped : TreeStep t u) :
    ∀ p, holds (u.pc p) = true ↔ u.lock = some p := by
  have holder := inv.holder
  cases stepped <;> grind [Plain, holds]

theorem running_step (inv : TreeInv t) (stepped : TreeStep t u) :
    ∀ p, holds (u.pc p) = true → u.state p = .running := by
  have holder := inv.holder
  have running := inv.running
  have born := inv.born
  cases stepped <;> grind [Plain, holds]

theorem busy_step (inv : TreeInv t) (stepped : TreeStep t u) :
    ∀ p, u.pc p ≠ .user → Alive (u.state p) := by
  have busy := inv.busy
  have running := inv.running
  have born := inv.born
  cases stepped <;> grind [Plain, holds, Alive]

/-- A child that `fork` has allocated stays without a parent until it is adopted. -/
theorem unborn_step (inv : TreeInv t) (stepped : TreeStep t u) :
    ∀ p np, u.pc p = .forkParent np → u.state np = .used ∧ u.parent np = none := by
  have unborn := inv.unborn
  have midwife := inv.midwife
  have used := @inv.newborn_used
  have unused := inv.unused
  have running := inv.running
  cases stepped <;> grind [Plain, holds, newborn]

/-- An adopted child stays with the parent that forks it until it is made runnable. -/
theorem born_step (inv : TreeInv t) (stepped : TreeStep t u) :
    ∀ p np, u.pc p = .forkReady np → u.state np = .used ∧ u.parent np = some p := by
  have born := inv.born
  have unborn := inv.unborn
  have midwife := inv.midwife
  have running := inv.running
  cases stepped <;> grind [Plain, holds, newborn]

/-- No two forks hold the same newborn child. -/
theorem midwife_step (inv : TreeInv t) (stepped : TreeStep t u) :
    ∀ p q np, newborn (u.pc p) = some np → newborn (u.pc q) = some np → p = q := by
  have midwife := inv.midwife
  have used := @inv.newborn_used
  cases stepped <;> grind [Plain, newborn]

theorem unused_step (inv : TreeInv t) (stepped : TreeStep t u) :
    ∀ i, u.state i = .unused → u.parent i = none := by
  have unused := inv.unused
  have unborn := inv.unborn
  cases stepped <;> grind

/-- The first process never exits. -/
theorem init_step (inv : TreeInv t) (stepped : TreeStep t u) :
    Alive (u.state initproc) ∧ ∀ p, exits (u.pc p) = true → p ≠ initproc := by
  have alive := inv.initAlive
  have exiting := inv.exitNotInit
  have born := inv.born
  refine ⟨?_, ?_⟩
  · cases stepped with
    | die p status position =>
        have different : initproc ≠ p := (exiting p (by rw [position]; rfl)).symm
        simpa only [Function.update_of_ne different] using alive
    | reap p call pp kids position parent dead =>
        have different : initproc ≠ pp := fun same => by
          rw [← same] at dead
          rcases alive with state | state | state <;> rw [state] at dead <;> cases dead
        simpa only [Function.update_of_ne different] using alive
    | _ => grind [Alive]
  · cases stepped <;> grind [Plain, exits]

/-- A process that dies has given all its children away. -/
theorem parentAlive_step (inv : TreeInv t) (stepped : TreeStep t u) :
    ∀ i q, u.parent i = some q → Alive (u.state q) := by
  have alive := inv.parentAlive
  have busy := inv.busy
  have initAlive := inv.initAlive
  have born := inv.born
  cases stepped with
  | die p status position =>
      intro i q parent
      have different : q ≠ p := fun same =>
        inv.moved p i (by rw [position]; exact i.isLt) (same ▸ parent)
      simpa only [Function.update_of_ne different] using alive i q parent
  | _ => grind [Alive]

theorem hasParent_step (inv : TreeInv t) (stepped : TreeStep t u) :
    ∀ i, i ≠ initproc → Alive (u.state i) ∨ u.state i = .zombie → u.parent i ≠ none := by
  have parented := inv.hasParent
  have unborn := inv.unborn
  have born := inv.born
  have running := inv.running
  cases stepped <;> grind [Alive, holds]

theorem moved_step (inv : TreeInv t) (stepped : TreeStep t u) :
    ∀ p c, c.val < movedBelow (u.pc p) → u.parent c ≠ some p := by
  have moved := inv.moved
  have holder := inv.holder
  have exiting := inv.exitNotInit
  cases stepped <;> grind [Plain, movedBelow, holds, exits, holds_of_moved]

theorem scanned_step (inv : TreeInv t) (stepped : TreeStep t u) :
    ∀ p c, c.val < scannedBelow (u.pc p) → u.parent c = some p → u.state c ≠ .zombie := by
  have scanned := inv.scanned
  have holder := inv.holder
  cases stepped <;> grind [Plain, scannedBelow, holds, holds_of_scanned]

theorem woken_step (inv : TreeInv t) (stepped : TreeStep t u) :
    ∀ p q, q.val < wokenBelow (u.pc p) → u.parent p = some q → ¬ u.Waiting q := by
  have woken := inv.woken
  have holder := inv.holder
  have target := inv.target
  cases stepped with
  | wokenParent p status chan j position finished =>
      intro q r below parent waiting
      by_cases same : q = p
      · subst same
        have bound : r.val < wokenBelow (t.pc q) := by
          rw [position]
          exact Nat.lt_of_lt_of_le r.isLt finished
        exact woken q r bound parent waiting
      · exact woken q r (by simpa [same] using below) parent waiting
  | _ => grind [Plain, wokenBelow, holds, Tree.Waiting, holds_of_woken]

theorem target_step (inv : TreeInv t) (stepped : TreeStep t u) :
    ∀ p status chan j, u.pc p = .exitWakeParent status chan j → chan = u.parent p := by
  have target := inv.target
  have holder := inv.holder
  have busy := inv.busy
  cases stepped <;> grind [Plain, holds, Alive]

/-- A process goes to sleep in `wait` only after it has seen no exited child, and a child exits only
after it has woken its parent. -/
theorem settled_step (inv : TreeInv t) (stepped : TreeStep t u) :
    ∀ p c, u.Waiting p → u.parent c = some p → u.state c = .zombie →
      p = initproc ∧ u.rousing = true := by
  have settled := inv.settled
  have holder := inv.holder
  have unborn := inv.unborn
  cases stepped with
  | die p status position =>
      intro q c waiting parent dead
      have alive : q ≠ p := fun same => by simp [Tree.Waiting, same] at waiting
      have before : t.Waiting q := by simpa [Tree.Waiting, alive] using waiting
      by_cases same : c = p
      · subst same
        exact absurd before (inv.woken c q (by rw [position]; exact q.isLt) parent)
      · have zombie : t.state c = .zombie := by simpa [same] using dead
        have locked := (inv.holder p).mp (by rw [position]; rfl)
        have rousing := (settled q c before parent zombie).2
        simp [Tree.rousing, locked, position, rouses] at rousing
  | sleep p call position =>
      intro q c waiting parent dead
      have zombie : t.state c = .zombie := by
        by_cases same : c = p
        · simp [same] at dead
        · simpa [same] using dead
      by_cases same : q = p
      · subst same
        exact absurd zombie (inv.scanned q c (by rw [position]; exact c.isLt) parent)
      · have before : t.Waiting q := by simpa [Tree.Waiting, same] using waiting
        have locked := (inv.holder p).mp (by rw [position]; rfl)
        have rousing := (settled q c before parent zombie).2
        simp [Tree.rousing, locked, position, rouses] at rousing
  | _ => grind [Plain, holds, Tree.Waiting, Tree.rousing, rouses]

/-- Every step of the protocol keeps its invariant. -/
theorem treeInv_step (inv : TreeInv t) (stepped : TreeStep t u) : TreeInv u :=
  have init := init_step inv stepped
  { holder := holder_step inv stepped
    running := running_step inv stepped
    busy := busy_step inv stepped
    unborn := unborn_step inv stepped
    born := born_step inv stepped
    midwife := midwife_step inv stepped
    unused := unused_step inv stepped
    initAlive := init.1
    exitNotInit := init.2
    parentAlive := parentAlive_step inv stepped
    hasParent := hasParent_step inv stepped
    moved := moved_step inv stepped
    scanned := scanned_step inv stepped
    woken := woken_step inv stepped
    target := target_step inv stepped
    settled := settled_step inv stepped }

end Step

/-- With `wait_lock` free, every process has a live parent and no waiting process has an exited
child. -/
theorem TreeInv.free {t : Tree} (inv : TreeInv t) (free : t.lock = none) :
    (∀ i, i ≠ initproc → Alive (t.state i) ∨ t.state i = .zombie →
      ∃ q, t.parent i = some q ∧ Alive (t.state q)) ∧
    ∀ p c, t.Waiting p → t.parent c = some p → t.state c ≠ .zombie := by
  refine ⟨fun i other started => ?_, fun p c waiting parent dead => ?_⟩
  · obtain ⟨q, parent⟩ := Option.ne_none_iff_exists'.mp (inv.hasParent i other started)
    exact ⟨q, parent, inv.parentAlive i q parent⟩
  · have rousing := (inv.settled p c waiting parent dead).2
    simp [Tree.rousing, free] at rousing

end Xv6.ProcTree
