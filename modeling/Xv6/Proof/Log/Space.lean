import Xv6.Proof.Log.Crash

namespace Xv6.Log
open RedoLog TransitionSystem

/-- The number of different blocks among the updates. -/
def distinct (updates : List Update) : Nat := (updates.map Update.blockno).dedup.length

/-- The number of different blocks that one operation has logged. An operation runs within one
transaction, so all its updates are current. -/
def opBlocks (op : Nat) (updates : List Update) : Nat :=
  distinct (updates.filter fun update => update.op == op)

/-- The event keeps its operation within the promised number of blocks. -/
def Within (w : LogSystem) : LogEvent → Prop
  | .logWrite op b data => opBlocks op (w.current ++ [⟨op, b, data⟩]) ≤ maxopblocks
  | _ => True

instance (w : LogSystem) (event : LogEvent) : Decidable (Within w event) := by
  cases event <;> unfold Within <;> infer_instance

/-- A step of operations that all keep their promise. -/
def BoundedStep (sb : Superblock) (w : LogSystem) (event : LogEvent) (v : LogSystem) : Prop :=
  LogSystem.Step sb w event v ∧ Within w event

/-- The header in memory lists every block of the current transaction once. -/
theorem Open.length_eq {sb : Superblock} {store : Store} {lh : List Nat} {state : Nat → Block}
    {current : List Update} (opened : Open sb store lh state current) :
    lh.length = distinct current := by
  have same : lh.Perm (current.map Update.blockno).dedup := by
    refine (List.perm_ext_iff_of_nodup opened.nodup (List.nodup_dedup _)).mpr fun b => ?_
    rw [opened.members, List.mem_dedup, List.mem_map]
  exact same.length_eq

/-- The header in memory never outgrows the log on disk. -/
theorem Agrees.fits {sb : Superblock} {s : LogState} {state : Nat → Block} {current : List Update}
    (agrees : Agrees sb s state current) : s.lh.length ≤ (redoArea sb).room := by
  obtain ⟨addrs, stable, phase⟩ := agrees
  cases position : s.pc with
  | idle | finish =>
      simp only [Phase, position] at phase
      exact phase.2.fits
  | writeLog | writeHead =>
      simp only [Phase, position] at phase
      exact phase.2.1.fits
  | install recovering tail | erase recovering =>
      cases recovering <;> simp only [Phase, position] at phase <;> exact phase.1 ▸ stable.fits
  | down =>
      simp only [Phase, position] at phase
      simp [phase.2.1]

/-- `log_write` panics for space exactly when the header is full. -/
theorem logWrite_tooBig {sb : Superblock} {s : LogState} {b : Nat} {data : Block} :
    s.logWrite sb b data = .error .tooBig ↔ (redoArea sb).room ≤ s.lh.length := by
  unfold LogState.logWrite
  dsimp only
  simp only [redoArea]
  split_ifs with big outside logged <;> simp <;> omega

/-- In every run of operations that keep their promise, the header in memory fits the log on disk,
and a call of `log_write` fits exactly when the transaction has fewer different blocks than the log
has data blocks. -/
theorem log_space_iff (disk : Nat → Block) (clear : readHead (disk mkfsSuperblock.logstart) = [])
    (w : LogSystem) (reached : Reachable (BoundedStep mkfsSuperblock) (LogSystem.start disk) w) :
    w.log.lh.length ≤ mkfsSuperblock.nlog - 1 ∧
    ∀ op ∈ w.active, ∀ b data, Within w (.logWrite op b data) →
      (w.log.logWrite mkfsSuperblock b data ≠ .error .tooBig ↔
        distinct w.current < mkfsSuperblock.nlog - 1) := by
  have inv := logInv_reachable clear (reached.mono fun _ _ _ stepped => stepped.1)
  have room : (redoArea mkfsSuperblock).room = mkfsSuperblock.nlog - 1 := rfl
  refine ⟨room ▸ inv.agrees.fits, fun op active b data _ => ?_⟩
  obtain ⟨addrs, _, phase⟩ := inv.agrees
  simp only [Phase, inv.ops.idle active] at phase
  rw [ne_eq, logWrite_tooBig, room, phase.2.length_eq, Nat.not_le]

/-- Two operations have logged a block each. -/
def twoOperations : LogSystem :=
  [LogEvent.advance, .advance, .advance, .beginOp, .beginOp, .logWrite 0 100 fun _ => 0,
    .logWrite 1 101 fun _ => 0].foldl (LogSystem.after mkfsSuperblock) (LogSystem.start fun _ _ => 0)

theorem bounded_step (sb : Superblock) (w : LogSystem) (event : LogEvent)
    (legal : (w.legal sb event && decide (Within w event)) = true) :
    BoundedStep sb w event (w.after sb event) := by
  obtain ⟨stepped, within⟩ := Bool.and_eq_true_iff.mp legal
  exact ⟨LogSystem.legal_step sb w event stepped, of_decide_eq_true within⟩

/-- The second operation finds room for a third block. -/
theorem log_space_third_block :
    distinct twoOperations.current = 2 ∧ twoOperations.log.lh.length ≤ mkfsSuperblock.nlog - 1 ∧
      twoOperations.log.logWrite mkfsSuperblock 102 (fun _ => 0) ≠ .error .tooBig := by
  have space := log_space_iff (fun _ _ => 0) (by decide) twoOperations
    (reachable_of_plays (bounded_step mkfsSuperblock) (by decide +kernel))
  have two : distinct twoOperations.current = 2 := by decide +kernel
  refine ⟨two, space.1, (space.2 1 (by decide +kernel) 102 _ (by decide +kernel)).mpr ?_⟩
  rw [two]
  decide

section Full

/-- Three operations start, and log twenty-nine different blocks between them. -/
def threeOperations : List LogEvent :=
  [.advance, .advance, .advance, .beginOp, .beginOp, .beginOp] ++
    (List.range 29).map fun i => .logWrite (i / 10) (100 + i) fun _ => 0

def nearlyFull : LogSystem :=
  threeOperations.foldl (LogSystem.after mkfsSuperblock) (LogSystem.start fun _ _ => 0)

/-- The third operation panics when it logs its tenth block. -/
theorem third_operation_panics :
    ∃ w, Reachable (BoundedStep mkfsSuperblock) (LogSystem.start fun _ _ => 0) w ∧
      2 ∈ w.active ∧ mkfsSuperblock.Home 129 ∧ Within w (.logWrite 2 129 fun _ => 0) ∧
      w.log.logWrite mkfsSuperblock 129 (fun _ => 0) = .error .tooBig := by
  refine ⟨nearlyFull, reachable_of_plays (bounded_step mkfsSuperblock) (by decide +kernel),
    by decide +kernel, by decide, by decide +kernel, ?_⟩
  exact logWrite_tooBig.mpr (by decide +kernel)

end Full

end Xv6.Log
