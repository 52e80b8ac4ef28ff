/-
This file gives the invariant of the blocks of a volume. The free map is exact for the blocks that the inodes name.
-/

import Xv6.Lib.FreeMap
import Xv6.Proof.BlockFs.Format

namespace Xv6.BlockFs

open Bytes OnDisk

/-- The first block after the free map. -/
def dataStart (sb : DiskSuperblock) : Nat := sb.size.toNat - sb.nblocks.toNat

/-- The inodes, the free map and the data are behind each other. -/
structure Geometry (sb : DiskSuperblock) : Prop where
  inodes : ∀ k, k < sb.ninodes.toNat → 1 < sb.iblock k ∧ sb.iblock k < sb.bmapstart.toNat
  maps : ∀ b, b < sb.size.toNat → sb.bblock b < dataStart sb
  order : sb.bmapstart.toNat < dataStart sb

/-- The block of an index of an inode, or zero. The last index stands for the indirect block. -/
@[irreducible] def slotOf (sb : DiskSuperblock) (img : Blocks) (nodes : Nat → Dinode) (x : Nat × Nat) : Nat :=
  if x.1 < sb.ninodes.toNat ∧ x.2 ≤ maxfile then (slotBlock img (nodes x.1).addrs x.2).toNat else 0

/-- A byte of a data block. A slot without a block counts as zeros. -/
def cell (sb : DiskSuperblock) (img : Blocks) (nodes : Nat → Dinode) (x : Nat × Nat) (i : Nat) : Byte :=
  if slotOf sb img nodes x = 0 then 0 else img (slotOf sb img nodes x) i

/-- The inodes are those of the disk or their copies in memory. -/
structure Sound (sb : DiskSuperblock) (img : Blocks) (nodes : Nat → Dinode) : Prop where
  map : ExactMap (dataStart sb) sb.size.toNat (fun b => bitOf sb img b = true) (slotOf sb img nodes)
  small : ∀ k, k < sb.ninodes.toNat → (nodes k).size.toNat ≤ maxfile * bsize
  unused : ∀ k, k < sb.ninodes.toNat → (nodes k).type = 0 → (nodes k).size = 0 ∧ ∀ n, slotOf sb img nodes (k, n) = 0

/-- A file without holes. -/
def Whole (sb : DiskSuperblock) (img : Blocks) (nodes : Nat → Dinode) (k : Nat) : Prop :=
  ∀ n, n * bsize < (nodes k).size.toNat → slotOf sb img nodes (k, n) ≠ 0

section Slots

variable {sb : DiskSuperblock} {img next : Blocks} {nodes after : Nat → Dinode} {k n : Nat}

theorem slotOf_inside (small : k < sb.ninodes.toNat) (high : n ≤ maxfile) :
    slotOf sb img nodes (k, n) = (slotBlock img (nodes k).addrs n).toNat := by
  unfold slotOf
  rw [if_pos ⟨small, high⟩]

theorem slotOf_outside (outside : ¬ (k < sb.ninodes.toNat ∧ n ≤ maxfile)) : slotOf sb img nodes (k, n) = 0 := by
  unfold slotOf
  rw [if_neg outside]

/-- A slot with a block is in range. -/
theorem inside_of_slot {x : Nat × Nat} (occupied : slotOf sb img nodes x ≠ 0) : x.1 < sb.ninodes.toNat ∧ x.2 ≤ maxfile := by
  by_contra outside
  exact occupied (slotOf_outside outside)

/-- The slots depend on the addresses of each inode and on its indirect block. -/
theorem slotOf_congr
    (blocks : ∀ j m, j < sb.ninodes.toNat → m ≤ maxfile → slotBlock next (after j).addrs m = slotBlock img (nodes j).addrs m)
    (x : Nat × Nat) : slotOf sb next after x = slotOf sb img nodes x := by
  obtain ⟨j, m⟩ := x
  by_cases inside : j < sb.ninodes.toNat ∧ m ≤ maxfile
  · rw [slotOf_inside inside.1 inside.2, slotOf_inside inside.1 inside.2, blocks j m inside.1 inside.2]
  · rw [slotOf_outside inside, slotOf_outside inside]

/-- The slots of a volume whose indirect blocks are kept. -/
theorem slotOf_kept (kept : ∀ j, j < sb.ninodes.toNat → slotOf sb img nodes (j, maxfile) ≠ 0 → ∀ i, i < bsize →
      next (slotOf sb img nodes (j, maxfile)) i = img (slotOf sb img nodes (j, maxfile)) i) (x : Nat × Nat) :
    slotOf sb next nodes x = slotOf sb img nodes x := by
  apply slotOf_congr
  intro j m small high
  refine slotBlock_congr (fun there i inside => ?_) high
  have last : slotOf sb img nodes (j, maxfile) = ((nodes j).addrs (Fin.last ndirect)).toNat := by
    rw [slotOf_inside small (Nat.le_refl _), slotBlock_last]
  rw [← last]
  refine kept j small ?_ i inside
  rw [last]
  intro zero
  exact there (BitVec.eq_of_toNat_eq zero)

/-- One inode gets one block, and the others are the same. -/
theorem slotOf_update {b : Uint} (small : k < sb.ninodes.toNat) (high : n ≤ maxfile)
    (mine : ∀ m, m ≤ maxfile → slotBlock next (after k).addrs m = if m = n then b else slotBlock img (nodes k).addrs m)
    (others : ∀ j m, j < sb.ninodes.toNat → m ≤ maxfile → j ≠ k →
      slotBlock next (after j).addrs m = slotBlock img (nodes j).addrs m) :
    slotOf sb next after = Function.update (slotOf sb img nodes) (k, n) b.toNat := by
  funext ⟨j, m⟩
  by_cases inside : j < sb.ninodes.toNat ∧ m ≤ maxfile
  · rw [slotOf_inside inside.1 inside.2]
    by_cases same : j = k
    · rw [same, mine m inside.2]
      by_cases index : m = n
      · rw [if_pos index, index, Function.update_self]
      · have other : (k, m) ≠ (k, n) := fun equal => index (Prod.mk.inj equal).2
        rw [if_neg index, Function.update_of_ne other, slotOf_inside small inside.2]
    · have other : (j, m) ≠ (k, n) := fun equal => same (Prod.mk.inj equal).1
      rw [Function.update_of_ne other, others j m inside.1 inside.2 same, slotOf_inside inside.1 inside.2]
  · have other : (j, m) ≠ (k, n) := by
      intro equal
      obtain ⟨rfl, rfl⟩ := Prod.mk.inj equal
      exact inside ⟨small, high⟩
    rw [Function.update_of_ne other, slotOf_outside inside, slotOf_outside inside]

end Slots

section Frames

variable {sb : DiskSuperblock} {img next : Blocks} {nodes : Nat → Dinode}

theorem Geometry.positive (geometry : Geometry sb) : 0 < dataStart sb := Nat.lt_of_le_of_lt (Nat.zero_le _) geometry.order

theorem bmapstart_le (sb : DiskSuperblock) (b : Nat) : sb.bmapstart.toNat ≤ sb.bblock b := Nat.le_add_left _ _

theorem bitOf_congr {b : Nat} (same : next (sb.bblock b) = img (sb.bblock b)) : bitOf sb next b = bitOf sb img b := by
  rw [bitOf, bitOf, same]

namespace Sound

/-- A named block is in the data part. -/
theorem range (sound : Sound sb img nodes) {x : Nat × Nat} (occupied : slotOf sb img nodes x ≠ 0) :
    dataStart sb ≤ slotOf sb img nodes x ∧ slotOf sb img nodes x < sb.size.toNat := sound.map.range x occupied

/-- The slots do not depend on the blocks before the data. -/
theorem slots_of_data (sound : Sound sb img nodes) (same : ∀ b, dataStart sb ≤ b → next b = img b) (x : Nat × Nat) :
    slotOf sb next nodes x = slotOf sb img nodes x := by
  apply slotOf_kept
  intro j _ occupied i _
  rw [same _ (sound.range occupied).1]

/-- The invariant does not depend on the blocks before the free map. -/
theorem frame (sound : Sound sb img nodes) (geometry : Geometry sb)
    (same : ∀ b, sb.bmapstart.toNat ≤ b → next b = img b) : Sound sb next nodes := by
  have slots := sound.slots_of_data fun b high => same b (Nat.le_trans (Nat.le_of_lt geometry.order) high)
  refine ⟨sound.map.congr slots fun b _ => ?_, sound.small, fun k small free => ?_⟩
  · rw [bitOf_congr (same _ (bmapstart_le sb b))]
  · refine ⟨(sound.unused k small free).1, fun n => ?_⟩
    rw [slots]
    exact (sound.unused k small free).2 n

/-- The invariant is about the inodes of the disk only. -/
theorem of_nodes {after : Nat → Dinode} (sound : Sound sb img nodes)
    (same : ∀ k, k < sb.ninodes.toNat → after k = nodes k) : Sound sb img after := by
  have slots (x : Nat × Nat) : slotOf sb img after x = slotOf sb img nodes x := by
    apply slotOf_congr
    intro j m small _
    rw [same j small]
  refine ⟨sound.map.congr slots fun _ _ => Iff.rfl, fun k small => ?_, fun k small free => ?_⟩
  · rw [same k small]
    exact sound.small k small
  · rw [same k small] at free ⊢
    refine ⟨(sound.unused k small free).1, fun n => ?_⟩
    rw [slots]
    exact (sound.unused k small free).2 n

/-- The slots when an inode is replaced by one with the same blocks. -/
theorem slots_renode {k : Nat} {ip : Dinode}
    (same : ∀ m, m ≤ maxfile → slotBlock img ip.addrs m = slotBlock img (nodes k).addrs m)
    (x : Nat × Nat) : slotOf sb img (Function.update nodes k ip) x = slotOf sb img nodes x := by
  apply slotOf_congr
  intro j m _ high
  by_cases mine : j = k
  · rw [mine, Function.update_self, same m high]
  · rw [Function.update_of_ne mine]

/-- An inode is replaced by one with the same blocks. -/
theorem renode (sound : Sound sb img nodes) {k : Nat} {ip : Dinode}
    (same : ∀ m, m ≤ maxfile → slotBlock img ip.addrs m = slotBlock img (nodes k).addrs m)
    (bound : ip.size.toNat ≤ maxfile * bsize)
    (blank : ip.type = 0 → ip.size = 0 ∧ ∀ m, m ≤ maxfile → slotBlock img ip.addrs m = 0) :
    Sound sb img (Function.update nodes k ip) := by
  have slots (x : Nat × Nat) : slotOf sb img (Function.update nodes k ip) x = _ := slots_renode same x
  refine ⟨sound.map.congr slots fun _ _ => Iff.rfl, fun j small => ?_, fun j small free => ?_⟩
  · by_cases mine : j = k
    · rw [mine, Function.update_self]
      exact bound
    · rw [Function.update_of_ne mine]
      exact sound.small j small
  · by_cases mine : j = k
    · subst mine
      rw [Function.update_self] at free ⊢
      refine ⟨(blank free).1, fun n => ?_⟩
      by_cases high : n ≤ maxfile
      · rw [slotOf_inside small high, Function.update_self, (blank free).2 n high]
        rfl
      · exact slotOf_outside fun both => high both.2
    · rw [Function.update_of_ne mine] at free ⊢
      refine ⟨(sound.unused j small free).1, fun n => ?_⟩
      rw [slots]
      exact (sound.unused j small free).2 n

end Sound

end Frames

end Xv6.BlockFs
