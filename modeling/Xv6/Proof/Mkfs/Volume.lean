/-
This file connects the images of `mkfs` with the invariant of the kernel's volumes.
-/

import Xv6.Proof.BlockFs.Read
import Xv6.Proof.Mkfs.Consistent

namespace Xv6.Mkfs

open Bytes OnDisk BlockFs

theorem dataStart_sb : dataStart sb = nmeta := by decide

theorem geometry_sb : Geometry sb := by
  refine ⟨fun k small => ?_, fun b small => ?_, by decide⟩
  · have bound : k < 200 := small
    show 1 < k / 16 + 32 ∧ k / 16 + 32 < 45
    omega
  · have bound : b < 2000 := small
    show b / 8192 + 45 < 46
    omega

variable {files : List HostFile} {s : State}

theorem slotOf_needed (final : Final files s) (x : Nat × Nat) :
    slotOf sb s.img (dinode sb s.img) x ≠ 0 ↔ x ∈ needed (dataOf files) := by
  obtain ⟨k, n⟩ := x
  by_cases inside : k < ninodes ∧ n ≤ maxfile
  · have present := final.layout.present k n inside.1 inside.2
    rw [slotOf_inside inside.1 inside.2, ← present]
    refine not_congr ⟨fun zero => ?_, fun zero => ?_⟩
    · exact BitVec.eq_of_toNat_eq zero
    · rw [zero]
      rfl
  · rw [slotOf_outside inside]
    refine ⟨fun never => absurd rfl never, fun member => ?_⟩
    rw [mem_needed] at member
    exact absurd ⟨member.1.1, Nat.lt_succ_iff.mp member.1.2⟩ inside

theorem slotOf_block (x : Nat × Nat) (named : slotOf sb s.img (dinode sb s.img) x ≠ 0) :
    slotOf sb s.img (dinode sb s.img) x = (slotBlock s.img (dinode sb s.img x.1).addrs x.2).toNat :=
  slotOf_inside (inside_of_slot named).1 (inside_of_slot named).2

/-- An inode without a type is no file. -/
theorem dataOf_unused {k : Nat} (free : typesOf files k = 0) : k ≠ 1 ∧ dataOf files k = [] := by
  have other : k ≠ 1 := by
    intro root
    rw [typesOf, if_pos root] at free
    exact absurd free (by decide)
  rw [typesOf, if_neg other] at free
  refine ⟨other, ?_⟩
  rw [dataOf, if_neg other]
  by_cases low : 2 ≤ k
  · have beyond : ¬ (2 ≤ k ∧ k < files.length + 2) := by
      intro inside
      rw [if_pos inside] at free
      exact absurd free (by decide)
    rw [if_pos low, List.getElem?_eq_none (by omega)]
    rfl
  · rw [if_neg low]

/-- Every block below the counter is used. -/
theorem named_below (final : Final files s) {b : Nat} (low : nmeta ≤ b) (high : b < s.freeblock) :
    ∃ x, slotOf sb s.img (dinode sb s.img) x = b := by
  have layout := final.layout
  by_contra none
  push Not at none
  have image : ((needed (dataOf files)).image fun x => slotOf sb s.img (dinode sb s.img) x) ⊆
      (Finset.Ico nmeta s.freeblock).erase b := by
    intro c member
    obtain ⟨x, inside, rfl⟩ := Finset.mem_image.mp member
    have named := (slotOf_needed final x).mpr inside
    have range := layout.range x.1 x.2 inside
    rw [← slotOf_block x named] at range
    exact Finset.mem_erase.mpr ⟨none x, Finset.mem_Ico.mpr range⟩
  have injective : Set.InjOn (fun x => slotOf sb s.img (dinode sb s.img) x) (needed (dataOf files)) := by
    intro x first y second same
    have left := slotOf_block x ((slotOf_needed final x).mpr first)
    have right := slotOf_block y ((slotOf_needed final y).mpr second)
    obtain ⟨inode, index⟩ := layout.apart x.1 x.2 y.1 y.2 first second (left.symm.trans (same.trans right))
    exact Prod.ext inode index
  have cards := Finset.card_le_card image
  rw [Finset.card_image_of_injOn injective, Finset.card_erase_of_mem (Finset.mem_Ico.mpr ⟨low, high⟩), Nat.card_Ico] at cards
  have count := layout.count
  omega

/-- The image of files whose root directory does not fill its last block. -/
theorem Final.sound (final : Final files s) (few : files.length + 2 ≤ ninodes) (ragged : (files.length + 2) % 64 ≠ 0) :
    BlockFs.Sound sb s.img (dinode sb s.img) := by
  have consistent := final.consistent few ragged
  have layout := final.layout
  have range (x : Nat × Nat) (named : slotOf sb s.img (dinode sb s.img) x ≠ 0) :
      nmeta ≤ slotOf sb s.img (dinode sb s.img) x ∧ slotOf sb s.img (dinode sb s.img) x < s.freeblock := by
    rw [slotOf_block x named]
    exact layout.range x.1 x.2 ((slotOf_needed final x).mp named)
  have room : s.freeblock ≤ sb.size.toNat := consistent.room
  refine ⟨⟨?_, ?_, fun x named => ?_, fun x y named same => ?_, fun b low => ?_, fun b low small => ?_⟩, fun k small => ?_,
    fun k small free => ⟨?_, fun n => ?_⟩⟩
  · decide
  · decide
  · rw [dataStart_sb]
    exact ⟨(range x named).1, Nat.lt_of_lt_of_le (range x named).2 room⟩
  · have other : slotOf sb s.img (dinode sb s.img) y ≠ 0 := by rwa [← same]
    obtain ⟨inode, index⟩ := layout.apart x.1 x.2 y.1 y.2 ((slotOf_needed final x).mp named)
      ((slotOf_needed final y).mp other) (by rw [← slotOf_block x named, ← slotOf_block y other, same])
    exact Prod.ext inode index
  · rw [dataStart_sb] at low
    have below : b < s.freeblock := Nat.lt_of_lt_of_le low layout.free_ge
    exact (consistent.bitmap b (Nat.lt_of_lt_of_le below room)).mpr below
  · rw [dataStart_sb] at low
    rw [consistent.bitmap b small]
    refine ⟨fun below => named_below final low below, ?_⟩
    rintro ⟨x, rfl⟩
    refine (range x fun zero => ?_).2
    rw [zero] at low
    exact absurd low (by decide)
  · by_cases root : k = 1
    · have size := final.root
      rw [roundedSize, rootBytes_length] at size
      have bound : files.length + 2 ≤ 200 := few
      have blocks : (dinode sb s.img 1).size.toNat = ((files.length + 2) * 16 / 1024 + 1) * 1024 := size
      rw [root]
      show _ ≤ 268 * 1024
      omega
    · rw [final.size k small root]
      exact final.fit.small k small
  · rw [final.type k small] at free
    obtain ⟨other, empty⟩ := dataOf_unused free
    have size := final.size k small other
    rw [empty] at size
    exact BitVec.eq_of_toNat_eq size
  · rw [final.type k small] at free
    by_contra named
    have member := (slotOf_needed final (k, n)).mp named
    rw [mem_needed, (dataOf_unused free).2] at member
    have occupied : Occupied 0 n := member.2
    unfold Occupied at occupied
    split_ifs at occupied <;> omega

/-- No file of the image has a hole. -/
theorem Final.whole (final : Final files s) (few : files.length + 2 ≤ ninodes) (ragged : (files.length + 2) % 64 ≠ 0) {k : Nat}
    (small : k < ninodes) : Whole sb s.img (dinode sb s.img) k := by
  intro n inside
  obtain ⟨high, named⟩ := (final.consistent few ragged).mapped k n small inside
  rw [slotOf_inside small (Nat.le_of_lt high)]
  intro zero
  exact named (BitVec.eq_of_toNat_eq zero)

/-- The blocks of an inode hold its bytes. -/
theorem Final.segment_eq (final : Final files s) {k off n : Nat} (small : k < ninodes)
    (inside : off + n ≤ (dataOf files k).length) :
    segment sb s.img (dinode sb s.img) k off n = ((dataOf files k).drop off).take n := by
  apply List.ext_getElem
  · rw [segment_length, List.length_take, List.length_drop]
    omega
  · intro i first second
    rw [segment_length] at first
    obtain ⟨high, used, byte⟩ := final.layout.bytes k (off + i) small (by omega)
    have named := (slotOf_needed final (k, (off + i) / bsize)).mpr used
    rw [List.getElem_take, List.getElem_drop]
    simp only [BlockFs.segment, List.getElem_map, List.getElem_range]
    rw [cell, if_neg named, slotOf_block _ named, byte, List.getD_eq_getElem _ _ (by omega)]

/-- The files of the image. -/
theorem Final.contents_eq (final : Final files s) {k : Nat} (small : k < ninodes) (file : k ≠ 1) :
    contents sb s.img (dinode sb s.img) k = dataOf files k := by
  rw [contents, final.size k small file, final.segment_eq small (by omega), List.drop_zero, List.take_length]

section Examples

/-- The file `aa`. -/
def wordFile : HostFile := namedFile 0

theorem wordFile_acceptable : Acceptable [wordFile] := namedFiles_acceptable (by decide : 1 + 2 ≤ ninodes)

/-- The image with this file. -/
theorem wordFile_image : ∃ s, (main [wordFile]).run start = .ok ((), s) ∧ Final [wordFile] s :=
  main_ok (by decide) wordFile_acceptable

end Examples

end Xv6.Mkfs
