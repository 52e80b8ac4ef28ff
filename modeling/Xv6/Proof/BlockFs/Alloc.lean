/-
This file proves what `balloc` and `bfree` do to the free map.
-/

import Xv6.Proof.BlockFs.Sound

namespace Xv6.BlockFs

open Bytes OnDisk Program

section Rules

variable {v : Volume} {stop : Panic → Prop}

@[simp] theorem ensures_bread (b : Nat) {post : ByteMap → Volume → Prop} :
    Ensures (bread b) v post stop ↔ post (v.img b) v := Iff.rfl

@[simp] theorem ensures_fillBuffer (b : Nat) (data : ByteMap) {post : Unit → Volume → Prop} :
    Ensures (fillBuffer b data) v post stop ↔ post () { v with img := Function.update v.img b data } := Iff.rfl

@[simp] theorem ensures_logWrite (b : Nat) {post : Unit → Volume → Prop} :
    Ensures (logWrite b) v post stop ↔ post () { v with logged := insert b v.logged } := Iff.rfl

end Rules

section Bits

theorem mask_bit (i j : Nat) (first : i < 8) (second : j < 8) :
    ((1 : Byte) <<< i).getLsbD j = decide (j = i) := by
  have all : ∀ i j : Fin 8, ((1 : Byte) <<< i.val).getLsbD j.val = decide (j.val = i.val) := by decide
  exact all ⟨i, first⟩ ⟨j, second⟩

variable (sb : DiskSuperblock) (img : Blocks)

/-- The image in which the byte of a block in the free map is replaced. -/
def withByte (b : Nat) (byte : Byte) : Blocks :=
  Function.update img (sb.bblock b) (Function.update (img (sb.bblock b)) (b % bpb / 8) byte)

/-- The byte of a block in the free map. -/
def byteOfBlock (b : Nat) : Byte := img (sb.bblock b) (b % bpb / 8)

/-- The image in which a block is marked and zeroed. -/
def taken (b : Nat) : Blocks := Function.update (withByte sb img b (byteOfBlock sb img b ||| mask b)) b fun _ => 0

variable {sb img} {b c : Nat}

theorem withByte_other (byte : Byte) (other : c ≠ sb.bblock b) : withByte sb img b byte c = img c :=
  Function.update_of_ne other _ _

/-- The bit of a block after the byte of another block is replaced. -/
theorem bitOf_withByte (byte : Byte) : bitOf sb (withByte sb img b byte) c =
    if c / bpb = b / bpb ∧ c % bpb / 8 = b % bpb / 8 then byte.getLsbD (c % bpb % 8) else bitOf sb img c := by
  by_cases block : c / bpb = b / bpb
  · have same : sb.bblock c = sb.bblock b := by rw [DiskSuperblock.bblock, DiskSuperblock.bblock, block]
    rw [bitOf, bitOf, same, withByte, Function.update_self]
    by_cases index : c % bpb / 8 = b % bpb / 8
    · rw [if_pos ⟨block, index⟩, index, Function.update_self]
    · rw [if_neg fun both => index both.2, Function.update_of_ne index]
  · have other : sb.bblock c ≠ sb.bblock b := fun same => block (Nat.add_right_cancel same)
    rw [if_neg fun both => block both.1, bitOf_congr (withByte_other byte other)]

/-- Blocks of one byte of the free map with one bit are the same. -/
theorem same_block : (c / bpb = b / bpb ∧ c % bpb / 8 = b % bpb / 8) ∧ c % bpb % 8 = b % bpb % 8 ↔ c = b := by
  show (c / 8192 = b / 8192 ∧ c % 8192 / 8 = b % 8192 / 8) ∧ c % 8192 % 8 = b % 8192 % 8 ↔ c = b
  omega

theorem mask_getLsbD : (mask b).getLsbD (c % bpb % 8) = decide (c % bpb % 8 = b % bpb % 8) :=
  mask_bit _ _ (Nat.mod_lt _ (by decide)) (Nat.mod_lt _ (by decide))

theorem bitOf_mark : bitOf sb (withByte sb img b (byteOfBlock sb img b ||| mask b)) c = true ↔
    bitOf sb img c = true ∨ c = b := by
  rw [bitOf_withByte, ← same_block (c := c) (b := b)]
  split_ifs with same
  · have block : sb.bblock c = sb.bblock b := by rw [DiskSuperblock.bblock, DiskSuperblock.bblock, same.1]
    rw [BitVec.getLsbD_or, mask_getLsbD, byteOfBlock, bitOf, block, same.2]
    simp [same]
  · simp [same]

theorem bitOf_taken (geometry : Geometry sb) (data : dataStart sb ≤ b) (inside : c < sb.size.toNat) :
    bitOf sb (taken sb img b) c = true ↔ bitOf sb img c = true ∨ c = b := by
  have other : sb.bblock c ≠ b := Nat.ne_of_lt (Nat.lt_of_lt_of_le (geometry.maps c inside) data)
  rw [taken, bitOf_congr (Function.update_of_ne other _ _), bitOf_mark]

theorem taken_other (other : c ≠ b) (block : c ≠ sb.bblock b) : taken sb img b c = img c := by
  rw [taken, Function.update_of_ne other, withByte_other _ block]

theorem taken_self : taken sb img b b = fun _ => 0 := Function.update_self ..

end Bits

section Calls

variable {sb : DiskSuperblock} {v : Volume} {stop : Panic → Prop}

/-- The volume after a block is taken. -/
def Volume.take (sb : DiskSuperblock) (v : Volume) (b : Nat) : Volume :=
  ⟨taken sb v.img b, insert b (insert (sb.bblock b) v.logged)⟩

/-- The disk has no free block. -/
def Full (sb : DiskSuperblock) (img : Blocks) : Prop := ∀ b, b < sb.size.toNat → bitOf sb img b = true

theorem balloc_spec : Ensures (balloc sb) v
    (fun addr t => (addr = 0 ∧ t = v ∧ Full sb v.img) ∨
      ∃ b, b < sb.size.toNat ∧ bitOf sb v.img b = false ∧ addr = BitVec.ofNat 32 b ∧ t = v.take sb b) stop := by
  rw [balloc, ensures_bind, ensures_get]
  cases found : (List.range sb.size.toNat).find? fun b => !bitOf sb v.img b with
  | none =>
      refine .inl ⟨rfl, rfl, fun b inside => ?_⟩
      have set := List.find?_eq_none.mp found b (List.mem_range.mpr inside)
      simpa using set
  | some b =>
      have inside := List.mem_range.mp (List.mem_of_find?_eq_some found)
      have clear := List.find?_some found
      simp only [bzero, ensures_bind, ensures_bread, ensures_fillBuffer, ensures_logWrite, ensures_pure]
      exact .inr ⟨b, inside, by simpa using clear, rfl, rfl⟩

end Calls

end Xv6.BlockFs
