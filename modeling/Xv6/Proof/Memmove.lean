/-
This file shows that the two versions of `memmove` move a range as a whole, however the ranges overlap.
-/

import Xv6.User.Ulib

namespace Xv6

open ByteCopy

/-- The bytes of the source have arrived, and the bytes outside of the destination are as before. -/
structure Moved (m : ByteMemory) (dst src : Uint64) (n : Nat) (after : ByteMemory) : Prop where
  copied : ∀ i, i < n → after (dst + BitVec.ofNat 64 i) = m (src + BitVec.ofNat 64 i)
  kept : ∀ a : Uint64, a.toNat < dst.toNat ∨ dst.toNat + n ≤ a.toNat → after a = m a

variable {m : ByteMemory} {dst src : Uint64} {n : Nat}

theorem moved_whole (inside : dst.toNat + n ≤ 2 ^ 64) : Moved m dst src n (moved m dst src n) where
  copied _ below := moved_inside below (by omega)
  kept _ outside := moved_outside inside outside

/-- A distance that a pointer difference measures. -/
theorem toNat_distance {low high : Uint64} (order : low.toNat ≤ high.toNat) :
    (high - low).toNat = high.toNat - low.toNat := by
  exact BitVec.toNat_sub_of_le (BitVec.le_def.mpr order)

/-- The backward distance wraps around, so it is at least a length that fits. -/
theorem le_toNat_wrapped {low high : Uint64} (order : low.toNat < high.toNat) (inside : high.toNat + n ≤ 2 ^ 64) :
    n ≤ (low - high).toNat := by
  rw [BitVec.toNat_sub, Nat.mod_eq_of_lt (by omega)]
  omega

/-- The kernel's copy moves the range at once. -/
theorem memmove_eq (dst src : Uint64) (n : Uint) (dstInside : dst.toNat + n.toNat ≤ 2 ^ 64)
    (srcInside : src.toNat + n.toNat ≤ 2 ^ 64) : memmove m dst src n = moved m dst src n.toNat := by
  have length : n.setWidth 64 = BitVec.ofNat 64 n.toNat := by
    rw [BitVec.ofNat_toNat]
  have width := n.isLt
  rw [memmove]
  split_ifs with zero overlap
  · rw [zero]
    exact moved_zero.symm
  · have order := BitVec.lt_def.mp overlap.1
    rw [length]
    exact descending_eq (by omega) (.inr (le_toNat_wrapped order dstInside))
  · apply ascending_eq (by omega)
    rcases Nat.lt_trichotomy src.toNat dst.toNat with below | same | above
    · right
      rw [toNat_distance below.le]
      have clear : ¬ dst < src + n.setWidth 64 := fun meets => overlap ⟨BitVec.lt_def.mpr below, meets⟩
      rw [BitVec.lt_def, BitVec.toNat_add, BitVec.toNat_setWidth, Nat.mod_eq_of_lt (show n.toNat < 2 ^ 64 by omega),
        Nat.mod_eq_of_lt (by omega)] at clear
      omega
    · exact .inl (BitVec.eq_of_toNat_eq same.symm)
    · exact .inr (le_toNat_wrapped above srcInside)

/-- The library's copy moves the range at once. -/
theorem user_memmove_eq (dst src : Uint64) (n : CInt) (length : 0 ≤ n.toInt)
    (dstInside : dst.toNat + n.toNat ≤ 2 ^ 64) (srcInside : src.toNat + n.toNat ≤ 2 ^ 64) :
    User.memmove m dst src n = moved m dst src n.toNat := by
  have sign : n.msb = false := by
    rw [BitVec.msb_eq_toInt, decide_eq_false_iff_not]
    exact Int.not_lt.mpr length
  have count : n.toInt.toNat = n.toNat := by
    rw [BitVec.toInt_eq_toNat_of_msb sign, Int.toNat_natCast]
  have offset : n.signExtend 64 = BitVec.ofNat 64 n.toNat := by
    rw [BitVec.signExtend_eq_setWidth_of_msb_false sign, BitVec.ofNat_toNat]
  have width := n.isLt
  rw [User.memmove, count]
  split_ifs with above
  · exact ascending_eq (by omega) (.inr (le_toNat_wrapped (BitVec.lt_def.mp above) srcInside))
  · rw [offset]
    apply descending_eq (by omega)
    rw [BitVec.lt_def] at above
    rcases Nat.lt_or_eq_of_le (Nat.le_of_not_lt above) with below | same
    · exact .inr (le_toNat_wrapped below dstInside)
    · exact .inl (BitVec.eq_of_toNat_eq same.symm)

/-- Both versions of `memmove` leave the bytes of the source in the destination and all other bytes as they were, so
they agree on every length that both can be given. -/
theorem memmove_overlap_safe (m : ByteMemory) (dst src : Uint64) (n : BitVec 32)
    (dstInside : dst.toNat + n.toNat ≤ 2 ^ 64) (srcInside : src.toNat + n.toNat ≤ 2 ^ 64) :
    Moved m dst src n.toNat (memmove m dst src n) ∧
      (0 ≤ n.toInt → Moved m dst src n.toNat (User.memmove m dst src n) ∧
        User.memmove m dst src n = memmove m dst src n) := by
  rw [memmove_eq dst src n dstInside srcInside]
  refine ⟨moved_whole dstInside, fun length => ?_⟩
  rw [user_memmove_eq dst src n length dstInside srcInside]
  exact ⟨moved_whole dstInside, rfl⟩

/-- A range that moves up by one byte onto itself. -/
theorem memmove_shifted_bytes : Moved (fun a => a.setWidth 8) 0x1001 0x1000 3 (memmove (fun a => a.setWidth 8) 0x1001 0x1000 3) ∧
    Moved (fun a => a.setWidth 8) 0x1001 0x1000 3 (User.memmove (fun a => a.setWidth 8) 0x1001 0x1000 3) := by
  have safe := memmove_overlap_safe (fun a => a.setWidth 8) 0x1001 0x1000 3 (by decide) (by decide)
  exact ⟨safe.1, (safe.2 (by decide)).1⟩

end Xv6
