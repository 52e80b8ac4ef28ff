/-
This file gives copies between two ranges of one memory, one cell at a time from either end. Addresses wrap around. A
copy that never reads a cell that it has written moves the range as a whole.
-/

import Mathlib

namespace ByteCopy

variable {w : Nat} {α : Type}

/-- The first cell goes first. -/
def ascending (m : BitVec w → α) (dst src : BitVec w) : Nat → BitVec w → α
  | 0 => m
  | n + 1 => ascending (Function.update m dst (m src)) (dst + 1) (src + 1) n

/-- The last cell goes first. The addresses are the ends of the ranges. -/
def descending (m : BitVec w → α) (dst src : BitVec w) : Nat → BitVec w → α
  | 0 => m
  | n + 1 => descending (Function.update m (dst - 1) (m (src - 1))) (dst - 1) (src - 1) n

/-- The memory after the whole range has moved at once. -/
def moved (m : BitVec w → α) (dst src : BitVec w) (n : Nat) : BitVec w → α := fun a =>
  if (a - dst).toNat < n then m (src + (a - dst)) else m a

variable {m : BitVec w → α} {dst src : BitVec w} {n : Nat}

@[simp] theorem moved_zero : moved m dst src 0 = m := by
  funext a
  simp [moved]

theorem moved_inside {i : Nat} (inside : i < n) (fits : n ≤ 2 ^ w) :
    moved m dst src n (dst + BitVec.ofNat w i) = m (src + BitVec.ofNat w i) := by
  have index : (BitVec.ofNat w i).toNat = i := by
    rw [BitVec.toNat_ofNat, Nat.mod_eq_of_lt (by omega)]
  rw [moved, add_sub_cancel_left, index, if_pos inside]

theorem moved_outside {a : BitVec w} (fits : dst.toNat + n ≤ 2 ^ w)
    (outside : a.toNat < dst.toNat ∨ dst.toNat + n ≤ a.toNat) : moved m dst src n a = m a := by
  have bound := a.isLt
  have start := dst.isLt
  have far : ¬ (a - dst).toNat < n := by
    rw [BitVec.toNat_sub]
    rcases outside with before | after
    · rw [Nat.mod_eq_of_lt (by omega)]
      omega
    · rw [show 2 ^ w - dst.toNat + a.toNat = a.toNat - dst.toNat + 2 ^ w by omega, Nat.add_mod_right,
        Nat.mod_eq_of_lt (by omega)]
      omega
  rw [moved, if_neg far]

theorem toNat_pred {k : BitVec w} (nonzero : k ≠ 0) : (k - 1).toNat = k.toNat - 1 := by
  have positive : 0 < k.toNat := by
    apply Nat.pos_of_ne_zero
    intro zero
    exact nonzero (BitVec.eq_of_toNat_eq zero)
  have bound := k.isLt
  have one : 1 < 2 ^ w := by omega
  have unit : (1 : BitVec w).toNat = 1 := by
    change 1 % 2 ^ w = 1
    exact Nat.mod_eq_of_lt one
  rw [BitVec.toNat_sub, unit]
  rw [show 2 ^ w - 1 + k.toNat = k.toNat - 1 + 2 ^ w by omega, Nat.add_mod_right, Nat.mod_eq_of_lt (by omega)]

/-- The first cell and then the rest make one longer move, if the rest does not read the first cell again. -/
theorem moved_first (fits : n + 1 ≤ 2 ^ w) (apart : dst = src ∨ n + 1 ≤ (dst - src).toNat) :
    moved (Function.update m dst (m src)) (dst + 1) (src + 1) n = moved m dst src (n + 1) := by
  funext a
  unfold moved
  have place : a - (dst + 1) = a - dst - 1 := sub_add_eq_sub_sub a dst 1
  by_cases first : a = dst
  · have wraps : ¬ (a - (dst + 1)).toNat < n := by
      rw [place, first, sub_self, zero_sub]
      change ¬ (-1#w).toNat < n
      rw [BitVec.neg_one_eq_allOnes, BitVec.toNat_allOnes]
      omega
    rw [if_neg wraps, first, Function.update_self, sub_self, add_zero]
    exact (if_pos (show 0 % 2 ^ w < n + 1 by simp)).symm
  · have nonzero : a - dst ≠ 0 := sub_ne_zero.mpr first
    have unread (inside : (a - dst).toNat < n + 1) : src + (a - dst) ≠ dst := by
      intro meets
      have distance : dst - src = a - dst := sub_eq_iff_eq_add'.mpr meets.symm
      rcases apart with same | far
      · exact nonzero (by rw [← distance, same, sub_self])
      · rw [distance] at far
        omega
    rw [place, toNat_pred nonzero]
    have source : src + 1 + (a - dst - 1) = src + (a - dst) := by ring
    have positive : 0 < (a - dst).toNat := by
      apply Nat.pos_of_ne_zero
      intro zero
      exact nonzero (BitVec.eq_of_toNat_eq zero)
    by_cases inside : (a - dst).toNat < n + 1
    · rw [if_pos (by omega), if_pos inside, source, Function.update_of_ne (unread inside)]
    · rw [if_neg (by omega), if_neg inside, Function.update_of_ne first]

theorem ascending_eq (fits : n ≤ 2 ^ w) (apart : dst = src ∨ n ≤ (dst - src).toNat) :
    ascending m dst src n = moved m dst src n := by
  induction n generalizing m dst src with
  | zero => rw [ascending, moved_zero]
  | succ n ih =>
      have later : dst + 1 - (src + 1) = dst - src := add_sub_add_right_eq_sub dst src 1
      have rest : dst + 1 = src + 1 ∨ n ≤ (dst + 1 - (src + 1)).toNat := by
        rw [later]
        exact apart.imp (congrArg (· + 1)) Nat.le_of_succ_le
      rw [ascending, ih (Nat.le_of_succ_le fits) rest, moved_first fits apart]

/-- The last cell and then the rest make one longer move, if the rest does not read the last cell again. -/
theorem moved_last (fits : n + 1 ≤ 2 ^ w) (apart : dst = src ∨ n + 1 ≤ (src - dst).toNat) :
    moved (Function.update m (dst + BitVec.ofNat w n) (m (src + BitVec.ofNat w n))) dst src n =
      moved m dst src (n + 1) := by
  funext a
  unfold moved
  have index : (BitVec.ofNat w n).toNat = n := by
    rw [BitVec.toNat_ofNat, Nat.mod_eq_of_lt (by omega)]
  by_cases inside : (a - dst).toNat < n
  · have unread : src + (a - dst) ≠ dst + BitVec.ofNat w n := by
      intro meets
      have distance : src - dst = BitVec.ofNat w n - (a - dst) := by
        rw [eq_sub_iff_add_eq, sub_add_eq_add_sub, meets]
        ring
      rcases apart with same | far
      · rw [← same] at meets
        have equal := congrArg BitVec.toNat (add_left_cancel meets)
        omega
      · rw [distance, BitVec.toNat_sub, index] at far
        have size := (a - dst).isLt
        rw [show 2 ^ w - (a - dst).toNat + n = n - (a - dst).toNat + 2 ^ w by omega, Nat.add_mod_right,
          Nat.mod_eq_of_lt (by omega)] at far
        omega
    rw [if_pos inside, if_pos (by omega), Function.update_of_ne unread]
  · by_cases last : a = dst + BitVec.ofNat w n
    · have place : a - dst = BitVec.ofNat w n := by
        rw [last]
        ring
      rw [if_neg inside, last, Function.update_self, ← last, place, if_pos (by omega)]
    · have beyond : ¬ (a - dst).toNat < n + 1 := by
        intro below
        apply last
        have place : a - dst = BitVec.ofNat w n := by
          apply BitVec.eq_of_toNat_eq
          omega
        rw [← place]
        ring
      rw [if_neg inside, if_neg beyond, Function.update_of_ne last]

theorem descending_eq (fits : n ≤ 2 ^ w) (apart : dst = src ∨ n ≤ (src - dst).toNat) :
    descending m (dst + BitVec.ofNat w n) (src + BitVec.ofNat w n) n = moved m dst src n := by
  induction n generalizing m with
  | zero => rw [descending, moved_zero]
  | succ n ih =>
      have previous (p : BitVec w) : p + BitVec.ofNat w (n + 1) - 1 = p + BitVec.ofNat w n := by
        rw [BitVec.ofNat_add, ← add_assoc]
        exact add_sub_cancel_right _ _
      rw [descending, previous, previous, ih (Nat.le_of_succ_le fits) (apart.imp_right Nat.le_of_succ_le),
        moved_last fits apart]

end ByteCopy
