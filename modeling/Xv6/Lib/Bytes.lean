/-
This file gives memories of bytes with little-endian numbers in them. A memory is a function of the address, and an
overlay replaces a range of it.
-/

import Mathlib

namespace Bytes

abbrev ByteMap := Nat → BitVec 8

/-- A byte of a number, from its low end. -/
def octet {w : Nat} (v : BitVec w) (i : Nat) : BitVec 8 := v.extractLsb' (8 * i) 8

/-- The number in some bytes of a memory. -/
def loadNat (m : ByteMap) (start : Nat) : Nat → Nat
  | 0 => 0
  | n + 1 => (m start).toNat + 256 * loadNat m (start + 1) n

def load (n : Nat) (m : ByteMap) (start : Nat) : BitVec (8 * n) := BitVec.ofNat (8 * n) (loadNat m start n)

/-- A range of a memory is replaced. -/
def overlay (start len : Nat) (source m : ByteMap) : ByteMap := fun i =>
  if start ≤ i ∧ i < start + len then source (i - start) else m i

variable {m source : ByteMap} {start len n : Nat}

theorem overlay_inside {i : Nat} (inside : i < len) : overlay start len source m (start + i) = source i := by
  rw [overlay, if_pos ⟨Nat.le_add_right _ _, Nat.add_lt_add_left inside _⟩, Nat.add_sub_cancel_left]

theorem overlay_outside {i : Nat} (outside : i < start ∨ start + len ≤ i) : overlay start len source m i = m i := by
  rw [overlay, if_neg (by omega)]

theorem loadNat_congr {other : ByteMap} {place : Nat} (same : ∀ i, i < n → other (place + i) = m (start + i)) :
    loadNat other place n = loadNat m start n := by
  induction n generalizing place start with
  | zero => rfl
  | succ n ih =>
      have first := same 0 (Nat.succ_pos n)
      rw [Nat.add_zero, Nat.add_zero] at first
      have rest : loadNat other (place + 1) n = loadNat m (start + 1) n := by
        apply ih
        intro i inside
        rw [Nat.add_right_comm place, Nat.add_right_comm start]
        exact same (i + 1) (Nat.succ_lt_succ inside)
      rw [loadNat, loadNat, first, rest]

/-- A number depends on its bytes only. -/
theorem load_congr {other : ByteMap} {place : Nat} (same : ∀ i, i < n → other (place + i) = m (start + i)) :
    load n other place = load n m start := by
  rw [load, load, loadNat_congr same]

theorem loadNat_bytes {w : Nat} (v : BitVec w) (k : Nat) (same : ∀ i, i < n → m (start + i) = octet v (k + i)) :
    loadNat m start n = v.toNat / 256 ^ k % 256 ^ n := by
  induction n generalizing start k with
  | zero => simp [loadNat, Nat.mod_one]
  | succ n ih =>
      have first := same 0 (Nat.succ_pos n)
      rw [Nat.add_zero, Nat.add_zero] at first
      have rest : loadNat m (start + 1) n = v.toNat / 256 ^ (k + 1) % 256 ^ n := by
        apply ih
        intro i inside
        rw [Nat.add_right_comm start, Nat.add_right_comm k]
        exact same (i + 1) (Nat.succ_lt_succ inside)
      have low : (octet v k).toNat = v.toNat / 256 ^ k % 256 := by
        rw [octet, BitVec.extractLsb'_toNat, Nat.shiftRight_eq_div_pow, Nat.pow_mul]
      have split : v.toNat / 256 ^ (k + 1) = v.toNat / 256 ^ k / 256 := by
        rw [Nat.pow_succ, Nat.div_div_eq_div_mul]
      rw [loadNat, first, rest, low, split, Nat.pow_succ, Nat.mul_comm (256 ^ n) 256]
      exact (Nat.mod_mul).symm

/-- The bytes of a number give the number. -/
theorem load_bytes (v : BitVec (8 * n)) (same : ∀ i, i < n → m (start + i) = octet v i) : load n m start = v := by
  have shifted (i : Nat) (inside : i < n) : m (start + i) = octet v (0 + i) := by
    rw [Nat.zero_add]
    exact same i inside
  have number := loadNat_bytes v 0 shifted
  have bound : v.toNat < 256 ^ n := by
    have small := v.isLt
    rwa [Nat.pow_mul] at small
  rw [load, number, Nat.pow_zero, Nat.div_one, Nat.mod_eq_of_lt bound, BitVec.ofNat_toNat, BitVec.setWidth_eq]

/-- A number outside of the range stays. -/
theorem load_outside {place : Nat} (outside : place + n ≤ start ∨ start + len ≤ place) :
    load n (overlay start len source m) place = load n m place := by
  apply load_congr
  intro i inside
  apply overlay_outside
  omega

/-- A number inside of the range comes from the source. -/
theorem load_inside {place : Nat} (inside : place + n ≤ len) :
    load n (overlay start len source m) (start + place) = load n source place := by
  apply load_congr
  intro i below
  rw [Nat.add_assoc]
  exact overlay_inside (by omega)

theorem load_zero (zero : ∀ i, i < n → m (start + i) = 0) : load n m start = 0 := by
  apply load_bytes
  intro i inside
  rw [zero i inside]
  simp [octet]

end Bytes
