/-
This file gives what the stores of the allocator change. Each of them stays in one header.
-/

import Xv6.User.Umalloc

namespace Xv6.Umalloc

open Bytes

/-- Two headers do not overlap. -/
def Separate (p q : Nat) : Prop := p + headerSize ≤ q ∨ q + headerSize ≤ p

/-- The memory has changed in one header only. -/
def Elsewhere (p : Nat) (m m' : ByteMap) : Prop := ∀ x, x < p ∨ p + headerSize ≤ x → m' x = m x

section Stores

variable {m m' : ByteMap} {p q : Nat}

theorem Separate.symm (separate : Separate p q) : Separate q p := Or.symm separate

theorem Elsewhere.trans {m'' : ByteMap} (first : Elsewhere p m m') (second : Elsewhere p m' m'') : Elsewhere p m m'' :=
  fun x outside => (second x outside).trans (first x outside)

theorem Elsewhere.ptr (same : Elsewhere p m m') (separate : Separate p q) : ptrAt m' q = ptrAt m q := by
  unfold ptrAt
  rw [load_congr fun i inside => same (q + i) (by unfold Separate headerSize at *; omega)]

theorem Elsewhere.size (same : Elsewhere p m m') (separate : Separate p q) : sizeAt m' q = sizeAt m q := by
  unfold sizeAt
  exact load_congr fun i inside => same (q + 8 + i) (by unfold Separate headerSize at *; omega)

theorem setPtr_elsewhere (value : Nat) : Elsewhere p m (setPtr m p value) :=
  fun x outside => overlay_outside (by unfold headerSize at outside; omega)

theorem setSize_elsewhere (value : Uint) : Elsewhere p m (setSize m p value) :=
  fun x outside => overlay_outside (by unfold headerSize at outside; omega)

theorem ptrAt_setPtr {value : Nat} (small : value < 2 ^ 64) : ptrAt (setPtr m p value) p = value := by
  have stored : load 8 (setPtr m p value) p = BitVec.ofNat 64 value := load_bytes _ fun i inside => overlay_inside inside
  rw [ptrAt, stored]
  exact (BitVec.toNat_ofNat _ _).trans (Nat.mod_eq_of_lt small)

@[simp] theorem sizeAt_setSize (value : Uint) : sizeAt (setSize m p value) p = value := by
  unfold sizeAt setSize
  exact load_bytes (n := 4) value fun i inside => overlay_inside inside

@[simp] theorem ptrAt_setSize (value : Uint) : ptrAt (setSize m p value) p = ptrAt m p := by
  unfold ptrAt setSize
  rw [load_outside (Or.inl (Nat.le_refl _))]

@[simp] theorem sizeAt_setPtr (value : Nat) : sizeAt (setPtr m p value) p = sizeAt m p :=
  load_outside (Or.inr (Nat.le_refl _))

end Stores

section Joins

variable {m : ByteMap} {b p : Nat}

theorem ptrAt_lt : ptrAt m p < 2 ^ 64 := (load 8 m p).isLt

theorem joinUp_elsewhere : Elsewhere b m (joinUp b p m) := by
  unfold joinUp
  split
  · exact (setSize_elsewhere _).trans (setPtr_elsewhere _)
  · exact setPtr_elsewhere _

theorem joinDown_elsewhere : Elsewhere p m (joinDown b p m) := by
  unfold joinDown
  split
  · exact (setSize_elsewhere _).trans (setPtr_elsewhere _)
  · exact setPtr_elsewhere _

/-- The block takes over the node behind it. -/
theorem joinUp_touching (separate : Separate b p) (beyond : Separate b (ptrAt m p)) (touches : endOf m b = ptrAt m p) :
    ptrAt (joinUp b p m) b = ptrAt m (ptrAt m p) ∧ sizeAt (joinUp b p m) b = sizeAt m b + sizeAt m (ptrAt m p) := by
  have grown := setSize_elsewhere (m := m) (p := b) (sizeAt m b + sizeAt m (ptrAt m p))
  rw [joinUp, if_pos touches]
  refine ⟨?_, by rw [sizeAt_setPtr, sizeAt_setSize]⟩
  rw [ptrAt_setPtr ptrAt_lt, grown.ptr separate, grown.ptr beyond]

theorem joinUp_alone (gap : endOf m b ≠ ptrAt m p) :
    ptrAt (joinUp b p m) b = ptrAt m p ∧ sizeAt (joinUp b p m) b = sizeAt m b := by
  rw [joinUp, if_neg gap]
  exact ⟨ptrAt_setPtr ptrAt_lt, sizeAt_setPtr _⟩

/-- The node before the block takes the block over. -/
theorem joinDown_touching (separate : Separate p b) (touches : endOf m p = b) :
    ptrAt (joinDown b p m) p = ptrAt m b ∧ sizeAt (joinDown b p m) p = sizeAt m p + sizeAt m b := by
  have grown := setSize_elsewhere (m := m) (p := p) (sizeAt m p + sizeAt m b)
  rw [joinDown, if_pos touches]
  refine ⟨?_, by rw [sizeAt_setPtr, sizeAt_setSize]⟩
  rw [ptrAt_setPtr ptrAt_lt, grown.ptr separate]

theorem joinDown_alone (small : b < 2 ^ 64) (gap : endOf m p ≠ b) :
    ptrAt (joinDown b p m) p = b ∧ sizeAt (joinDown b p m) p = sizeAt m p := by
  rw [joinDown, if_neg gap]
  exact ⟨ptrAt_setPtr small, sizeAt_setPtr _⟩

end Joins

end Xv6.Umalloc
