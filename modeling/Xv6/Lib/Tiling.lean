/-
This file gives ranges of addresses. How often a list of ranges covers each address tells whether the ranges are apart
and which memory they make up, and it adds up when ranges are joined and split.
-/

import Mathlib

namespace Tiling

/-- The addresses from the first one up to the second one. -/
structure Range where
  start : Nat
  stop : Nat
  deriving DecidableEq

/-- The address lies in the range. -/
abbrev Range.Has (r : Range) (x : Nat) : Prop := r.start ≤ x ∧ x < r.stop

/-- The ranges have no address in common. -/
def Range.Apart (r s : Range) : Prop := r.stop ≤ s.start ∨ s.stop ≤ r.start

/-- The number of ranges that have an address. -/
def cover (l : List Range) (x : Nat) : Nat := l.countP fun r => decide (r.Has x)

variable {l m : List Range} {r s : Range} {x : Nat}

@[simp] theorem cover_nil : cover [] x = 0 := rfl

@[simp] theorem cover_cons : cover (r :: l) x = cover l x + if r.Has x then 1 else 0 := by
  simp [cover, List.countP_cons]

@[simp] theorem cover_append : cover (l ++ m) x = cover l x + cover m x := List.countP_append

theorem cover_perm (perm : l.Perm m) : cover l x = cover m x := perm.countP_eq _

theorem cover_pos : 0 < cover l x ↔ ∃ r ∈ l, r.Has x := by
  simp [cover, List.countP_pos_iff]

/-- A range covers what its two parts cover. -/
theorem has_split {a b c : Nat} (low : a ≤ b) (high : b ≤ c) :
    (if Range.Has ⟨a, c⟩ x then 1 else 0) = (if Range.Has ⟨a, b⟩ x then 1 else 0) + if Range.Has ⟨b, c⟩ x then 1 else 0 := by
  simp only [Range.Has]
  split_ifs <;> omega

theorem apart_of_cover (filledLeft : r.start < r.stop) (filledRight : s.start < s.stop)
    (once : ∀ x, cover [r, s] x ≤ 1) : r.Apart s := by
  by_contra overlap
  have both := once (max r.start s.start)
  unfold Range.Apart at overlap
  rw [cover_cons, cover_cons, cover_nil, if_pos ⟨by omega, by omega⟩, if_pos ⟨by omega, by omega⟩] at both
  omega

/-- Ranges that cover each address at most once are apart from each other. -/
theorem pairwise_apart (filled : ∀ r ∈ l, r.start < r.stop) (once : ∀ x, cover l x ≤ 1) : l.Pairwise Range.Apart := by
  induction l with
  | nil => exact .nil
  | cons r l ih =>
      have fewer (x : Nat) : cover l x ≤ cover (r :: l) x := by
        rw [cover_cons]
        exact Nat.le_add_right _ _
      refine .cons (fun s inside => ?_) (ih (fun s inside => filled s (.tail _ inside)) fun x => Nat.le_trans (fewer x) (once x))
      apply apart_of_cover (filled r (.head _)) (filled s (.tail _ inside))
      intro x
      have whole := once x
      have part : (if s.Has x then 1 else 0) ≤ cover l x := by
        split_ifs with has
        · exact cover_pos.mpr ⟨s, inside, has⟩
        · exact Nat.zero_le _
      simp only [cover_cons, cover_nil] at whole ⊢
      omega

end Tiling
