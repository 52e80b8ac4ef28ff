/-
This file counts a family of states by adding up a weight of each state.
-/

import Mathlib

namespace Tally

variable {ι σ : Type*} [Fintype ι] [DecidableEq ι]

/-- A change of one member changes the sum by the weights of its old and its new state. -/
theorem sum_update (weight : σ → Nat) (state : ι → σ) (i : ι) (new : σ) :
    ∑ j, weight (Function.update state i new j) + weight (state i) = ∑ j, weight (state j) + weight new := by
  have others : ∑ j ∈ Finset.univ.erase i, weight (Function.update state i new j) =
      ∑ j ∈ Finset.univ.erase i, weight (state j) := by
    refine Finset.sum_congr rfl fun j inside => ?_
    rw [Function.update_of_ne (Finset.ne_of_mem_erase inside)]
  rw [← Finset.add_sum_erase _ _ (Finset.mem_univ i), others, Function.update_self,
    ← Finset.add_sum_erase _ _ (Finset.mem_univ i)]
  omega

omit [DecidableEq ι] in
/-- The sum is at least the weight of each member. -/
theorem le_sum (weight : σ → Nat) (state : ι → σ) (i : ι) : weight (state i) ≤ ∑ j, weight (state j) :=
  Finset.single_le_sum (f := fun j => weight (state j)) (fun _ _ => Nat.zero_le _) (Finset.mem_univ i)

omit [DecidableEq ι] in
/-- Weights of at most one add up to at most the number of members. -/
theorem sum_le_card (weight : σ → Nat) (state : ι → σ) (light : ∀ x, weight x ≤ 1) :
    ∑ j, weight (state j) ≤ Fintype.card ι := by
  have each := Finset.sum_le_card_nsmul Finset.univ (fun j => weight (state j)) 1 fun j _ => light (state j)
  simpa using each

omit [DecidableEq ι] in
/-- Weights of at least one add up to at least the number of members. -/
theorem card_le_sum (weight : ι → Nat) (heavy : ∀ i, 1 ≤ weight i) : Fintype.card ι ≤ ∑ i, weight i := by
  have each := Finset.card_nsmul_le_sum Finset.univ weight 1 fun i _ => heavy i
  simpa using each

end Tally
