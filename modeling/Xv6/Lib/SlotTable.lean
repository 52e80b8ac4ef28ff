/-
This file gives tables of slots that represent a map. A slot is free or holds a key with its value.
-/

import Mathlib

namespace SlotTable

variable {κ ν : Type}

/-- The slots hold the pairs of the map, each key once. -/
structure Represents (slots : Nat → Option (κ × ν)) (map : κ → Option ν) : Prop where
  rows : ∀ key value, map key = some value ↔ ∃ i, slots i = some (key, value)
  once : ∀ i j x y, slots i = some x → slots j = some y → x.1 = y.1 → i = j

variable {slots : Nat → Option (κ × ν)} {map : κ → Option ν} {key : κ} {value : ν} {i : Nat}

theorem represents_empty (free : ∀ i, slots i = none) : Represents slots fun _ => none := by
  refine ⟨fun key value => ⟨nofun, ?_⟩, fun i j x y first _ _ => ?_⟩
  · rintro ⟨i, row⟩
    rw [free i] at row
    cases row
  · rw [free i] at first
    cases first

/-- A key that the map does not have is in no slot. -/
theorem Represents.absent (table : Represents slots map) (missing : map key = none) (j : Nat) (x : κ × ν)
    (row : slots j = some x) : x.1 ≠ key := by
  rintro rfl
  have held := (table.rows x.1 x.2).mpr ⟨j, row⟩
  rw [missing] at held
  cases held

/-- The slot of a key. -/
theorem Represents.unique (table : Represents slots map) {j : Nat} {other : ν} (first : slots i = some (key, value))
    (second : slots j = some (key, other)) : i = j ∧ value = other := by
  have same := table.once i j _ _ first second rfl
  rw [same, second] at first
  cases first
  exact ⟨same, rfl⟩

variable [DecidableEq κ]

/-- A new key is put into a free slot. -/
theorem Represents.put (table : Represents slots map) (free : slots i = none) (missing : map key = none) :
    Represents (Function.update slots i (some (key, value))) (Function.update map key (some value)) := by
  constructor
  · intro k v
    by_cases mine : k = key
    · subst mine
      rw [Function.update_self]
      constructor
      · intro held
        cases held
        exact ⟨i, Function.update_self ..⟩
      · rintro ⟨j, row⟩
        by_cases here : j = i
        · rw [here, Function.update_self] at row
          cases row
          rfl
        · rw [Function.update_of_ne here] at row
          exact absurd rfl (table.absent missing j _ row)
    · rw [Function.update_of_ne mine, table.rows]
      constructor
      · rintro ⟨j, row⟩
        have other : j ≠ i := by
          rintro rfl
          rw [free] at row
          cases row
        exact ⟨j, by rw [Function.update_of_ne other, row]⟩
      · rintro ⟨j, row⟩
        by_cases here : j = i
        · rw [here, Function.update_self] at row
          cases row
          exact absurd rfl mine
        · rw [Function.update_of_ne here] at row
          exact ⟨j, row⟩
  · intro a b x y first second same
    by_cases left : a = i
    · by_cases right : b = i
      · rw [left, right]
      · rw [left, Function.update_self] at first
        rw [Function.update_of_ne right] at second
        cases first
        exact absurd same.symm (table.absent missing b _ second)
    · rw [Function.update_of_ne left] at first
      by_cases right : b = i
      · rw [right, Function.update_self] at second
        cases second
        exact absurd same (table.absent missing a _ first)
      · rw [Function.update_of_ne right] at second
        exact table.once a b x y first second same

/-- The slot of a key is made free. -/
theorem Represents.clear (table : Represents slots map) (row : slots i = some (key, value)) :
    Represents (Function.update slots i none) (Function.update map key none) := by
  have kept (j : Nat) (x : κ × ν) : Function.update slots i none j = some x ↔ slots j = some x ∧ j ≠ i := by
    by_cases here : j = i
    · simp [here]
    · simp [here]
  refine ⟨fun k v => ?_, fun a b x y first second same => ?_⟩
  · by_cases mine : k = key
    · subst mine
      rw [Function.update_self]
      refine ⟨nofun, ?_⟩
      rintro ⟨j, left⟩
      obtain ⟨there, other⟩ := (kept j _).mp left
      exact absurd (table.unique there row).1 other
    · rw [Function.update_of_ne mine, table.rows]
      refine exists_congr fun j => ?_
      rw [kept]
      refine ⟨fun there => ⟨there, ?_⟩, fun both => both.1⟩
      rintro rfl
      rw [row] at there
      cases there
      exact mine rfl
  · exact table.once a b x y ((kept a x).mp first).1 ((kept b y).mp second).1 same

end SlotTable
