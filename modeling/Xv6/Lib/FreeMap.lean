/-
This file gives stores whose blocks are named by the slots of some owners and marked in a free map. The map is exact
when the reserved blocks and the named blocks are marked, and no block is named twice.
-/

import Mathlib

/-- The slots name blocks from `first` on, and a slot that names none has block zero. -/
structure ExactMap {Key : Type} (first size : Nat) (marked : Nat → Prop) (slot : Key → Nat) : Prop where
  positive : 0 < first
  fits : first ≤ size
  range : ∀ x, slot x ≠ 0 → first ≤ slot x ∧ slot x < size
  apart : ∀ x y, slot x ≠ 0 → slot x = slot y → x = y
  reserved : ∀ b, b < first → marked b
  named : ∀ b, first ≤ b → b < size → (marked b ↔ ∃ x, slot x = b)

namespace ExactMap

variable {Key : Type} {first size : Nat} {marked after : Nat → Prop} {slot next : Key → Nat}

/-- A slot with a block is marked. -/
theorem marked_slot (map : ExactMap first size marked slot) {x : Key} (named : slot x ≠ 0) : marked (slot x) := by
  obtain ⟨high, inside⟩ := map.range x named
  exact (map.named _ high inside).mpr ⟨x, rfl⟩

/-- An unmarked block is not reserved and named by no slot. -/
theorem unnamed (map : ExactMap first size marked slot) {b : Nat} (inside : b < size) (free : ¬ marked b) :
    first ≤ b ∧ ∀ x, slot x ≠ b := by
  have high : first ≤ b := by
    by_contra low
    exact free (map.reserved b (Nat.not_le.mp low))
  refine ⟨high, fun x same => ?_⟩
  exact free ((map.named b high inside).mpr ⟨x, same⟩)

/-- An empty slot is given an unmarked block. -/
theorem assign [DecidableEq Key] (map : ExactMap first size marked slot) {x : Key} {b : Nat} (empty : slot x = 0)
    (inside : b < size) (free : ¬ marked b) (marks : ∀ c, c < size → (after c ↔ marked c ∨ c = b)) :
    ExactMap first size after (Function.update slot x b) := by
  obtain ⟨high, other⟩ := map.unnamed inside free
  have positive := map.positive
  have fits := map.fits
  refine ⟨positive, fits, fun y named => ?_, fun y z named same => ?_, fun c low => ?_, fun c low small => ?_⟩
  · by_cases new : y = x
    · rw [new, Function.update_self]
      exact ⟨high, inside⟩
    · rw [Function.update_of_ne new] at named ⊢
      exact map.range y named
  · by_cases left : y = x
    · by_cases right : z = x
      · rw [left, right]
      · rw [left, Function.update_self, Function.update_of_ne right] at same
        exact absurd same.symm (other z)
    · by_cases right : z = x
      · rw [right, Function.update_self, Function.update_of_ne left] at same
        exact absurd same (other y)
      · rw [Function.update_of_ne left] at named same
        rw [Function.update_of_ne right] at same
        exact map.apart y z named same
  · exact (marks c (by omega)).mpr (.inl (map.reserved c low))
  · rw [marks c small, map.named c low small]
    constructor
    · rintro (⟨y, same⟩ | rfl)
      · have old : y ≠ x := by
          rintro rfl
          omega
        exact ⟨y, by rwa [Function.update_of_ne old]⟩
      · exact ⟨x, Function.update_self ..⟩
    · rintro ⟨y, same⟩
      by_cases new : y = x
      · rw [new, Function.update_self] at same
        exact .inr same.symm
      · rw [Function.update_of_ne new] at same
        exact .inl ⟨y, same⟩

/-- The slots and the marks can be given in another way. -/
theorem congr (map : ExactMap first size marked slot) (slots : ∀ x, next x = slot x)
    (marks : ∀ b, b < size → (after b ↔ marked b)) : ExactMap first size after next := by
  have same : next = slot := funext slots
  have fits := map.fits
  rw [same]
  refine ⟨map.positive, fits, map.range, map.apart, fun b low => ?_, fun b low small => ?_⟩
  · exact (marks b (by omega)).mpr (map.reserved b low)
  · rw [marks b small, map.named b low small]

/-- A map with all blocks marked has no room for one more named slot. -/
theorem full_maximal {other : Key → Nat} (map : ExactMap first size marked slot) (full : ∀ b, b < size → marked b)
    (larger : ExactMap first size after other) (more : ∀ x, slot x ≠ 0 → other x ≠ 0) {x : Key} (empty : slot x = 0) :
    other x = 0 := by
  by_contra named
  have positive := map.positive
  have owner (b : {b // b ∈ Finset.Ico first size}) : ∃ y, slot y = b.val := by
    obtain ⟨low, high⟩ := Finset.mem_Ico.mp b.property
    exact (map.named b.val low high).mp (full b.val high)
  choose key owns using owner
  have used (b : {b // b ∈ Finset.Ico first size}) : other (key b) ≠ 0 := by
    apply more
    have low := (Finset.mem_Ico.mp b.property).1
    have here := owns b
    omega
  -- The owners of all blocks have pairwise different blocks in the other map, so these are all blocks again.
  let move (b : {b // b ∈ Finset.Ico first size}) : {b // b ∈ Finset.Ico first size} :=
    ⟨other (key b), Finset.mem_Ico.mpr (larger.range _ (used b))⟩
  have injective : Function.Injective move := by
    intro b c same
    have keys := larger.apart _ _ (used b) (congrArg Subtype.val same)
    apply Subtype.ext
    rw [← owns b, ← owns c, keys]
  obtain ⟨b, same⟩ := Finite.injective_iff_surjective.mp injective ⟨other x, Finset.mem_Ico.mpr (larger.range x named)⟩
  have keys := larger.apart _ _ (used b) (congrArg Subtype.val same)
  have low := (Finset.mem_Ico.mp b.property).1
  have here := owns b
  rw [keys, empty] at here
  omega

/-- The named slots and the unmarked blocks share the blocks that are not reserved. -/
theorem card [DecidablePred marked] (map : ExactMap first size marked slot) {named : Finset Key}
    (all : ∀ x, x ∈ named ↔ slot x ≠ 0) :
    named.card + ((Finset.range size).filter fun b => ¬ marked b).card = size - first := by
  have injective : Set.InjOn slot named := fun x inside y _ same => map.apart x y ((all x).mp inside) same
  have image : named.image slot = (Finset.Ico first size).filter marked := by
    ext b
    rw [Finset.mem_image, Finset.mem_filter, Finset.mem_Ico]
    constructor
    · rintro ⟨x, inside, rfl⟩
      exact ⟨map.range x ((all x).mp inside), map.marked_slot ((all x).mp inside)⟩
    · rintro ⟨⟨low, high⟩, mark⟩
      obtain ⟨x, rfl⟩ := (map.named b low high).mp mark
      have positive := map.positive
      exact ⟨x, (all x).mpr (by omega), rfl⟩
  have rest : (Finset.range size).filter (fun b => ¬ marked b) = (Finset.Ico first size).filter fun b => ¬ marked b := by
    ext b
    rw [Finset.mem_filter, Finset.mem_filter, Finset.mem_range, Finset.mem_Ico]
    refine ⟨fun both => ⟨⟨(map.unnamed both.1 both.2).1, both.1⟩, both.2⟩, fun both => ⟨both.1.2, both.2⟩⟩
  rw [← Finset.card_image_of_injOn injective, image, rest, Finset.card_filter_add_card_filter_not, Nat.card_Ico]

end ExactMap
