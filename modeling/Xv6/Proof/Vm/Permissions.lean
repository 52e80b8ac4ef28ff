/-
This file shows when `copyout` respects the permissions of user pages. It tests that a page is mapped for the user, and
not that the user may write it.
-/

import Xv6.Proof.Vm.UserCopy

namespace Xv6.Copyout

section Permissions

variable {pagetable : Page} {ram after : Ram} {dstva : Uint64} {src : List Byte}

/-- The user may write to all pages of a range that a copy reaches. A copy stops at the first address that is not mapped
for the user. -/
def Writable (pagetable : Page) (ram : Ram) (va : Uint64) (len : Nat) : Prop :=
  ∀ k < len, Accessible pagetable ram va (k + 1) →
    ∀ pte, leafOf pagetable (pgrounddown (va + BitVec.ofNat 64 k)) ram = some pte → ¬ lacks pte pteW

/-- The pages that the user may not write are the same in two memories. -/
def Protects (pagetable : Page) (ram after : Ram) : Prop :=
  ∀ va pte, va < maxva → leafOf pagetable va ram = some pte → ¬ lacks pte pteV → lacks pte pteW ∨ lacks pte pteU →
    after.word (pte2pa pte) = ram.word (pte2pa pte)

theorem SameTable.writable (same : SameTable pagetable ram after) {va : Uint64} {len : Nat} :
    Writable pagetable after va len ↔ Writable pagetable ram va len := by
  unfold Writable
  simp only [same.accessible, (same _).1]

theorem maxva_of_walkaddr {va : Uint64} {page : Page} (found : walkaddr pagetable va ram = some page) : va < maxva := by
  rw [walkaddr_eq] at found
  split_ifs at found with high
  exact BitVec.not_le.mp high

/-- One copy to a range that the user may write. -/
theorem copyout_protects (separate : Separate pagetable ram) (distinct : Distinct pagetable ram)
    (writable : Writable pagetable ram dstva src.length) :
    Protects pagetable ram (copyout pagetable dstva src ram).2 := by
  intro va pte below leaf valid guarded
  refine (copyout_frame separate dstva src).2 _ fun k small reached found => ?_
  obtain ⟨pte', leaf', valid', user, same⟩ := walkaddr_some found
  have page := distinct _ _ _ _ below (maxva_of_walkaddr found) leaf leaf' valid valid' same.symm
  rw [page.leafOf, leaf'] at leaf
  obtain rfl := Option.some.inj leaf
  rcases guarded with noWrite | noUser
  · exact writable k small reached pte' leaf' noWrite
  · exact user noUser

/-- The memory after some calls of `copyout`. -/
def copies (pagetable : Page) (list : List (Uint64 × List Byte)) (ram : Ram) : Ram :=
  list.foldl (fun ram copy => (copyout pagetable copy.1 copy.2 ram).2) ram

theorem copies_sameTable (separate : Separate pagetable ram) (list : List (Uint64 × List Byte)) :
    SameTable pagetable ram (copies pagetable list ram) := by
  induction list generalizing ram with
  | nil => exact .refl
  | cons copy rest ih =>
      have same := (copyout_frame separate copy.1 copy.2).1
      exact same.trans (ih (same.separate separate))

theorem copies_protects {list : List (Uint64 × List Byte)} (separate : Separate pagetable ram)
    (distinct : Distinct pagetable ram) (writable : ∀ copy ∈ list, Writable pagetable ram copy.1 copy.2.length) :
    Protects pagetable ram (copies pagetable list ram) := by
  induction list generalizing ram with
  | nil => exact fun _ _ _ _ _ _ => rfl
  | cons copy rest ih =>
      have same := (copyout_frame separate copy.1 copy.2).1
      have here := copyout_protects separate distinct (writable copy List.mem_cons_self)
      have later := ih (same.separate separate) (distinct.kept same) fun other inside =>
        same.writable.mpr (writable other (List.mem_cons_of_mem _ inside))
      intro va pte below leaf valid guarded
      refine (later va pte below ?_ valid guarded).trans (here va pte below leaf valid guarded)
      rw [(same va).1]
      exact leaf

/-- A copy of equal bytes leaves them at the addresses that it reaches, and at other addresses where they were. -/
theorem copyout_replicate (separate : Separate pagetable ram) (distinct : Distinct pagetable ram) {len : Nat}
    (small : len < 2 ^ 64) (dstva va : Uint64) (x : Byte)
    (here : userByte pagetable ram va = some x ∨
      ∃ k < len, va = dstva + BitVec.ofNat 64 k ∧ Accessible pagetable ram dstva (k + 1)) :
    userByte pagetable (copyout pagetable dstva (List.replicate len x) ram).2 va = some x := by
  have length : (List.replicate len x).length = len := List.length_replicate
  obtain ⟨count, stored, _⟩ := @copyoutLoop_stores _ _ dstva (List.replicate len x) _ separate distinct
    (by rwa [length]) le_rfl
  have fits := stored.fits
  refine (stored.copied va).trans ?_
  by_cases inside : (va - dstva).toNat < count
  · rw [if_pos inside, List.getElem?_replicate, if_pos (by omega)]
  · rw [if_neg inside]
    rcases here with known | ⟨k, below, rfl, reached⟩
    · exact known
    · have position : (dstva + BitVec.ofNat 64 k - dstva).toNat = k := by
        rw [BitVec.add_comm, BitVec.add_sub_cancel, BitVec.toNat_ofNat]
        exact Nat.mod_eq_of_lt (Nat.lt_trans below small)
      have missing := stored.stopped (by omega)
      rw [userByte, Option.map_eq_none_iff] at missing
      exact absurd missing (reached count (by omega))

theorem copies_replicate {ranges : List (Uint64 × Nat)} (separate : Separate pagetable ram)
    (distinct : Distinct pagetable ram) (small : ∀ range ∈ ranges, range.2 < 2 ^ 64) {va : Uint64} {x : Byte}
    (here : userByte pagetable ram va = some x ∨ ∃ range ∈ ranges, ∃ k < range.2, va = range.1 + BitVec.ofNat 64 k ∧
      Accessible pagetable ram range.1 (k + 1)) :
    userByte pagetable (copies pagetable (ranges.map fun range => (range.1, List.replicate range.2 x)) ram) va =
      some x := by
  induction ranges generalizing ram with
  | nil =>
      rcases here with known | ⟨_, inside, _⟩
      · exact known
      · cases inside
  | cons range rest ih =>
      have same := (copyout_frame separate range.1 (List.replicate range.2 x)).1
      have first := copyout_replicate separate distinct (small range List.mem_cons_self) range.1 va x
      refine ih (same.separate separate) (distinct.kept same)
        (fun other inside => small other (List.mem_cons_of_mem _ inside)) ?_
      rcases here with known | ⟨other, inside, reached⟩
      · exact .inl (first (.inl known))
      · rcases List.mem_cons.mp inside with rfl | later
        · exact .inl (first (.inr reached))
        · refine .inr ⟨other, later, ?_⟩
          simpa only [same.accessible] using reached

/-- A page that is the same in two memories has the same bytes. -/
theorem userByte_congr {va : Uint64} {page : Page} (same : SameTable pagetable ram after)
    (found : walkaddr pagetable (pgrounddown va) ram = some page) (words : after.word page = ram.word page) :
    userByte pagetable after va = userByte pagetable ram va := by
  unfold userByte Ram.byte
  rw [same.walkaddr, found, Option.map_some, Option.map_some, words]

end Permissions

/-- In a page table whose pages are all different, the copies to some ranges change no page that the user may not write,
whatever their bytes are, exactly when the user may write to all pages of the ranges that the copies reach. -/
theorem copyout_respects_permissions {pagetable : Page} {ram : Ram} {ranges : List (Uint64 × Nat)}
    (separate : Separate pagetable ram) (distinct : Distinct pagetable ram)
    (small : ∀ range ∈ ranges, range.2 < 2 ^ 64) :
    (∀ list : List (Uint64 × List Byte), list.map (fun copy => (copy.1, copy.2.length)) = ranges →
        Protects pagetable ram (copies pagetable list ram)) ↔
      ∀ range ∈ ranges, Writable pagetable ram range.1 range.2 := by
  constructor
  · intro protects range inside k below reached pte leaf noWrite
    obtain ⟨page, found⟩ := Option.ne_none_iff_exists'.mp (reached k (Nat.lt_succ_self k))
    obtain ⟨pte', leaf', valid, _, rfl⟩ := walkaddr_some found
    obtain rfl := Option.some.inj (leaf.symm.trans leaf')
    -- all copies write one byte that differs from the byte of the page
    obtain ⟨old, read⟩ : ∃ old, userByte pagetable ram (range.1 + BitVec.ofNat 64 k) = some old :=
      ⟨_, by rw [userByte, found]; rfl⟩
    have same := copies_sameTable separate (ranges.map fun range => (range.1, List.replicate range.2 (old + 1)))
    have words := protects (ranges.map fun range => (range.1, List.replicate range.2 (old + 1)))
      (by simp [Function.comp_def]) _ pte
      (maxva_of_walkaddr found) leaf valid (.inl noWrite)
    have stored := copies_replicate separate distinct small (x := old + 1) (.inr ⟨range, inside, k, below, rfl, reached⟩)
    rw [userByte_congr same found words, read] at stored
    exact absurd (Option.some.inj stored) (by simp)
  · rintro writable list rfl
    refine copies_protects separate distinct fun copy inside => ?_
    exact writable _ (List.mem_map_of_mem inside)

section Example

/-- Copies to the data page leave the text as it is, also a copy that stops behind the data page. -/
theorem copyout_respects_text :
    (copies 1 [(4096, [7]), (8190, [8, 9, 10])] smallRam).word 4 = smallRam.word 4 ∧
      (copies 1 [(4096, [7]), (8190, [8, 9, 10])] smallRam).read 5 4094 2 = [8, 9] := by
  have data : ∀ range ∈ [((4096 : Uint64), 1), (8190, 3)], ∀ k < range.2, Accessible 1 smallRam range.1 (k + 1) →
      leafOf 1 (pgrounddown (range.1 + BitVec.ofNat 64 k)) smallRam = some dataPte := by
    unfold Accessible
    decide +kernel
  have writable : ∀ range ∈ [((4096 : Uint64), 1), (8190, 3)], Writable 1 smallRam range.1 range.2 := by
    intro range inside k below reached pte leaf
    rw [data range inside k below reached] at leaf
    obtain rfl := Option.some.inj leaf
    decide
  have text : leafOf 1 0 smallRam = some textPte := by decide +kernel
  have protects := (copyout_respects_permissions small_separate small_distinct (by decide)).mpr writable
  exact ⟨protects _ rfl 0 textPte (by decide) text (by decide) (.inl (by decide)), by decide +kernel⟩

/-- A copy to the text page succeeds and changes its first byte. -/
theorem copyout_overwrites_text :
    leafOf 1 0 smallRam = some textPte ∧ lacks textPte pteW ∧ (copyout 1 0 [7] smallRam).1 = true ∧
      smallRam.byte (pte2pa textPte) 0 = 0 ∧ (copyout 1 0 [7] smallRam).2.byte (pte2pa textPte) 0 = 7 := by
  decide +kernel

end Example

end Xv6.Copyout
