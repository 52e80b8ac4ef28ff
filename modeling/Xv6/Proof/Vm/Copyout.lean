/-
This file shows what `copyout` changes. A user page is no page of its own page table, so a copy does not change the
way in which addresses are translated.
-/

import Xv6.Kernel.Vm

namespace Xv6.Copyout

section Walk

variable {pagetable page : Page} {ram after : Ram} {va : Uint64}

/-- The page-table pages that `walk` reads. -/
def walkPages (va : Uint64) : Nat → Page → Ram → List Page
  | 0, table, _ => [table]
  | level + 1, table, ram =>
      table :: if lacks (ram.word table (px (level + 1) va)) pteV then []
        else walkPages va level (pte2pa (ram.word table (px (level + 1) va))) ram

/-- The leaf entry of an address. -/
def leafOf (pagetable : Page) (va : Uint64) (ram : Ram) : Option Pte :=
  (walkFrom va false 2 pagetable ram).1.map fun entry => ram.word entry.1 entry.2

/-- `walk` reads only the pages that it passes. -/
theorem walkFrom_frame {level : Nat}
    (same : ∀ page ∈ walkPages va level pagetable ram, after.word page = ram.word page) :
    (walkFrom va false level pagetable after).1 = (walkFrom va false level pagetable ram).1 ∧
      walkPages va level pagetable after = walkPages va level pagetable ram ∧
      ∀ entry ∈ (walkFrom va false level pagetable ram).1, entry.1 ∈ walkPages va level pagetable ram := by
  induction level generalizing pagetable with
  | zero => exact ⟨rfl, rfl, fun entry found => by cases found; exact List.mem_cons_self⟩
  | succ level ih =>
      have here : after.word pagetable = ram.word pagetable := same pagetable List.mem_cons_self
      unfold walkFrom walkPages
      simp only [here, Bool.false_eq_true, if_false]
      unfold walkPages at same
      split_ifs at same ⊢ with absent
      · exact ⟨rfl, rfl, nofun⟩
      · obtain ⟨entry, pages, inside⟩ := ih fun page later => same page (List.mem_cons_of_mem _ later)
        exact ⟨entry, by rw [pages], fun found reached => List.mem_cons_of_mem _ (inside found reached)⟩

/-- No page that an address leads to is a page of the table. -/
def Separate (pagetable : Page) (ram : Ram) : Prop :=
  ∀ va pte, leafOf pagetable va ram = some pte → ¬ lacks pte pteV →
    ∀ va', pte2pa pte ∉ walkPages va' 2 pagetable ram

/-- The translation of all addresses is the same in two memories. -/
def SameTable (pagetable : Page) (ram after : Ram) : Prop :=
  ∀ va, leafOf pagetable va after = leafOf pagetable va ram ∧
    walkPages va 2 pagetable after = walkPages va 2 pagetable ram

theorem SameTable.refl : SameTable pagetable ram ram := fun _ => ⟨rfl, rfl⟩

theorem SameTable.trans {last : Ram} (first : SameTable pagetable ram after) (second : SameTable pagetable after last) :
    SameTable pagetable ram last :=
  fun va => ⟨(second va).1.trans (first va).1, (second va).2.trans (first va).2⟩

theorem SameTable.separate (same : SameTable pagetable ram after) (separate : Separate pagetable ram) :
    Separate pagetable after := by
  intro va pte leaf valid va'
  rw [(same va').2]
  rw [(same va).1] at leaf
  exact separate va pte leaf valid va'

/-- A page outside the table can change. -/
theorem sameTable_of_outside (other : ∀ table, table ≠ page → after.word table = ram.word table)
    (outside : ∀ va, page ∉ walkPages va 2 pagetable ram) : SameTable pagetable ram after := by
  intro va
  have kept : ∀ table ∈ walkPages va 2 pagetable ram, after.word table = ram.word table := by
    intro table inside
    refine other table ?_
    rintro rfl
    exact outside va inside
  obtain ⟨entry, pages, reached⟩ := walkFrom_frame kept
  refine ⟨?_, pages⟩
  unfold leafOf
  rw [entry]
  cases found : (walkFrom va false 2 pagetable ram).1 with
  | none => rfl
  | some place =>
      have same := kept place.1 (reached place found)
      simp only [Option.map_some, same]

theorem walkaddr_eq : walkaddr pagetable va ram =
    if maxva ≤ va then none
    else (leafOf pagetable va ram).bind fun pte =>
      if lacks pte pteV ∨ lacks pte pteU ∨ pte2pa pte = 0 then none else some (pte2pa pte) := by
  unfold walkaddr leafOf
  cases (walkFrom va false 2 pagetable ram).1 with
  | none => rfl
  | some place => rfl

/-- `walkaddr` finds a leaf for the user. -/
theorem walkaddr_some (found : walkaddr pagetable va ram = some page) :
    ∃ pte, leafOf pagetable va ram = some pte ∧ ¬ lacks pte pteV ∧ ¬ lacks pte pteU ∧ pte2pa pte = page := by
  rw [walkaddr_eq] at found
  split_ifs at found
  obtain ⟨pte, leaf, user⟩ := Option.bind_eq_some_iff.mp found
  split_ifs at user with bad
  obtain ⟨valid, rest⟩ := not_or.mp bad
  exact ⟨pte, leaf, valid, (not_or.mp rest).1, Option.some.inj user⟩

theorem SameTable.walkaddr (same : SameTable pagetable ram after) (va : Uint64) :
    walkaddr pagetable va after = walkaddr pagetable va ram := by
  rw [walkaddr_eq, walkaddr_eq, (same va).1]

/-- A copy into a user page keeps the translation. -/
theorem sameTable_write (separate : Separate pagetable ram) (found : walkaddr pagetable va ram = some page)
    (offset : Nat) (bytes : List Byte) : SameTable pagetable ram (ram.write page offset bytes) := by
  obtain ⟨pte, leaf, valid, _, rfl⟩ := walkaddr_some found
  refine sameTable_of_outside (fun table other => ?_) (separate va pte leaf valid)
  funext i
  exact if_neg other

end Walk

section Copy

variable {pagetable : Page} {ram : Ram} {dstva : Uint64} {src : List Byte} {rounds : Nat}

/-- The pages of a range of user addresses are all mapped for the user. -/
def Accessible (pagetable : Page) (ram : Ram) (va : Uint64) (len : Nat) : Prop :=
  ∀ k < len, walkaddr pagetable (pgrounddown (va + BitVec.ofNat 64 k)) ram ≠ none

theorem pgrounddown_eq (va : Uint64) : pgrounddown va = (va >>> 12) <<< 12 := by
  unfold pgrounddown
  apply BitVec.eq_of_getLsbD_eq
  intro i small
  have mask : (pgsize - 1 : Uint64) = BitVec.ofNat 64 (2 ^ 12 - 1) := rfl
  rw [mask]
  simp only [BitVec.getLsbD_and, BitVec.getLsbD_not, BitVec.getLsbD_ofNat, Nat.testBit_two_pow_sub_one,
    BitVec.getLsbD_shiftLeft, BitVec.getLsbD_ushiftRight]
  by_cases low : i < 12
  · simp [low]
  · simp only [low, decide_false, small, decide_true]
    have same : 12 + (i - 12) = i := by omega
    rw [same]
    simp

theorem pgrounddown_toNat (va : Uint64) : (pgrounddown va).toNat = va.toNat - va.toNat % 4096 := by
  rw [pgrounddown_eq, BitVec.toNat_shiftLeft, BitVec.toNat_ushiftRight, Nat.shiftRight_eq_div_pow, Nat.shiftLeft_eq]
  have small := va.isLt
  omega

/-- The offset of an address in its page. -/
theorem offset_toNat (va : Uint64) : (va - pgrounddown va).toNat = va.toNat % 4096 := by
  have small := va.isLt
  rw [BitVec.toNat_sub, pgrounddown_toNat]
  omega

/-- The addresses of one page differ in their offsets. -/
theorem add_page {va : Uint64} {n : Nat} (room : va.toNat % 4096 + n < 4096) :
    pgrounddown (va + BitVec.ofNat 64 n) = pgrounddown va ∧
      (va + BitVec.ofNat 64 n).toNat % 4096 = va.toNat % 4096 + n := by
  have small := va.isLt
  have sum : (va + BitVec.ofNat 64 n).toNat = va.toNat + n := by
    rw [BitVec.toNat_add, BitVec.toNat_ofNat]
    omega
  refine ⟨BitVec.eq_of_toNat_eq ?_, by omega⟩
  rw [pgrounddown_toNat, pgrounddown_toNat, sum]
  omega

/-- The page after the page of an address. -/
theorem next_page (va : Uint64) :
    pgrounddown va + pgsize = va + BitVec.ofNat 64 (4096 - (va - pgrounddown va).toNat) := by
  apply BitVec.eq_of_toNat_eq
  have small := va.isLt
  have size : pgsize.toNat = 4096 := rfl
  rw [offset_toNat, BitVec.toNat_add, BitVec.toNat_add, pgrounddown_toNat, size, BitVec.toNat_ofNat]
  omega

/-- The number of bytes that one round of `copyout` copies. -/
def chunk (dstva : Uint64) (src : List Byte) : Nat := min (4096 - (dstva - pgrounddown dstva).toNat) src.length

theorem chunk_pos (dstva : Uint64) (more : src ≠ []) : 0 < chunk dstva src := by
  have length := List.length_pos_iff.mpr more
  have offset := offset_toNat dstva
  unfold chunk
  omega

/-- The addresses of the next rounds are the rest of the range. -/
theorem rest_address {k : Nat} (small : k < (src.drop (chunk dstva src)).length) :
    pgrounddown dstva + pgsize + BitVec.ofNat 64 k = dstva + BitVec.ofNat 64 (chunk dstva src + k) ∧
      chunk dstva src + k < src.length := by
  rw [List.length_drop] at small
  have whole : chunk dstva src = 4096 - (dstva - pgrounddown dstva).toNat := by
    unfold chunk at small ⊢
    omega
  refine ⟨?_, by omega⟩
  rw [next_page, ← whole, BitVec.ofNat_add, BitVec.add_assoc]

theorem copyoutLoop_succ (more : src ≠ []) : copyoutLoop pagetable (rounds + 1) dstva src ram =
    match walkaddr pagetable (pgrounddown dstva) ram with
    | none => (false, ram)
    | some pa0 => copyoutLoop pagetable rounds (pgrounddown dstva + pgsize) (src.drop (chunk dstva src))
        (ram.write pa0 (dstva - pgrounddown dstva).toNat (src.take (chunk dstva src))) := by
  cases src with
  | nil => exact absurd rfl more
  | cons first rest => rfl

theorem copyoutLoop_nil : copyoutLoop pagetable rounds dstva [] ram = (true, ram) := by
  cases rounds <;> rfl

/-- The addresses from the next page on are accessible if all of them are, and the first page is accessible. -/
theorem accessible_next {after : Ram} {pa0 : Page} {m : Nat} (same : SameTable pagetable ram after)
    (found : walkaddr pagetable (pgrounddown dstva) ram = some pa0) (fits : m ≤ (src.drop (chunk dstva src)).length) :
    Accessible pagetable after (pgrounddown dstva + pgsize) m ↔ Accessible pagetable ram dstva (chunk dstva src + m) := by
  constructor
  · intro accessible k inside
    by_cases first : k < chunk dstva src
    · have offset := offset_toNat dstva
      rw [(add_page (by unfold chunk at first; omega)).1, found]
      exact Option.some_ne_none pa0
    · obtain ⟨j, rfl⟩ := Nat.exists_eq_add_of_le (Nat.le_of_not_lt first)
      have small : j < (src.drop (chunk dstva src)).length := by omega
      rw [← (rest_address small).1, ← same.walkaddr]
      exact accessible j (by omega)
  · intro accessible k inside
    have small : k < (src.drop (chunk dstva src)).length := by omega
    rw [(rest_address small).1, same.walkaddr]
    exact accessible _ (by omega)

/-- A copy keeps the translation, and changes only user pages that it reaches. -/
theorem copyoutLoop_frame (separate : Separate pagetable ram) :
    SameTable pagetable ram (copyoutLoop pagetable rounds dstva src ram).2 ∧
      ∀ page, (∀ k < src.length, Accessible pagetable ram dstva (k + 1) →
        walkaddr pagetable (pgrounddown (dstva + BitVec.ofNat 64 k)) ram ≠ some page) →
        (copyoutLoop pagetable rounds dstva src ram).2.word page = ram.word page := by
  induction rounds generalizing dstva src ram with
  | zero =>
      cases src with
      | nil => exact ⟨.refl, fun _ _ => rfl⟩
      | cons first rest => exact ⟨.refl, fun _ _ => rfl⟩
  | succ rounds ih =>
      by_cases more : src = []
      · rw [more, copyoutLoop_nil]
        exact ⟨.refl, fun _ _ => rfl⟩
      rw [copyoutLoop_succ more]
      cases found : walkaddr pagetable (pgrounddown dstva) ram with
      | none => exact ⟨.refl, fun _ _ => rfl⟩
      | some pa0 =>
          have same := sameTable_write separate found (dstva - pgrounddown dstva).toNat (src.take (chunk dstva src))
          obtain ⟨later, kept⟩ := @ih _ (pgrounddown dstva + pgsize) (src.drop (chunk dstva src))
            (same.separate separate)
          refine ⟨same.trans later, fun page outside => ?_⟩
          rw [kept page]
          · have other : page ≠ pa0 := by
              rintro rfl
              refine outside 0 (List.length_pos_iff.mpr more) (fun k first => ?_) ?_
              · rw [Nat.lt_one_iff.mp first, BitVec.add_zero, found]
                exact Option.some_ne_none page
              · rw [BitVec.add_zero]
                exact found
            funext i
            exact if_neg other
          · intro k small accessible
            obtain ⟨address, inside⟩ := rest_address small
            rw [address, same.walkaddr]
            exact outside _ inside ((accessible_next same found small).mp accessible)

/-- A copy succeeds exactly when its addresses are all mapped for the user. -/
theorem copyoutLoop_accessible (separate : Separate pagetable ram) (enough : src.length ≤ rounds) :
    (copyoutLoop pagetable rounds dstva src ram).1 = true ↔ Accessible pagetable ram dstva src.length := by
  have nothing (va : Uint64) : Accessible pagetable ram va ([] : List Byte).length :=
    fun k none => absurd none (Nat.not_lt_zero k)
  induction rounds generalizing dstva src ram with
  | zero =>
      obtain rfl := List.eq_nil_of_length_eq_zero (Nat.le_zero.mp enough)
      simp only [copyoutLoop_nil, nothing]
  | succ rounds ih =>
      by_cases more : src = []
      · subst more
        simp only [copyoutLoop_nil, nothing]
      rw [copyoutLoop_succ more]
      cases found : walkaddr pagetable (pgrounddown dstva) ram with
      | none =>
          refine iff_of_false Bool.false_ne_true fun accessible => ?_
          have first := accessible 0 (List.length_pos_iff.mpr more)
          rw [BitVec.add_zero] at first
          exact first found
      | some pa0 =>
          have same := sameTable_write separate found (dstva - pgrounddown dstva).toNat (src.take (chunk dstva src))
          have positive := chunk_pos dstva more
          have fits : chunk dstva src ≤ src.length := Nat.min_le_right _ _
          have length : (src.drop (chunk dstva src)).length = src.length - chunk dstva src := List.length_drop ..
          have rest := @ih _ (pgrounddown dstva + pgsize) (src.drop (chunk dstva src)) (same.separate separate)
            (by omega) fun _ k none => absurd none (Nat.not_lt_zero k)
          rw [accessible_next same found le_rfl, length, Nat.add_sub_cancel' fits] at rest
          exact rest

theorem copyout_frame (separate : Separate pagetable ram) (dstva : Uint64) (src : List Byte) :
    SameTable pagetable ram (copyout pagetable dstva src ram).2 ∧
      ∀ page, (∀ k < src.length, Accessible pagetable ram dstva (k + 1) →
        walkaddr pagetable (pgrounddown (dstva + BitVec.ofNat 64 k)) ram ≠ some page) →
        (copyout pagetable dstva src ram).2.word page = ram.word page :=
  copyoutLoop_frame separate

theorem copyout_accessible (separate : Separate pagetable ram) (src : List Byte) :
    (copyout pagetable dstva src ram).1 = true ↔ Accessible pagetable ram dstva src.length :=
  copyoutLoop_accessible separate le_rfl

/-- A copy fails at once if its first address is not mapped for the user. -/
theorem copyout_unmapped (unmapped : ¬ Accessible pagetable ram dstva 1) (more : src ≠ []) :
    copyout pagetable dstva src ram = (false, ram) := by
  have missing : walkaddr pagetable (pgrounddown dstva) ram = none := by
    by_contra found
    refine unmapped fun k first => ?_
    rwa [Nat.lt_one_iff.mp first, BitVec.add_zero]
  obtain ⟨rounds, length⟩ := Nat.exists_eq_succ_of_ne_zero (List.length_pos_iff.mpr more).ne'
  unfold copyout
  rw [length, copyoutLoop_succ more, missing]

theorem SameTable.accessible {after : Ram} (same : SameTable pagetable ram after) {len : Nat} :
    Accessible pagetable after dstva len ↔ Accessible pagetable ram dstva len := by
  unfold Accessible
  simp only [same.walkaddr]

end Copy

section Permissions

variable {pagetable : Page} {ram : Ram}

/-- Two addresses of one page. -/
def SamePage (va va' : Uint64) : Prop := va >>> 12 = va' >>> 12

theorem SamePage.px {va va' : Uint64} (same : SamePage va va') (level : Nat) : px level va = px level va' := by
  have numbers : va.toNat / 2 ^ 12 = va'.toNat / 2 ^ 12 := by
    have shifted := congrArg BitVec.toNat same
    rwa [BitVec.toNat_ushiftRight, BitVec.toNat_ushiftRight, Nat.shiftRight_eq_div_pow,
      Nat.shiftRight_eq_div_pow] at shifted
  unfold Xv6.px
  rw [Nat.shiftRight_eq_div_pow, Nat.shiftRight_eq_div_pow, Nat.pow_add, ← Nat.div_div_eq_div_mul,
    ← Nat.div_div_eq_div_mul, numbers]

theorem SamePage.walkFrom {va va' : Uint64} (same : SamePage va va') (level : Nat) (table : Page) :
    walkFrom va false level table ram = walkFrom va' false level table ram := by
  induction level generalizing table with
  | zero => rw [Xv6.walkFrom, Xv6.walkFrom, same.px]
  | succ level ih =>
      unfold Xv6.walkFrom
      simp only [same.px, Bool.false_eq_true, if_false]
      split_ifs
      · rfl
      · exact ih _

theorem SamePage.leafOf {va va' : Uint64} (same : SamePage va va') : leafOf pagetable va ram = leafOf pagetable va' ram := by
  unfold Copyout.leafOf
  rw [same.walkFrom]

/-- No two pages of the address space share a frame. -/
def Distinct (pagetable : Page) (ram : Ram) : Prop :=
  ∀ va va' pte pte', va < maxva → va' < maxva → leafOf pagetable va ram = some pte →
    leafOf pagetable va' ram = some pte' → ¬ lacks pte pteV → ¬ lacks pte' pteV → pte2pa pte = pte2pa pte' →
    SamePage va va'

end Permissions

section Example

/-- The text page of a small program. -/
def textPte : Pte := pa2pte 4 ||| (pteV ||| pteR ||| pteX ||| pteU)

/-- The data page of a small program. -/
def dataPte : Pte := pa2pte 5 ||| (pteV ||| pteR ||| pteW ||| pteU)

/-- A program with a text page and a data page. -/
def smallRam : Ram where
  freelist := []
  word := fun page i =>
    if page = 1 then if i = 0 then pa2pte 2 ||| pteV else 0
    else if page = 2 then if i = 0 then pa2pte 3 ||| pteV else 0
    else if page = 3 then if i = 0 then textPte else if i = 1 then dataPte else 0
    else 0

theorem small_first : smallRam.word 1 = fun i => if i = 0 then pa2pte 2 ||| pteV else 0 := rfl

theorem small_second : smallRam.word 2 = fun i => if i = 0 then pa2pte 3 ||| pteV else 0 := rfl

theorem small_third : smallRam.word 3 = fun i => if i = 0 then textPte else if i = 1 then dataPte else 0 := rfl

/-- Every address goes through the three pages of the table. -/
theorem small_walk (va : Uint64) :
    (∀ page ∈ walkPages va 2 1 smallRam, page = 1 ∨ page = 2 ∨ page = 3) ∧
      (walkFrom va false 2 1 smallRam = (none, smallRam) ∨
        px 2 va = 0 ∧ px 1 va = 0 ∧ walkFrom va false 2 1 smallRam = (some (3, px 0 va), smallRam)) := by
  have absent : lacks (0 : Pte) pteV := by decide
  have first : ¬ lacks (pa2pte 2 ||| pteV) pteV := by decide
  have second : ¬ lacks (pa2pte 3 ||| pteV) pteV := by decide
  have to2 : pte2pa (pa2pte 2 ||| pteV) = 2 := by decide
  have to3 : pte2pa (pa2pte 3 ||| pteV) = 3 := by decide
  unfold walkFrom walkPages
  simp only [small_first, Nat.reduceAdd]
  by_cases zero : px 2 va = 0
  · simp only [if_pos zero, if_neg first, to2]
    unfold walkFrom walkPages
    simp only [small_second, Nat.reduceAdd]
    by_cases zero' : px 1 va = 0
    · simp only [if_pos zero', if_neg second, to3]
      exact ⟨by simp [walkPages], .inr ⟨zero, zero', rfl⟩⟩
    · simp only [if_neg zero', if_pos absent]
      exact ⟨by simp, .inl (by simp)⟩
  · simp only [if_neg zero, if_pos absent]
    exact ⟨by simp, .inl (by simp)⟩

/-- The two leaves of the program. -/
theorem small_leaf {va : Uint64} {pte : Pte} (leaf : leafOf 1 va smallRam = some pte) (valid : ¬ lacks pte pteV) :
    (px 2 va = 0 ∧ px 1 va = 0) ∧ (px 0 va = 0 ∧ pte = textPte ∨ px 0 va = 1 ∧ pte = dataPte) := by
  unfold leafOf at leaf
  rcases (small_walk va).2 with none | ⟨zero, zero', last⟩
  · rw [none] at leaf
    cases leaf
  · rw [last] at leaf
    have entry := Option.some.inj leaf
    simp only [small_third] at entry
    refine ⟨⟨zero, zero'⟩, ?_⟩
    split_ifs at entry with text data
    · exact .inl ⟨text, entry.symm⟩
    · exact .inr ⟨data, entry.symm⟩
    · rw [← entry] at valid
      exact absurd (by decide) valid

theorem small_separate : Separate 1 smallRam := by
  intro va pte leaf valid va' inside
  have outside : pte2pa pte = 4 ∨ pte2pa pte = 5 := by
    rcases (small_leaf leaf valid).2 with ⟨_, rfl⟩ | ⟨_, rfl⟩
    · exact .inl (by decide)
    · exact .inr (by decide)
  rcases (small_walk va').1 _ inside with one | two | three <;> rcases outside with four | five <;> simp_all

/-- Below `MAXVA` the three indices give the page. -/
theorem samePage_of_px {va va' : Uint64} (below : va < maxva) (below' : va' < maxva)
    (same : ∀ level < 3, px level va = px level va') : SamePage va va' := by
  have number (level : Nat) (small : level < 3) :
      va.toNat / 2 ^ (12 + 9 * level) % 512 = va'.toNat / 2 ^ (12 + 9 * level) % 512 := by
    have values := congrArg Fin.val (same level small)
    unfold px at values
    rwa [Fin.val_ofNat, Fin.val_ofNat, Nat.shiftRight_eq_div_pow, Nat.shiftRight_eq_div_pow] at values
  have low : va.toNat < 2 ^ 38 := below
  have low' : va'.toNat < 2 ^ 38 := below'
  have zero := number 0 (by omega)
  have one := number 1 (by omega)
  have two := number 2 (by omega)
  apply BitVec.eq_of_toNat_eq
  rw [BitVec.toNat_ushiftRight, BitVec.toNat_ushiftRight, Nat.shiftRight_eq_div_pow, Nat.shiftRight_eq_div_pow]
  simp only [Nat.reducePow, Nat.reduceMul, Nat.reduceAdd] at low low' zero one two ⊢
  omega

theorem small_distinct : Distinct 1 smallRam := by
  intro va va' pte pte' below below' leaf leaf' valid valid' same
  obtain ⟨⟨two, one⟩, last⟩ := small_leaf leaf valid
  obtain ⟨⟨two', one'⟩, last'⟩ := small_leaf leaf' valid'
  have zero : px 0 va = px 0 va' := by
    rcases last with ⟨here, rfl⟩ | ⟨here, rfl⟩ <;> rcases last' with ⟨there, rfl⟩ | ⟨there, rfl⟩
    · rw [here, there]
    · exact absurd same (by decide)
    · exact absurd same (by decide)
    · rw [here, there]
  refine samePage_of_px below below' fun level small => ?_
  obtain rfl | rfl | rfl : level = 0 ∨ level = 1 ∨ level = 2 := by omega
  · exact zero
  · rw [one, one']
  · rw [two, two']

end Example

end Xv6.Copyout
