/-
This file counts the pages that a growing process takes. Each page of user memory comes from the free list, so the size of
a process and the free memory together do not grow.
-/

import Xv6.Kernel.Vm
import Xv6.Proof.Vm.Copyout

namespace Xv6.Grow

/-- The number of free pages. -/
abbrev spare (ram : Ram) : Nat := ram.freelist.length

section Pages

variable {ram after : Ram} {layout : Layout} {pagetable page : Page}

theorem kalloc_some {mem : Page} (taken : kalloc ram = (some mem, after)) : spare after + 1 = spare ram := by
  unfold kalloc at taken
  split at taken
  · cases taken
  · next list =>
      cases taken
      rw [spare, spare, list]
      rfl

theorem kalloc_none (taken : kalloc ram = (none, after)) : after = ram := by
  unfold kalloc at taken
  split at taken
  · exact (congrArg Prod.snd taken).symm
  · cases taken

theorem kfree_ok (freed : kfree layout page ram = .ok after) : spare after = spare ram + 1 := by
  unfold kfree at freed
  split at freed
  · cases freed
  · cases freed
    rfl

theorem walkFrom_spare {va : Uint64} {alloc : Bool} {level : Nat} {found : Option (Page × WordIndex)}
    (walked : walkFrom va alloc level pagetable ram = (found, after)) : spare after ≤ spare ram := by
  induction level generalizing pagetable ram with
  | zero =>
      cases walked
      exact Nat.le_refl _
  | succ level ih =>
      rw [walkFrom] at walked
      split at walked
      · split at walked
        · split at walked
          · next taken =>
              obtain rfl := kalloc_none taken
              cases walked
              exact Nat.le_refl _
          · next taken =>
              have fewer := kalloc_some taken
              have rest := ih walked
              rw [spare, spare] at *
              simp only [Ram.setWord, Ram.fill] at rest
              omega
        · cases walked
          exact Nat.le_refl _
      · exact ih walked

/-- Two computations one after another return when both of them do. -/
theorem bind_ok {ε α β : Type} {x : Except ε α} {f : α → Except ε β} {b : β} (returned : x >>= f = .ok b) :
    ∃ a, x = .ok a ∧ f a = .ok b := by
  cases x with
  | error e => cases returned
  | ok a => exact ⟨a, rfl, returned⟩

theorem walk_spare {va : Uint64} {alloc : Bool} {found : Option (Page × WordIndex)}
    (walked : walk pagetable va alloc ram = .ok (found, after)) : spare after ≤ spare ram ∧ va < maxva := by
  unfold walk at walked
  split at walked
  · cases walked
  · next below => exact ⟨walkFrom_spare (Except.ok.inj walked), BitVec.not_le.mp below⟩

theorem mapLoop_spare {last a : Uint64} {perm : Pte} {bound : Nat} {mapped : Bool}
    (ran : mapLoop pagetable last perm bound a page ram = .ok (mapped, after)) : spare after ≤ spare ram := by
  induction bound generalizing a page ram with
  | zero => cases ran
  | succ bound ih =>
      rw [mapLoop] at ran
      obtain ⟨⟨found, middle⟩, walked, ran⟩ := bind_ok ran
      have first := (walk_spare walked).1
      cases found with
      | none =>
          cases ran
          exact first
      | some place =>
          simp only at ran
          split at ran
          · split at ran
            · cases ran
              exact first
            · exact Nat.le_trans (ih ran) first
          · cases ran

theorem mappages_spare {va size : Uint64} {perm : Pte} {mapped : Bool}
    (ran : mappages pagetable va size page perm ram = .ok (mapped, after)) : spare after ≤ spare ram := by
  unfold mappages at ran
  split at ran
  · cases ran
  · exact mapLoop_spare ran

/-- `uvmunmap` frees one page for each page that it visits. -/
theorem unmapLoop_spare {stop a : Uint64} {doFree : Bool} {bound count : Nat} (close : stop.toNat ≤ a.toNat + 4096 * count)
    (ran : unmapLoop layout pagetable stop doFree bound a ram = .ok after) : spare after ≤ spare ram + count := by
  induction bound generalizing a ram count with
  | zero => cases ran
  | succ bound ih =>
      rw [unmapLoop] at ran
      split at ran
      · next less =>
          have below : a.toNat < stop.toNat := less
          obtain ⟨⟨found, middle⟩, walked, ran⟩ := bind_ok ran
          obtain ⟨first, low⟩ := walk_spare walked
          have small : a.toNat < 2 ^ 38 := low
          cases found with
          | none => cases ran
          | some place =>
              simp only at ran
              split at ran
              · cases ran
              split at ran
              · cases ran
              have freed : ∃ freed, spare freed ≤ spare middle + 1 ∧ unmapLoop layout pagetable stop doFree bound
                  (a + pgsize) (freed.setWord place.1 place.2 0) = .ok after := by
                split at ran
                · obtain ⟨freed, step, ran⟩ := bind_ok ran
                  exact ⟨freed, Nat.le_of_eq (kfree_ok step), ran⟩
                · exact ⟨middle, Nat.le_succ _, ran⟩
              obtain ⟨freed, one, ran⟩ := freed
              have next : (a + pgsize).toNat = a.toNat + 4096 := by
                rw [BitVec.toNat_add]
                exact Nat.mod_eq_of_lt (by show a.toNat + 4096 < 2 ^ 64; omega)
              have rest := ih (show stop.toNat ≤ (a + pgsize).toNat + 4096 * (count - 1) by rw [next]; omega) ran
              have same : spare (freed.setWord place.1 place.2 0) = spare freed := rfl
              omega
      · cases ran
        exact Nat.le_add_right _ _

/-- The end of the page of the last byte below an address. -/
def roundUp (a : Nat) : Nat := (a + 4095) / 4096 * 4096

theorem pgroundup_toNat {a : Uint64} (small : a.toNat < 2 ^ 40) : (pgroundup a).toNat = roundUp a.toNat := by
  have sum : (a + (pgsize - 1)).toNat = a.toNat + 4095 := by
    rw [BitVec.toNat_add]
    exact Nat.mod_eq_of_lt (by show a.toNat + 4095 < 2 ^ 64; omega)
  show (pgrounddown (a + (pgsize - 1))).toNat = roundUp a.toNat
  rw [Copyout.pgrounddown_toNat, sum, roundUp]
  omega

/-- A count that is not negative is the same number in 64 bits. -/
theorem toNat_signExtend {n : CInt} (small : n.toNat < 2 ^ 31) : (n.signExtend 64).toNat = n.toNat := by
  have positive : n.msb = false := BitVec.msb_eq_false_iff_two_mul_lt.mpr (by omega)
  rw [BitVec.signExtend_eq_setWidth_of_msb_false positive, BitVec.toNat_setWidth]
  omega

theorem uvmdealloc_spare {a oldsz : Uint64} {result : Uint64} (aligned : a.toNat % 4096 = 0)
    (start : oldsz.toNat % 4096 = 0) (small : a.toNat < 2 ^ 38) (order : oldsz.toNat ≤ a.toNat)
    (ran : uvmdealloc layout pagetable a oldsz ram = .ok (result, after)) :
    oldsz.toNat + 4096 * spare after ≤ a.toNat + 4096 * spare ram := by
  unfold uvmdealloc at ran
  split at ran
  · cases ran
    omega
  split at ran
  · obtain ⟨middle, unmapped, ran⟩ := bind_ok ran
    cases ran
    unfold uvmunmap at unmapped
    split at unmapped
    · cases unmapped
    have first : (pgroundup oldsz).toNat = oldsz.toNat := by
      rw [pgroundup_toNat (by omega), roundUp]
      omega
    have last : (pgroundup a).toNat = a.toNat := by
      rw [pgroundup_toNat (by omega), roundUp]
      omega
    have difference : (pgroundup a - pgroundup oldsz).toNat = a.toNat - oldsz.toNat := by
      rw [BitVec.toNat_sub_of_le (BitVec.le_def.mpr (by omega)), first, last]
    have npages : (((pgroundup a - pgroundup oldsz) / pgsize).setWidth 32 : CInt).toNat = (a.toNat - oldsz.toNat) / 4096 := by
      rw [BitVec.toNat_setWidth, BitVec.toNat_udiv, difference]
      exact Nat.mod_eq_of_lt (by show (a.toNat - oldsz.toNat) / 4096 < 2 ^ 32; omega)
    have close : (pgroundup oldsz + ((((pgroundup a - pgroundup oldsz) / pgsize).setWidth 32 : CInt).signExtend 64) *
        pgsize).toNat ≤ (pgroundup oldsz).toNat + 4096 * ((a.toNat - oldsz.toNat) / 4096) := by
      rw [BitVec.toNat_add, BitVec.toNat_mul, toNat_signExtend (by rw [npages]; omega), npages, first]
      refine Nat.le_trans (Nat.mod_le _ _) (Nat.add_le_add_left (Nat.le_trans (Nat.mod_le _ _) ?_) _)
      exact Nat.le_of_eq (Nat.mul_comm _ _)
    have count := unmapLoop_spare close unmapped
    omega
  · cases ran
    omega

/-- The loop of `uvmalloc` ends with the new size, or with the old one after a failure. Each page that it adds was a free
one. -/
theorem allocLoop_spare {oldsz newsz a result : Uint64} {xperm : Pte} {bound : Nat} (aligned : a.toNat % 4096 = 0)
    (start : oldsz.toNat % 4096 = 0) (order : oldsz.toNat ≤ a.toNat) (low : a.toNat + 4096 * spare ram ≤ 2 ^ 36)
    (ran : allocLoop layout pagetable oldsz newsz xperm bound a ram = .ok (result, after)) :
    result = newsz ∧ roundUp newsz.toNat + 4096 * spare after ≤ a.toNat + 4096 * spare ram ∨
      result = 0 ∧ oldsz.toNat + 4096 * spare after ≤ a.toNat + 4096 * spare ram := by
  induction bound generalizing a ram with
  | zero => cases ran
  | succ bound ih =>
      rw [allocLoop] at ran
      split at ran
      · split at ran
        · next taken =>
            obtain rfl := kalloc_none taken
            obtain ⟨⟨size, freed⟩, dealloc, ran⟩ := bind_ok ran
            cases ran
            exact Or.inr ⟨rfl, uvmdealloc_spare aligned start (by omega) order dealloc⟩
        · next mem middle taken =>
            have fewer := kalloc_some taken
            have filled : spare (middle.fill mem 0) = spare middle := rfl
            obtain ⟨⟨mapped, extended⟩, map, ran⟩ := bind_ok ran
            have more := mappages_spare map
            simp only at ran
            split at ran
            · have next : (a + pgsize).toNat = a.toNat + 4096 := by
                rw [BitVec.toNat_add]
                exact Nat.mod_eq_of_lt (by show a.toNat + 4096 < 2 ^ 64; omega)
              have rest := ih (by rw [next]; omega) (by rw [next]; omega) (by rw [next]; omega) ran
              rw [next] at rest
              exact rest.imp (fun done => ⟨done.1, by omega⟩) fun failed => ⟨failed.1, by omega⟩
            · obtain ⟨freed, free, ran⟩ := bind_ok ran
              obtain ⟨⟨size, shrunk⟩, dealloc, ran⟩ := bind_ok ran
              cases ran
              have back := kfree_ok free
              have total := uvmdealloc_spare aligned start (by omega) order dealloc
              refine Or.inr ⟨rfl, ?_⟩
              show oldsz.toNat + 4096 * spare shrunk ≤ _
              omega
      · next reached =>
          have above : ¬ a.toNat < newsz.toNat := reached
          cases ran
          refine Or.inl ⟨rfl, ?_⟩
          rw [roundUp]
          omega

end Pages

section Process

variable {layout : Layout} {p q : UserSpace} {n : CInt}

/-- The size of a process together with the free memory is below a bound. -/
def Bounded (p : UserSpace) : Prop := roundUp p.sz.toNat + 4096 * spare p.ram ≤ 2 ^ 36

/-- `growproc` with a positive count adds exactly that many bytes, or it fails and adds none. -/
theorem growproc_grows {grown : Bool} (bounded : Bounded p) (positive : 0 < n.toInt)
    (ran : growproc layout n p = .ok (grown, q)) :
    Bounded q ∧ q.sz.toNat = p.sz.toNat + if grown then n.toInt.toNat else 0 := by
  have size : p.sz.toNat ≤ 2 ^ 36 := by
    unfold Bounded roundUp at bounded
    omega
  have small : n.toNat < 2 ^ 31 := by
    have bound := n.isLt
    rw [BitVec.toInt_eq_toNat_cond] at positive
    split at positive <;> omega
  have count : n.toInt.toNat = n.toNat := by
    rw [BitVec.toInt_eq_toNat_of_lt (by omega)]
    exact Int.toNat_natCast _
  have sum : (p.sz + n.signExtend 64).toNat = p.sz.toNat + n.toNat := by
    rw [BitVec.toNat_add, toNat_signExtend small]
    omega
  rw [growproc, if_pos positive] at ran
  obtain ⟨⟨sz, ram⟩, alloc, ran⟩ := bind_ok ran
  unfold uvmalloc at alloc
  rw [if_neg (BitVec.not_lt.mpr (BitVec.le_def.mpr (by omega)))] at alloc
  have rounded := pgroundup_toNat (a := p.sz) (by omega)
  have outcome := allocLoop_spare (by rw [rounded, roundUp]; omega) (by rw [rounded, roundUp]; omega) (Nat.le_refl _)
    (by rw [rounded]; exact bounded) alloc
  rw [rounded] at outcome
  rcases outcome with ⟨rfl, pages⟩ | ⟨rfl, pages⟩
  · have nonzero : p.sz + n.signExtend 64 ≠ 0 := by
      intro zero
      rw [zero] at sum
      have positive' : 0 < n.toNat := by omega
      exact absurd sum.symm (Nat.ne_of_gt (Nat.add_pos_right _ positive'))
    simp only [nonzero, if_false] at ran
    cases ran
    refine ⟨Nat.le_trans pages bounded, ?_⟩
    rw [if_pos rfl, count]
    exact sum
  · simp only [if_true] at ran
    cases ran
    exact ⟨Nat.le_trans pages bounded, rfl⟩

end Process

end Xv6.Grow
