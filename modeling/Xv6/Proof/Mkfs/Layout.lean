/-
This file gives the layout of the data blocks of an image: which blocks the indices of each inode have, and which
bytes of a file they hold. An index is given a block by an allocation, and a write fills a part of one block.
-/

import Xv6.Proof.Mkfs.Format

namespace Xv6.Mkfs

open Bytes OnDisk

/-- The blocks of the inodes of an image and the bytes in them. A pair of an inode and an index is used when it has a
block. -/
structure Layout (addrs : Nat → Addrs) (img : Blocks) (free : Nat) (used : Finset (Nat × Nat))
    (data : Nat → List Byte) : Prop where
  inside : ∀ x ∈ used, x.1 < ninodes ∧ x.2 ≤ maxfile
  present : ∀ k n, k < ninodes → n ≤ maxfile → (slotBlock img (addrs k) n ≠ 0 ↔ (k, n) ∈ used)
  range : ∀ k n, (k, n) ∈ used → nmeta ≤ (slotBlock img (addrs k) n).toNat ∧ (slotBlock img (addrs k) n).toNat < free
  apart : ∀ k n j m, (k, n) ∈ used → (j, m) ∈ used →
    (slotBlock img (addrs k) n).toNat = (slotBlock img (addrs j) m).toNat → k = j ∧ n = m
  bytes : ∀ k i, k < ninodes → i < (data k).length → i / bsize < maxfile ∧ (k, i / bsize) ∈ used ∧
    img (slotBlock img (addrs k) (i / bsize)).toNat (i % bsize) = (data k).getD i 0
  tails : ∀ k i, (k, i / bsize) ∈ used → i / bsize < maxfile → (data k).length ≤ i →
    img (slotBlock img (addrs k) (i / bsize)).toNat (i % bsize) = 0
  clean : ∀ b i, free ≤ b → i < bsize → img b i = 0
  count : free = nmeta + used.card

namespace Layout

variable {addrs after : Nat → Addrs} {img next : Blocks} {free : Nat} {used : Finset (Nat × Nat)} {data : Nat → List Byte}

theorem card_le (layout : Layout addrs img free used data) : used.card ≤ ninodes * (maxfile + 1) := by
  have within : used ⊆ Finset.range ninodes ×ˢ Finset.range (maxfile + 1) := by
    intro x member
    have place := layout.inside x member
    rw [Finset.mem_product, Finset.mem_range, Finset.mem_range]
    exact ⟨place.1, Nat.lt_succ_iff.mpr place.2⟩
  have bound := Finset.card_le_card within
  rwa [Finset.card_product, Finset.card_range, Finset.card_range] at bound

/-- The next block number fits its word. -/
theorem free_toNat (layout : Layout addrs img free used data) : (BitVec.ofNat 32 free).toNat = free := by
  have bound : used.card ≤ 200 * 269 := layout.card_le
  have total : free = 46 + used.card := layout.count
  rw [BitVec.toNat_ofNat]
  exact Nat.mod_eq_of_lt (by omega)

theorem free_ge (layout : Layout addrs img free used data) : nmeta ≤ free := by
  rw [layout.count]
  exact Nat.le_add_right _ _

theorem last_used (layout : Layout addrs img free used data) {k : Nat} (small : k < ninodes)
    (occupied : addrs k (Fin.last ndirect) ≠ 0) : (k, maxfile) ∈ used := by
  apply (layout.present k maxfile small (Nat.le_refl _)).mp
  rw [slotBlock_last]
  exact occupied

/-- An unused index is given the next block. -/
theorem alloc (layout : Layout addrs img free used data) {k n : Nat} (small : k < ninodes) (inside : n ≤ maxfile)
    (new : (k, n) ∉ used)
    (blocks : ∀ j m, j < ninodes → m ≤ maxfile → slotBlock next (after j) m =
      if j = k ∧ m = n then BitVec.ofNat 32 free else slotBlock img (addrs j) m)
    (kept : ∀ j m, (j, m) ∈ used → m < maxfile → ∀ i, i < bsize →
      next (slotBlock img (addrs j) m).toNat i = img (slotBlock img (addrs j) m).toNat i)
    (rest : ∀ b i, free ≤ b → i < bsize → next b i = img b i) :
    Layout after next (free + 1) (insert (k, n) used) data := by
  have number := layout.free_toNat
  have positive : (BitVec.ofNat 32 free) ≠ 0 := by
    intro zero
    have low : 46 ≤ free := layout.free_ge
    rw [zero] at number
    have none : (0 : Nat) = free := number
    omega
  have fresh : slotBlock next (after k) n = BitVec.ofNat 32 free := by
    rw [blocks k n small inside, if_pos ⟨rfl, rfl⟩]
  have old {j m : Nat} (member : (j, m) ∈ used) : slotBlock next (after j) m = slotBlock img (addrs j) m := by
    obtain ⟨first, second⟩ := layout.inside _ member
    rw [blocks j m first second, if_neg]
    rintro ⟨rfl, rfl⟩
    exact new member
  have cases' {j m : Nat} (member : (j, m) ∈ insert (k, n) used) : (j = k ∧ m = n) ∨ (j, m) ∈ used := by
    rcases Finset.mem_insert.mp member with same | before
    · exact .inl (Prod.mk.inj same)
    · exact .inr before
  constructor
  · intro x member
    rcases Finset.mem_insert.mp member with rfl | before
    · exact ⟨small, inside⟩
    · exact layout.inside x before
  · intro j m first second
    rw [blocks j m first second]
    by_cases same : j = k ∧ m = n
    · rw [if_pos same, same.1, same.2]
      exact iff_of_true positive (Finset.mem_insert_self _ _)
    · rw [if_neg same, layout.present j m first second, Finset.mem_insert]
      constructor
      · exact .inr
      · rintro (equal | before)
        · exact absurd (Prod.mk.inj equal) same
        · exact before
  · intro j m member
    rcases cases' member with ⟨rfl, rfl⟩ | before
    · rw [fresh, number]
      exact ⟨layout.free_ge, Nat.lt_succ_self _⟩
    · rw [old before]
      obtain ⟨low, high⟩ := layout.range j m before
      exact ⟨low, Nat.lt_succ_of_lt high⟩
  · intro j m i l left right equal
    rcases cases' left with ⟨rfl, rfl⟩ | first <;> rcases cases' right with ⟨rfl, rfl⟩ | second
    · exact ⟨rfl, rfl⟩
    · rw [fresh, number, old second] at equal
      exact absurd (layout.range i l second).2 (by omega)
    · rw [fresh, number, old first] at equal
      exact absurd (layout.range j m first).2 (by omega)
    · rw [old first, old second] at equal
      exact layout.apart j m i l first second equal
  · intro j i first below
    obtain ⟨index, member, byte⟩ := layout.bytes j i first below
    refine ⟨index, Finset.mem_insert_of_mem member, ?_⟩
    rw [old member, kept j _ member index _ (Nat.mod_lt _ (by decide))]
    exact byte
  · intro j i member index beyond
    have remainder : i % bsize < bsize := Nat.mod_lt _ (by decide)
    rcases cases' member with ⟨rfl, same⟩ | before
    · rw [same, fresh, number, rest _ _ (Nat.le_refl _) remainder]
      exact layout.clean _ _ (Nat.le_refl _) remainder
    · rw [old before, kept j _ before index _ remainder]
      exact layout.tails j i before index beyond
  · intro b i above below
    rw [rest b i (Nat.le_of_succ_le above) below]
    exact layout.clean b i (Nat.le_of_succ_le above) below
  · rw [Finset.card_insert_of_notMem new, ← Nat.add_assoc, ← layout.count]

/-- Blocks are written, and each index keeps its block. -/
theorem rewrite (layout : Layout addrs img free used data) {data' : Nat → List Byte}
    (blocks : ∀ j m, j < ninodes → m ≤ maxfile → slotBlock next (after j) m = slotBlock img (addrs j) m)
    (bytes : ∀ k i, k < ninodes → i < (data' k).length → i / bsize < maxfile ∧ (k, i / bsize) ∈ used ∧
      next (slotBlock img (addrs k) (i / bsize)).toNat (i % bsize) = (data' k).getD i 0)
    (tails : ∀ k i, (k, i / bsize) ∈ used → i / bsize < maxfile → (data' k).length ≤ i →
      next (slotBlock img (addrs k) (i / bsize)).toNat (i % bsize) = 0)
    (clean : ∀ b i, free ≤ b → i < bsize → next b i = 0) : Layout after next free used data' := by
  have same {j m : Nat} (here : (j, m) ∈ used) := blocks j m (layout.inside _ here).1 (layout.inside _ here).2
  refine ⟨layout.inside, fun j m first inside => ?_, fun j m here => ?_, fun j m i l left right => ?_,
    fun j i first inside => ?_, fun j i here index beyond => ?_, clean, layout.count⟩
  · rw [blocks j m first inside]
    exact layout.present j m first inside
  · rw [same here]
    exact layout.range j m here
  · rw [same left, same right]
    exact layout.apart j m i l left right
  · obtain ⟨index, here, byte⟩ := bytes j i first inside
    refine ⟨index, here, ?_⟩
    rw [same here]
    exact byte
  · rw [same here]
    exact tails j i here index beyond

/-- The addresses of one inode change. -/
theorem blocks_update {k n : Nat} {a : Addrs}
    (mine : ∀ m, m ≤ maxfile → slotBlock img a m = if m = n then BitVec.ofNat 32 free else slotBlock img (addrs k) m)
    (j m : Nat) (high : m ≤ maxfile) : slotBlock img (Function.update addrs k a j) m =
      if j = k ∧ m = n then BitVec.ofNat 32 free else slotBlock img (addrs j) m := by
  by_cases same : j = k
  · rw [same, Function.update_self, mine m high]
    simp
  · rw [Function.update_of_ne same, if_neg fun both => same both.1]

theorem alloc_direct (layout : Layout addrs img free used data) {k n : Nat} (small : k < ninodes) (direct : n < ndirect)
    (new : (k, n) ∉ used) :
    Layout (Function.update addrs k (Function.update (addrs k) ⟨n, Nat.lt_succ_of_lt direct⟩ (BitVec.ofNat 32 free)))
      img (free + 1) (insert (k, n) used) data := by
  have below : n ≤ maxfile := Nat.le_of_lt (Nat.lt_of_lt_of_le direct (by decide))
  refine layout.alloc small below new (fun j m _ high => ?_) (fun _ _ _ _ _ _ => rfl) (fun _ _ _ _ => rfl)
  exact blocks_update (fun m _ => slotBlock_set_direct direct _ m) j m high

theorem alloc_last (layout : Layout addrs img free used data) {k : Nat} (small : k < ninodes)
    (new : (k, maxfile) ∉ used) :
    Layout (Function.update addrs k (Function.update (addrs k) (Fin.last ndirect) (BitVec.ofNat 32 free)))
      img (free + 1) (insert (k, maxfile) used) data := by
  refine layout.alloc small (Nat.le_refl _) new (fun j m _ high => ?_) (fun _ _ _ _ _ _ => rfl) (fun _ _ _ _ => rfl)
  have none : addrs k (Fin.last ndirect) = 0 := by
    by_contra occupied
    exact new (layout.last_used small occupied)
  refine blocks_update (fun m high => slotBlock_set_last none (fun i inside => ?_) high) j m high
  rw [layout.free_toNat]
  exact layout.clean _ _ (Nat.le_refl _) inside

/-- The indirect block of an inode is no block of another index. -/
theorem last_apart (layout : Layout addrs img free used data) {k j m : Nat} (mine : (k, maxfile) ∈ used)
    (member : (j, m) ∈ used) (other : ¬ (j = k ∧ m = maxfile)) :
    (slotBlock img (addrs j) m).toNat ≠ (addrs k (Fin.last ndirect)).toNat := by
  intro equal
  refine other (layout.apart j m k maxfile member mine ?_)
  rw [equal, slotBlock_last]

theorem alloc_entry (layout : Layout addrs img free used data) {k n : Nat} (small : k < ninodes) (low : ndirect ≤ n)
    (high : n < maxfile) (new : (k, n) ∉ used) (mine : (k, maxfile) ∈ used) :
    Layout addrs
      (filled img (addrs k (Fin.last ndirect)).toNat (4 * (n - ndirect)) 4 (octet (BitVec.ofNat 32 free)))
      (free + 1) (insert (k, n) used) data := by
  have occupied : addrs k (Fin.last ndirect) ≠ 0 := by
    have present := (layout.present k maxfile small (Nat.le_refl _)).mpr mine
    rwa [slotBlock_last] at present
  refine layout.alloc small (Nat.le_of_lt high) new (fun j m first inside => ?_) (fun j m member below i _ => ?_)
    (fun b i above _ => ?_)
  · by_cases same : j = k
    · rw [same, slotBlock_set_entry low high occupied _ inside]
      simp
    · rw [if_neg fun both => same both.1]
      refine slotBlock_congr (fun there i _ => ?_) inside
      have apart := layout.last_apart mine (layout.last_used first there) fun both => same both.1
      rw [slotBlock_last] at apart
      rw [filled_other apart]
  · have apart := layout.last_apart mine member fun both => Nat.ne_of_lt below both.2
    rw [filled_other apart]
  · have bound := (layout.range k maxfile mine).2
    rw [slotBlock_last] at bound
    rw [filled_other (by omega)]

/-- A part of a data block that extends a file is written. -/
theorem write (layout : Layout addrs img free used data) {k : Nat} {chunk : List Byte} (small : k < ninodes)
    (below : (data k).length / bsize < maxfile) (member : (k, (data k).length / bsize) ∈ used)
    (fits : chunk.length ≤ bsize - (data k).length % bsize) {source : ByteMap}
    (same : ∀ i, i < chunk.length → source i = chunk.getD i 0) :
    Layout addrs
      (filled img (slotBlock img (addrs k) ((data k).length / bsize)).toNat ((data k).length % bsize) chunk.length source)
      free used (Function.update data k (data k ++ chunk)) := by
  have span : chunk.length ≤ 1024 - (data k).length % 1024 := fits
  have blocks (j m : Nat) (first : j < ninodes) (inside : m ≤ maxfile) :
      slotBlock (filled img (slotBlock img (addrs k) ((data k).length / bsize)).toNat ((data k).length % bsize)
        chunk.length source) (addrs j) m = slotBlock img (addrs j) m := by
    refine slotBlock_congr (fun there i _ => ?_) inside
    have other := layout.last_apart (layout.last_used first there) member fun both => Nat.ne_of_lt below both.2
    rw [filled_other other.symm]
  refine layout.rewrite blocks (fun j i first inside => ?_) (fun j i here index beyond => ?_) (fun b i above inside => ?_)
  · by_cases new : j = k ∧ (data k).length ≤ i
    · obtain ⟨rfl, late⟩ := new
      rw [Function.update_self, List.length_append] at inside
      have quotient : i / bsize = (data j).length / bsize := by
        show i / 1024 = (data j).length / 1024
        omega
      have offset : i % bsize = (data j).length % bsize + (i - (data j).length) := by
        show i % 1024 = (data j).length % 1024 + (i - (data j).length)
        omega
      rw [quotient]
      refine ⟨below, member, ?_⟩
      rw [Function.update_self, filled_self, offset, overlay_inside (by omega), same _ (by omega),
        List.getD_append_right _ _ _ _ late]
    · have before : i < (data j).length ∧
          (Function.update data k (data k ++ chunk) j).getD i 0 = (data j).getD i 0 := by
        by_cases mine : j = k
        · subst mine
          have early : i < (data j).length := Nat.not_le.mp fun late => new ⟨rfl, late⟩
          rw [Function.update_self]
          exact ⟨early, List.getD_append _ _ _ _ early⟩
        · rw [Function.update_of_ne mine] at inside ⊢
          exact ⟨inside, rfl⟩
      obtain ⟨index, here, byte⟩ := layout.bytes j i first before.1
      refine ⟨index, here, ?_⟩
      rw [before.2, ← byte]
      by_cases block : (slotBlock img (addrs j) (i / bsize)).toNat =
          (slotBlock img (addrs k) ((data k).length / bsize)).toNat
      · obtain ⟨rfl, equal⟩ := layout.apart _ _ _ _ here member block
        rw [block, filled_self]
        apply overlay_outside
        left
        show i % 1024 < (data j).length % 1024
        have parts : i / 1024 = (data j).length / 1024 := equal
        omega
      · rw [filled_other block]
  · have before : (data j).length ≤ i := by
      by_cases mine : j = k
      · rw [mine, Function.update_self, List.length_append] at beyond
        rw [mine]
        omega
      · rwa [Function.update_of_ne mine] at beyond
    by_cases block : (slotBlock img (addrs j) (i / bsize)).toNat =
        (slotBlock img (addrs k) ((data k).length / bsize)).toNat
    · obtain ⟨rfl, equal⟩ := layout.apart _ _ _ _ here member block
      rw [Function.update_self, List.length_append] at beyond
      have outside : (data j).length % bsize + chunk.length ≤ i % bsize := by
        have parts : i / 1024 = (data j).length / 1024 := equal
        show (data j).length % 1024 + chunk.length ≤ i % 1024
        omega
      rw [block, filled_self, overlay_outside (.inr outside), ← block]
      exact layout.tails j i here index before
    · rw [filled_other block]
      exact layout.tails j i here index before
  · have bound := (layout.range _ _ member).2
    rw [filled_other (by omega)]
    exact layout.clean b i above inside

/-- The layout says nothing about the blocks before the data and about unused addresses. -/
theorem congr (layout : Layout addrs img free used data) (same : ∀ b, nmeta ≤ b → next b = img b)
    (slots : ∀ j m, j < ninodes → m ≤ maxfile → slotBlock img (after j) m = slotBlock img (addrs j) m) :
    Layout after next free used data := by
  have blocks (j m : Nat) (first : j < ninodes) (inside : m ≤ maxfile) :
      slotBlock next (after j) m = slotBlock img (addrs j) m := by
    rw [← slots j m first inside]
    refine slotBlock_congr (fun there i _ => ?_) inside
    have last := slots j maxfile first (Nat.le_refl _)
    rw [slotBlock_last, slotBlock_last] at last
    have low := (layout.range j maxfile (layout.last_used first (last ▸ there))).1
    rw [slotBlock_last, ← last] at low
    rw [same _ low]
  refine layout.rewrite blocks (fun j i first inside => ?_) (fun j i here index beyond => ?_) (fun b i above inside => ?_)
  · obtain ⟨index, here, byte⟩ := layout.bytes j i first inside
    refine ⟨index, here, ?_⟩
    rw [same _ (layout.range _ _ here).1]
    exact byte
  · rw [same _ (layout.range _ _ here).1]
    exact layout.tails j i here index beyond
  · rw [same b (Nat.le_trans layout.free_ge above)]
    exact layout.clean b i above inside

end Layout

end Xv6.Mkfs
