/-
This file proves that `bmap` gives the block of an index. It allocates at most the indirect block and the block itself,
and the bytes of all files stay.
-/

import Xv6.Proof.BlockFs.Alloc

namespace Xv6.BlockFs

open Bytes OnDisk Program

/-- The blocks of the free map. -/
def mapBlocks (sb : DiskSuperblock) : Finset Nat := (Finset.range sb.size.toNat).image sb.bblock

/-- Blocks are given to one inode, and bytes of its blocks are written. `log_write` has recorded blocks of the free map
and of some indices of the inode. -/
structure Extends (sb : DiskSuperblock) (k : Nat) (indices : Finset Nat) (v : Volume) (nodes : Nat → Dinode) (t : Volume)
    (after : Nat → Dinode) : Prop where
  sound : Sound sb t.img after
  others : ∀ j, j ≠ k → after j = nodes j
  same : after k = { nodes k with addrs := (after k).addrs }
  slots : ∀ x, slotOf sb v.img nodes x ≠ 0 → slotOf sb t.img after x = slotOf sb v.img nodes x
  news : ∀ x, slotOf sb t.img after x ≠ 0 → slotOf sb v.img nodes x ≠ 0 ∨ x.1 = k ∧ x.2 ∈ indices
  early : ∀ b, b < sb.bmapstart.toNat → t.img b = v.img b
  logged : v.logged ⊆ t.logged
  bound : ∀ b ∈ t.logged, b ∈ v.logged ∨ b ∈ mapBlocks sb ∨ ∃ m ∈ indices, b ≠ 0 ∧ slotOf sb t.img after (k, m) = b

/-- The bytes of all data blocks stay, and every changed or new block is recorded. -/
structure Keeps (sb : DiskSuperblock) (v : Volume) (nodes : Nat → Dinode) (t : Volume) (after : Nat → Dinode) : Prop where
  cells : ∀ x, x.2 < maxfile → ∀ i, i < bsize → cell sb t.img after x i = cell sb v.img nodes x i
  recorded : ∀ b, t.img b ≠ v.img b → b ∈ t.logged
  fresh : ∀ x, slotOf sb v.img nodes x = 0 → slotOf sb t.img after x ≠ 0 → slotOf sb t.img after x ∈ t.logged

section Relations

variable {sb : DiskSuperblock} {k : Nat} {I J : Finset Nat} {v t u : Volume} {nodes after last : Nat → Dinode}

/-- A block of a file is no block of the free map. -/
theorem Sound.not_mem_mapBlocks (sound : Sound sb v.img nodes) (geometry : Geometry sb) {x : Nat × Nat}
    (named : slotOf sb v.img nodes x ≠ 0) : slotOf sb v.img nodes x ∉ mapBlocks sb := by
  intro member
  obtain ⟨b, inside, block⟩ := Finset.mem_image.mp member
  have below := geometry.maps b (Finset.mem_range.mp inside)
  have data := (sound.range named).1
  omega

theorem Extends.refl (sound : Sound sb v.img nodes) : Extends sb k ∅ v nodes v nodes :=
  ⟨sound, fun _ _ => rfl, rfl, fun _ _ => rfl, fun _ named => .inl named, fun _ _ => rfl, Finset.Subset.refl _,
    fun _ member => .inl member⟩

theorem Extends.trans (first : Extends sb k I v nodes t after) (second : Extends sb k J t after u last) :
    Extends sb k (I ∪ J) v nodes u last := by
  refine ⟨second.sound, fun j other => ?_, ?_, fun x occupied => ?_, fun x named => ?_, fun b low => ?_, ?_,
    fun b member => ?_⟩
  · rw [second.others j other, first.others j other]
  · rw [second.same, first.same]
  · have here := first.slots x occupied
    rw [second.slots x (by rwa [here]), here]
  · rcases second.news x named with before | ⟨mine, index⟩
    · rcases first.news x before with old | ⟨mine, index⟩
      · exact .inl old
      · exact .inr ⟨mine, Finset.mem_union_left _ index⟩
    · exact .inr ⟨mine, Finset.mem_union_right _ index⟩
  · rw [second.early b low, first.early b low]
  · exact first.logged.trans second.logged
  · rcases second.bound b member with before | map | ⟨m, index, occupied, block⟩
    · rcases first.bound b before with old | map | ⟨m, index, occupied, block⟩
      · exact .inl old
      · exact .inr (.inl map)
      · refine .inr (.inr ⟨m, Finset.mem_union_left _ index, occupied, ?_⟩)
        rw [second.slots _ (by rwa [block]), block]
    · exact .inr (.inl map)
    · exact .inr (.inr ⟨m, Finset.mem_union_right _ index, occupied, block⟩)

theorem Extends.mono (step : Extends sb k I v nodes t after) (larger : I ⊆ J) : Extends sb k J v nodes t after := by
  refine ⟨step.sound, step.others, step.same, step.slots, fun x named => ?_, step.early, step.logged,
    fun b member => ?_⟩
  · exact (step.news x named).imp_right fun both => ⟨both.1, larger both.2⟩
  · rcases step.bound b member with before | map | ⟨m, index, named⟩
    · exact .inl before
    · exact .inr (.inl map)
    · exact .inr (.inr ⟨m, larger index, named⟩)

/-- No file gets a hole. -/
theorem Extends.whole (step : Extends sb k I v nodes t after) {j : Nat} (whole : Whole sb v.img nodes j) :
    Whole sb t.img after j := by
  have size : (after j).size = (nodes j).size := by
    by_cases mine : j = k
    · rw [mine, step.same]
    · rw [step.others j mine]
  intro m inside
  rw [size] at inside
  rw [step.slots _ (whole m inside)]
  exact whole m inside

theorem Keeps.refl : Keeps sb v nodes v nodes := 
  ⟨fun _ _ _ _ => rfl, fun _ changed => absurd rfl changed, fun _ empty named => absurd empty named⟩

theorem Keeps.trans (first : Keeps sb v nodes t after) (second : Keeps sb t after u last)
    (step : Extends sb k J t after u last) : Keeps sb v nodes u last := by
  refine ⟨fun x low i inside => ?_, fun b changed => ?_, fun x empty named => ?_⟩
  · rw [second.cells x low i inside, first.cells x low i inside]
  · by_cases here : u.img b = t.img b
    · rw [here] at changed
      exact step.logged (first.recorded b changed)
    · exact second.recorded b here
  · by_cases later : slotOf sb t.img after x = 0
    · exact second.fresh x later named
    · rw [step.slots x later]
      exact step.logged (first.fresh x empty later)

end Relations

section Steps

variable {sb : DiskSuperblock} {v : Volume} {nodes after : Nat → Dinode} {b k n : Nat}

/-- A block that is taken is no block of a file. -/
structure Fresh (sb : DiskSuperblock) (img : Blocks) (nodes : Nat → Dinode) (b : Nat) : Prop where
  inside : b < sb.size.toNat
  clear : bitOf sb img b = false
  data : dataStart sb ≤ b
  unnamed : ∀ x, slotOf sb img nodes x ≠ b

theorem Sound.fresh (sound : Sound sb v.img nodes) (inside : b < sb.size.toNat) (clear : bitOf sb v.img b = false) :
    Fresh sb v.img nodes b := by
  have free : ¬ bitOf sb v.img b = true := by
    rw [clear]
    exact Bool.noConfusion
  obtain ⟨data, unnamed⟩ := sound.map.unnamed inside free
  exact ⟨inside, clear, data, unnamed⟩

theorem Fresh.toNat {img : Blocks} (fresh : Fresh sb img nodes b) : (BitVec.ofNat 32 b).toNat = b := by
  rw [BitVec.toNat_ofNat]
  exact Nat.mod_eq_of_lt (Nat.lt_trans fresh.inside sb.size.isLt)

theorem Fresh.ne_zero {img : Blocks} (geometry : Geometry sb) (fresh : Fresh sb img nodes b) : BitVec.ofNat 32 b ≠ 0 := by
  intro zero
  have number := fresh.toNat
  rw [zero] at number
  have none : 0 = b := number
  have positive := geometry.positive
  have data := fresh.data
  omega

/-- The blocks of the files are not changed when a block is taken. -/
theorem taken_named (sound : Sound sb v.img nodes) (geometry : Geometry sb) (fresh : Fresh sb v.img nodes b)
    {x : Nat × Nat} (occupied : slotOf sb v.img nodes x ≠ 0) :
    taken sb v.img b (slotOf sb v.img nodes x) = v.img (slotOf sb v.img nodes x) := by
  have data := (sound.range occupied).1
  have block : slotOf sb v.img nodes x ≠ sb.bblock b :=
    Nat.ne_of_gt (Nat.lt_of_lt_of_le (geometry.maps b fresh.inside) data)
  exact taken_other (fresh.unnamed x) block

theorem taken_slots (sound : Sound sb v.img nodes) (geometry : Geometry sb) (fresh : Fresh sb v.img nodes b) (x : Nat × Nat) :
    slotOf sb (taken sb v.img b) nodes x = slotOf sb v.img nodes x := by
  apply slotOf_kept
  intro j _ occupied i _
  rw [taken_named sound geometry fresh occupied]

theorem taken_blocks (sound : Sound sb v.img nodes) (geometry : Geometry sb) (fresh : Fresh sb v.img nodes b) {j m : Nat}
    (small : j < sb.ninodes.toNat) (high : m ≤ maxfile) :
    slotBlock (taken sb v.img b) (nodes j).addrs m = slotBlock v.img (nodes j).addrs m := by
  have slots := taken_slots sound geometry fresh (j, m)
  rw [slotOf_inside small high, slotOf_inside small high] at slots
  exact BitVec.eq_of_toNat_eq slots

/-- The invariant after a slot is given a block. -/
theorem Sound.assign {img : Blocks} (sound : Sound sb v.img nodes) (fresh : Fresh sb v.img nodes b)
    (typed : (nodes k).type ≠ 0) (empty : slotOf sb v.img nodes (k, n) = 0)
    (slots : slotOf sb img after = Function.update (slotOf sb v.img nodes) (k, n) b)
    (bits : ∀ c, c < sb.size.toNat → (bitOf sb img c = true ↔ bitOf sb v.img c = true ∨ c = b))
    (others : ∀ j, j ≠ k → after j = nodes j) (same : after k = { nodes k with addrs := (after k).addrs }) :
    Sound sb img after := by
  have sizes (j : Nat) : (after j).size = (nodes j).size ∧ (after j).type = (nodes j).type := by
    by_cases mine : j = k
    · rw [mine, same]
      exact ⟨rfl, rfl⟩
    · rw [others j mine]
      exact ⟨rfl, rfl⟩
  have free : ¬ bitOf sb v.img b = true := by
    rw [fresh.clear]
    exact Bool.noConfusion
  refine ⟨?_, fun j small => ?_, fun j small unused => ?_⟩
  · rw [slots]
    exact sound.map.assign empty fresh.inside free bits
  · rw [(sizes j).1]
    exact sound.small j small
  · rw [(sizes j).2] at unused
    have other : j ≠ k := by
      rintro rfl
      exact typed unused
    rw [(sizes j).1]
    refine ⟨(sound.unused j small unused).1, fun m => ?_⟩
    have apart : (j, m) ≠ (k, n) := fun equal => other (Prod.mk.inj equal).1
    rw [slots, Function.update_of_ne apart]
    exact (sound.unused j small unused).2 m

/-- The relation for a slot that is given a block. -/
theorem extends_assign {t : Volume} {I : Finset Nat} (sound : Sound sb v.img nodes) (geometry : Geometry sb)
    (fresh : Fresh sb v.img nodes b) (typed : (nodes k).type ≠ 0) (empty : slotOf sb v.img nodes (k, n) = 0)
    (slots : slotOf sb t.img after = Function.update (slotOf sb v.img nodes) (k, n) b)
    (others : ∀ j, j ≠ k → after j = nodes j) (same : after k = { nodes k with addrs := (after k).addrs })
    (bits : ∀ c, c < sb.size.toNat → t.img (sb.bblock c) = taken sb v.img b (sb.bblock c))
    (early : ∀ c, c < sb.bmapstart.toNat → t.img c = v.img c) (logged : (v.take sb b).logged ⊆ t.logged)
    (bound : ∀ c ∈ t.logged, c ∈ (v.take sb b).logged ∨ ∃ m ∈ I, c ≠ 0 ∧ slotOf sb t.img after (k, m) = c) :
    Extends sb k (insert n I) v nodes t after := by
  have inside : sb.bblock b ∈ mapBlocks sb := Finset.mem_image_of_mem _ (Finset.mem_range.mpr fresh.inside)
  refine ⟨?_, others, same, fun x occupied => ?_, fun x named => ?_, early, ?_, fun c member => ?_⟩
  · refine sound.assign fresh typed empty slots (fun c small => ?_) others same
    rw [bitOf_congr (bits c small), bitOf_taken geometry fresh.data small]
  · have other : x ≠ (k, n) := by
      rintro rfl
      exact occupied empty
    rw [slots, Function.update_of_ne other]
  · by_cases mine : x = (k, n)
    · rw [mine]
      exact .inr ⟨rfl, Finset.mem_insert_self _ _⟩
    · rw [slots, Function.update_of_ne mine] at named
      exact .inl named
  · intro c member
    exact logged (Finset.mem_insert_of_mem (Finset.mem_insert_of_mem member))
  · rcases bound c member with taken | ⟨m, index, named⟩
    · rcases Finset.mem_insert.mp taken with rfl | rest
      · refine .inr (.inr ⟨n, Finset.mem_insert_self _ _, ?_, ?_⟩)
        · have data := fresh.data
          have positive := geometry.positive
          omega
        · rw [slots, Function.update_self]
      · rcases Finset.mem_insert.mp rest with rfl | old
        · exact .inr (.inl inside)
        · exact .inl old
    · exact .inr (.inr ⟨m, Finset.mem_insert_of_mem index, named⟩)

theorem keeps_assign {t : Volume} (empty : slotOf sb v.img nodes (k, n) = 0)
    (slots : slotOf sb t.img after = Function.update (slotOf sb v.img nodes) (k, n) b)
    (named : ∀ x, slotOf sb v.img nodes x ≠ 0 → x.2 < maxfile → ∀ i, i < bsize →
      t.img (slotOf sb v.img nodes x) i = v.img (slotOf sb v.img nodes x) i)
    (zero : n < maxfile → ∀ i, i < bsize → t.img b i = 0) (recorded : ∀ c, t.img c ≠ v.img c → c ∈ t.logged)
    (logged : b ∈ t.logged) : Keeps sb v nodes t after := by
  refine ⟨fun x low i inside => ?_, recorded, fun x unnamed new => ?_⟩
  · rw [cell, cell, slots]
    by_cases mine : x = (k, n)
    · subst mine
      rw [Function.update_self, empty, if_pos rfl]
      split_ifs with none
      · rfl
      · exact zero low i inside
    · rw [Function.update_of_ne mine]
      split_ifs with none
      · rfl
      · exact named x none low i inside
  · rw [slots] at new ⊢
    by_cases mine : x = (k, n)
    · rwa [mine, Function.update_self]
    · rw [Function.update_of_ne mine] at new
      exact absurd unnamed new

theorem take_recorded (c : Nat) (changed : (v.take sb b).img c ≠ v.img c) : c ∈ (v.take sb b).logged := by
  show c ∈ insert b (insert (sb.bblock b) v.logged)
  by_contra other
  simp only [Finset.mem_insert, not_or] at other
  exact changed (taken_other other.1 other.2.1)

theorem take_early (geometry : Geometry sb) (data : dataStart sb ≤ b) {c : Nat} (low : c < sb.bmapstart.toNat) :
    taken sb v.img b c = v.img c := by
  have order := geometry.order
  refine taken_other (by omega) (Nat.ne_of_lt (Nat.lt_of_lt_of_le low (bmapstart_le sb b)))

end Steps

/-- The indices that `bmap` gives blocks for an index. -/
def mapIndices (n : Nat) : Finset Nat := if n < ndirect then {n} else {n, maxfile}

theorem self_mem_mapIndices (n : Nat) : n ∈ mapIndices n := by
  rw [mapIndices]
  split_ifs with direct
  · exact Finset.mem_singleton_self n
  · exact Finset.mem_insert_self _ _

/-- The result of `bmap` for an index. -/
structure Mapped (sb : DiskSuperblock) (k n : Nat) (v : Volume) (nodes : Nat → Dinode) (result : Uint × Dinode)
    (t : Volume) : Prop where
  step : Extends sb k (mapIndices n) v nodes t (Function.update nodes k result.2)
  keeps : Keeps sb v nodes t (Function.update nodes k result.2)
  block : result.1 ≠ 0 → result.1.toNat = slotOf sb t.img (Function.update nodes k result.2) (k, n)
  full : result.1 = 0 → Full sb t.img ∧ slotOf sb t.img (Function.update nodes k result.2) (k, n) = 0

section Calls

variable {sb : DiskSuperblock} {v : Volume} {nodes : Nat → Dinode} {k n : Nat} {stop : Panic → Prop}

theorem mapped_same (sound : Sound sb v.img nodes) {addr : Uint}
    (block : addr ≠ 0 → addr.toNat = slotOf sb v.img nodes (k, n))
    (full : addr = 0 → Full sb v.img ∧ slotOf sb v.img nodes (k, n) = 0) :
    Mapped sb k n v nodes (addr, nodes k) v := by
  have same : Function.update nodes k (nodes k) = nodes := Function.update_eq_self k nodes
  refine ⟨?_, ?_, ?_, ?_⟩
  · show Extends sb k _ v nodes v (Function.update nodes k (nodes k))
    rw [same]
    exact (Extends.refl sound).mono (Finset.empty_subset _)
  · show Keeps sb v nodes v (Function.update nodes k (nodes k))
    rw [same]
    exact Keeps.refl
  · show addr ≠ 0 → addr.toNat = slotOf sb v.img (Function.update nodes k (nodes k)) (k, n)
    rw [same]
    exact block
  · show addr = 0 → Full sb v.img ∧ slotOf sb v.img (Function.update nodes k (nodes k)) (k, n) = 0
    rw [same]
    exact full

/-- An address in the inode itself. -/
theorem addrFor_spec (sound : Sound sb v.img nodes) (geometry : Geometry sb) (small : k < sb.ninodes.toNat)
    (typed : (nodes k).type ≠ 0) {i : Fin (ndirect + 1)} (high : n ≤ maxfile)
    (reads : ∀ (img : Blocks) (a : Addrs), slotBlock img a n = a i)
    (sets : ∀ (img : Blocks) (a : Addrs) (b : Uint), a i = 0 → (∀ j, j < bsize → img b.toNat j = 0) → ∀ m, m ≤ maxfile →
      slotBlock img (Function.update a i b) m = if m = n then b else slotBlock img a m) :
    Ensures (addrFor sb (nodes k) i) v (Mapped sb k n v nodes) stop := by
  have here : slotOf sb v.img nodes (k, n) = ((nodes k).addrs i).toNat := by
    rw [slotOf_inside small high, reads]
  rw [addrFor, ensures_ite]
  constructor
  · intro zero
    have empty : slotOf sb v.img nodes (k, n) = 0 := by
      rw [here, zero]
      rfl
    rw [ensures_bind]
    refine balloc_spec.mono (fun addr t allocated => ?_) (fun _ stopped => stopped)
    rcases allocated with ⟨rfl, rfl, full⟩ | ⟨b, inside, clear, rfl, rfl⟩
    · rw [if_pos rfl]
      exact mapped_same sound (fun nonzero => absurd rfl nonzero) fun _ => ⟨full, empty⟩
    · have fresh := sound.fresh inside clear
      have number := fresh.toNat
      have nonzero := fresh.ne_zero geometry
      have slots : slotOf sb (v.take sb b).img (Function.update nodes k
          { nodes k with addrs := Function.update (nodes k).addrs i (BitVec.ofNat 32 b) }) =
          Function.update (slotOf sb v.img nodes) (k, n) b := by
        refine (slotOf_update small high (fun m inside => ?_) (fun j m first second other => ?_)).trans
          (congrArg (Function.update (slotOf sb v.img nodes) (k, n)) number)
        · rw [Function.update_self]
          show slotBlock (taken sb v.img b) (Function.update (nodes k).addrs i (BitVec.ofNat 32 b)) m = _
          rw [sets _ _ _ zero (fun j _ => by rw [number, taken_self]) m inside,
            taken_blocks sound geometry fresh small inside]
        · rw [Function.update_of_ne other]
          exact taken_blocks sound geometry fresh first second
      rw [if_neg nonzero, ensures_pure]
      have block : slotOf sb (v.take sb b).img (Function.update nodes k
          { nodes k with addrs := Function.update (nodes k).addrs i (BitVec.ofNat 32 b) }) (k, n) = b := by
        rw [slots, Function.update_self]
      refine ⟨?_, ?_, fun _ => ?_, fun none => absurd none nonzero⟩
      · refine (extends_assign (I := ∅) sound geometry fresh typed empty slots
          (fun j other => Function.update_of_ne other _ _) ?_ (fun _ _ => rfl)
          (fun c low => take_early geometry fresh.data low) (Finset.Subset.refl _) (fun c member => .inl member)).mono ?_
        · rw [Function.update_self]
        · exact Finset.insert_subset (self_mem_mapIndices n) (Finset.empty_subset _)
      · refine keeps_assign empty slots (fun x named _ j _ => ?_) (fun _ j _ => ?_) take_recorded
          (Finset.mem_insert_self _ _)
        · exact congrFun (taken_named sound geometry fresh named) j
        · exact congrFun taken_self j
      · rw [block, number]
  · intro occupied
    rw [ensures_pure]
    exact mapped_same sound (fun _ => here.symm) fun none => absurd none occupied

/-- An entry of the indirect block that is given a block. -/
theorem entry_taken {b : Nat} (sound : Sound sb v.img nodes) (geometry : Geometry sb) (small : k < sb.ninodes.toNat)
    (typed : (nodes k).type ≠ 0) (low : ndirect ≤ n) (high : n < maxfile) (fresh : Fresh sb v.img nodes b)
    (occupied : (nodes k).addrs (Fin.last ndirect) ≠ 0) (empty : slotOf sb v.img nodes (k, n) = 0) :
    Mapped sb k n v nodes (BitVec.ofNat 32 b, nodes k)
      ⟨filled (taken sb v.img b) ((nodes k).addrs (Fin.last ndirect)).toNat (4 * (n - ndirect)) 4 (octet (BitVec.ofNat 32 b)),
        insert ((nodes k).addrs (Fin.last ndirect)).toNat (v.take sb b).logged⟩ := by
  have number := fresh.toNat
  have nonzero := fresh.ne_zero geometry
  have last : slotOf sb v.img nodes (k, maxfile) = ((nodes k).addrs (Fin.last ndirect)).toNat := by
    rw [slotOf_inside small (Nat.le_refl _), slotBlock_last]
  have lastSome : slotOf sb v.img nodes (k, maxfile) ≠ 0 := by
    rw [last]
    intro zero
    exact occupied (BitVec.eq_of_toNat_eq zero)
  have lastData := (sound.range lastSome).1
  rw [last] at lastData
  have same : Function.update nodes k (nodes k) = nodes := Function.update_eq_self k nodes
  generalize target : (⟨filled (taken sb v.img b) ((nodes k).addrs (Fin.last ndirect)).toNat (4 * (n - ndirect)) 4
    (octet (BitVec.ofNat 32 b)), insert ((nodes k).addrs (Fin.last ndirect)).toNat (v.take sb b).logged⟩ : Volume) = t
  have away {c : Nat} (other : c ≠ ((nodes k).addrs (Fin.last ndirect)).toNat) : t.img c = taken sb v.img b c := by
    rw [← target]
    exact filled_other other
  have slots : slotOf sb t.img nodes = Function.update (slotOf sb v.img nodes) (k, n) b := by
    refine (slotOf_update small (Nat.le_of_lt high) (fun m inside => ?_) (fun j m first second other => ?_)).trans
      (congrArg (Function.update (slotOf sb v.img nodes) (k, n)) number)
    · rw [← target]
      show slotBlock (filled (taken sb v.img b) _ _ _ _) (nodes k).addrs m = _
      rw [slotBlock_set_entry low high occupied _ inside, taken_blocks sound geometry fresh small inside]
    · rw [← taken_blocks sound geometry fresh first second]
      refine slotBlock_congr (fun there i _ => ?_) second
      have theirs : slotOf sb v.img nodes (j, maxfile) = ((nodes j).addrs (Fin.last ndirect)).toNat := by
        rw [slotOf_inside first (Nat.le_refl _), slotBlock_last]
      rw [away]
      intro equal
      refine other (Prod.mk.inj (sound.map.apart (j, maxfile) (k, maxfile) ?_ ?_)).1
      · rw [theirs]
        intro zero
        exact there (BitVec.eq_of_toNat_eq zero)
      · rw [theirs, last, equal]
  have lastKept : slotOf sb t.img nodes (k, maxfile) = ((nodes k).addrs (Fin.last ndirect)).toNat := by
    have other : (k, maxfile) ≠ (k, n) := fun equal => Nat.ne_of_gt high (Prod.mk.inj equal).2
    rw [slots, Function.update_of_ne other, last]
  have block : slotOf sb t.img nodes (k, n) = b := by rw [slots, Function.update_self]
  refine ⟨?_, ?_, fun _ => ?_, fun none => absurd none nonzero⟩
  · rw [same, mapIndices, if_neg (Nat.not_lt.mpr low)]
    have order := geometry.order
    refine extends_assign sound geometry fresh typed empty slots (fun _ _ => rfl) rfl (fun c inside => ?_)
      (fun c below => ?_) ?_ (fun c member => ?_)
    · exact away (Nat.ne_of_lt (Nat.lt_of_lt_of_le (geometry.maps c inside) lastData))
    · rw [away (by omega), take_early geometry fresh.data below]
    · rw [← target]
      exact Finset.subset_insert _ _
    · rw [← target] at member
      rcases Finset.mem_insert.mp member with rfl | before
      · refine .inr ⟨maxfile, Finset.mem_singleton_self _, ?_, lastKept⟩
        rwa [← last]
      · exact .inl before
  · rw [same]
    refine keeps_assign empty slots (fun x named below i _ => ?_) (fun _ i _ => ?_) (fun c changed => ?_) ?_
    · have other : slotOf sb v.img nodes x ≠ ((nodes k).addrs (Fin.last ndirect)).toNat := by
        rw [← last]
        intro equal
        have index := (Prod.mk.inj (sound.map.apart x (k, maxfile) named equal)).2
        omega
      rw [away other, taken_named sound geometry fresh named]
    · have other : b ≠ ((nodes k).addrs (Fin.last ndirect)).toNat := by
        rw [← last]
        exact (fresh.unnamed _).symm
      rw [away other, taken_self]
    · rw [← target]
      show c ∈ insert ((nodes k).addrs (Fin.last ndirect)).toNat (v.take sb b).logged
      by_cases here : c = ((nodes k).addrs (Fin.last ndirect)).toNat
      · rw [here]
        exact Finset.mem_insert_self _ _
      · rw [away here] at changed
        exact Finset.mem_insert_of_mem (take_recorded c changed)
    · rw [← target]
      exact Finset.mem_insert_of_mem (Finset.mem_insert_self _ _)
  · rw [same, block, number]

/-- The block of an index is found after the indirect block. -/
theorem Mapped.trans {first second : Uint × Dinode} {t u : Volume} (low : ndirect ≤ n)
    (indirect : Mapped sb k maxfile v nodes first t)
    (entry : Mapped sb k n t (Function.update nodes k first.2) second u) :
    Mapped sb k n v nodes second u := by
  obtain ⟨step, keeps, block, full⟩ := entry
  rw [Function.update_idem] at step keeps block full
  refine ⟨(indirect.step.trans step).mono ?_, indirect.keeps.trans keeps step, block, full⟩
  rw [mapIndices, mapIndices, if_neg (by decide), if_neg (Nat.not_lt.mpr low)]
  intro m member
  simp only [Finset.mem_union, Finset.mem_insert, Finset.mem_singleton] at member ⊢
  omega

theorem bmap_spec (sound : Sound sb v.img nodes) (geometry : Geometry sb) (small : k < sb.ninodes.toNat)
    (typed : (nodes k).type ≠ 0) (high : n < maxfile) : Ensures (bmap sb (nodes k) n) v (Mapped sb k n v nodes) stop := by
  by_cases direct : n < ndirect
  · rw [bmap, dif_pos direct]
    exact addrFor_spec sound geometry small typed (Nat.le_of_lt high) (fun _ _ => slotBlock_direct direct)
      fun _ _ b _ _ m _ => slotBlock_set_direct direct b m
  have low : ndirect ≤ n := Nat.not_lt.mp direct
  have index : n - ndirect < nindirect := by
    have bound : n < 268 := high
    show n - 12 < 256
    omega
  rw [bmap, dif_neg direct, if_pos index, ensures_bind]
  refine (addrFor_spec sound geometry small typed (Nat.le_refl _) (fun _ _ => slotBlock_last)
    fun _ _ _ none zero _ inside => slotBlock_set_last none zero inside).mono (fun result t indirect => ?_)
    (fun _ stopped => stopped)
  obtain ⟨addr, ip⟩ := result
  have mine : Function.update nodes k ip k = ip := Function.update_self ..
  have sound' : Sound sb t.img (Function.update nodes k ip) := indirect.step.sound
  rw [ensures_ite]
  constructor
  · rintro rfl
    obtain ⟨all, empty⟩ := indirect.full rfl
    have none : (Function.update nodes k ip k).addrs (Fin.last ndirect) = 0 := by
      rw [slotOf_inside small (Nat.le_refl _), slotBlock_last] at empty
      exact BitVec.eq_of_toNat_eq empty
    rw [ensures_pure]
    refine ⟨indirect.step.mono ?_, indirect.keeps, fun nonzero => absurd rfl nonzero, fun _ => ⟨all, ?_⟩⟩
    · rw [mapIndices, mapIndices, if_neg (by decide), if_neg (Nat.not_lt.mpr low)]
      intro m member
      simp only [Finset.mem_insert, Finset.mem_singleton] at member ⊢
      omega
    · rw [slotOf_inside small (Nat.le_of_lt high), slotBlock_none low none]
      rfl
  intro occupied
  have last : addr = ip.addrs (Fin.last ndirect) := by
    have block := indirect.block occupied
    rw [slotOf_inside small (Nat.le_refl _), slotBlock_last, mine] at block
    exact BitVec.eq_of_toNat_eq block
  have present : ip.addrs (Fin.last ndirect) ≠ 0 := by rwa [← last]
  have entry : indirectAt (t.img addr.toNat) (n - ndirect) = slotBlock t.img ip.addrs n := by
    rw [slotBlock_indirect low high present, last]
  have here : slotOf sb t.img (Function.update nodes k ip) (k, n) = (slotBlock t.img ip.addrs n).toNat := by
    rw [slotOf_inside small (Nat.le_of_lt high), mine]
  rw [ensures_bind, ensures_bread, ensures_ite, entry]
  constructor
  · intro zero
    have empty : slotOf sb t.img (Function.update nodes k ip) (k, n) = 0 := by
      rw [here, zero]
      rfl
    rw [ensures_bind]
    refine balloc_spec.mono (fun addr' u allocated => ?_) (fun _ stopped => stopped)
    rcases allocated with ⟨rfl, rfl, full⟩ | ⟨b, inside, clear, rfl, rfl⟩
    · rw [if_pos rfl, ensures_pure]
      have kept := mapped_same sound' (fun nonzero => absurd rfl nonzero) fun _ => ⟨full, empty⟩
      rw [mine] at kept
      exact Mapped.trans low indirect kept
    · have fresh := sound'.fresh inside clear
      have typed' : (Function.update nodes k ip k).type ≠ 0 := by
        rw [indirect.step.same]
        exact typed
      rw [if_neg (fresh.ne_zero geometry)]
      simp only [ensures_bind, ensures_bread, ensures_fillBuffer, ensures_logWrite, ensures_pure]
      refine Mapped.trans low indirect ?_
      have taken := entry_taken sound' geometry small typed' low high fresh (by rwa [mine]) empty
      rw [mine, ← last] at taken
      exact taken
  · intro named
    rw [ensures_pure]
    have kept := mapped_same sound' (fun _ => here.symm) fun none => absurd none named
    rw [mine] at kept
    exact Mapped.trans low indirect kept

/-- An index below the end of the file has its block. -/
theorem bmap_present (small : k < sb.ninodes.toNat) (high : n < maxfile)
    (named : slotOf sb v.img nodes (k, n) ≠ 0) {post : Uint × Dinode → Volume → Prop}
    (found : post (slotBlock v.img (nodes k).addrs n, nodes k) v) : Ensures (bmap sb (nodes k) n) v post stop := by
  have here : slotBlock v.img (nodes k).addrs n ≠ 0 := by
    rw [slotOf_inside small (Nat.le_of_lt high)] at named
    intro zero
    rw [zero] at named
    exact named rfl
  by_cases direct : n < ndirect
  · rw [slotBlock_direct direct] at here found
    rw [bmap, dif_pos direct, addrFor, if_neg here]
    exact found
  have low : ndirect ≤ n := Nat.not_lt.mp direct
  have index : n - ndirect < nindirect := by
    have bound : n < 268 := high
    show n - 12 < 256
    omega
  have last : (nodes k).addrs (Fin.last ndirect) ≠ 0 := by
    intro none
    exact here (slotBlock_none low none)
  rw [slotBlock_indirect low high last] at here found
  rw [bmap, dif_neg direct, if_pos index, addrFor, if_neg last]
  simp only [ensures_bind, ensures_pure, if_neg last, ensures_bread, if_neg here]
  exact found

/-- `bmap` of an index that has its block changes nothing. -/
theorem bmap_kept (sound : Sound sb v.img nodes) (geometry : Geometry sb) (small : k < sb.ninodes.toNat)
    (typed : (nodes k).type ≠ 0) (high : n < maxfile) :
    Ensures (bmap sb (nodes k) n) v
      (fun result t => Mapped sb k n v nodes result t ∧ (slotOf sb v.img nodes (k, n) ≠ 0 → t = v)) stop := by
  have mapped : Ensures (bmap sb (nodes k) n) v _ stop := bmap_spec sound geometry small typed high
  by_cases named : slotOf sb v.img nodes (k, n) = 0
  · exact mapped.mono (fun _ _ after => ⟨after, fun present => absurd named present⟩) fun _ stopped => stopped
  · exact mapped.and (bmap_present small high named fun _ => rfl)

end Calls

end Xv6.BlockFs
