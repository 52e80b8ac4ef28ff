/-
This file proves that a directory is a finite map from names to inode numbers.
-/

import Xv6.Lib.SlotTable
import Xv6.Proof.BlockFs.Splice

namespace Xv6.BlockFs

open Bytes OnDisk Program

section Names

/-- The part of a name that is compared. -/
def nameKey (name : List Byte) : List Byte := (name.take dirsiz).takeWhile (· ≠ 0)

theorem takeWhile_take_succ (n : Nat) (p : List Byte) :
    (p.take (n + 1)).takeWhile (· ≠ 0) =
      if p.headD 0 = 0 then [] else p.headD 0 :: (p.tail.take n).takeWhile (· ≠ 0) := by
  cases p with
  | nil => rfl
  | cons a p =>
      rw [List.take_succ_cons, List.takeWhile_cons, List.headD_cons, List.tail_cons]
      by_cases zero : a = 0
      · rw [if_pos zero, if_neg (by simpa using zero)]
      · rw [if_neg zero, if_pos (by simpa using zero)]

/-- `strncmp` compares the strings up to their ends. -/
theorem sameString_key (n : Nat) (p q : List Byte) :
    sameString n p q = true ↔ (p.take n).takeWhile (· ≠ 0) = (q.take n).takeWhile (· ≠ 0) := by
  induction n generalizing p q with
  | zero => simp [sameString]
  | succ n ih =>
      rw [sameString, takeWhile_take_succ, takeWhile_take_succ]
      by_cases both : p.headD 0 ≠ 0 ∧ p.headD 0 = q.headD 0
      · rw [if_pos both, if_neg both.1, ← both.2, if_neg both.1, ih, List.cons_inj_right]
      · rw [if_neg both, beq_iff_eq]
        by_cases left : p.headD 0 = 0
        · rw [if_pos left, left]
          by_cases right : q.headD 0 = 0
          · rw [if_pos right, right]
            exact ⟨fun _ => rfl, fun _ => rfl⟩
          · rw [if_neg right]
            exact ⟨fun same => absurd same.symm right, by rintro ⟨⟩⟩
        · have other : p.headD 0 ≠ q.headD 0 := fun same => both ⟨left, same⟩
          rw [if_neg left]
          refine ⟨fun same => absurd same other, fun same => ?_⟩
          split_ifs at same
          exact absurd (List.cons.inj same).1 other

theorem sameName_key (s t : List Byte) : sameName s t = true ↔ nameKey s = nameKey t := sameString_key dirsiz s t

theorem nameKey_plain {name : List Byte} (plain : 0 ∉ name) : nameKey name = name.take dirsiz := by
  rw [nameKey, List.takeWhile_eq_self_iff]
  intro b inside
  have nonzero : b ≠ 0 := fun zero => plain (zero ▸ List.mem_of_mem_take inside)
  simpa using nonzero

/-- The name and the inode number of an entry that is not free. -/
def decodeEntry (de : List Byte) : Option (List Byte × BitVec 16) :=
  if entryInum de = 0 then none else some (nameKey (de.drop 2), entryInum de)

theorem decodeEntry_bytes {inum : BitVec 16} {name : List Byte} (used : inum ≠ 0) (plain : 0 ∉ name) :
    decodeEntry (direntBytes inum name) = some (nameKey name, inum) := by
  have number : entryInum (direntBytes inum name) = inum := direntBytes_inum inum name
  have key : nameKey ((direntBytes inum name).drop 2) = nameKey name :=
    ((sameName_key _ _).mp ((sameName_iff plain plain).mpr rfl)).symm
  rw [decodeEntry, number, if_neg used, key]

theorem decodeEntry_zero : decodeEntry (List.replicate direntSize 0) = none := by decide

end Names

section Entries

/-- The entries of a directory. -/
def dirEntry (sb : DiskSuperblock) (img : Blocks) (k i : Nat) : Option (List Byte × BitVec 16) :=
  if direntSize * i < (dinode sb img k).size.toNat then
    decodeEntry (segment sb img (dinode sb img) k (direntSize * i) direntSize)
  else none

/-- A directory with some entries. -/
structure Directory (sb : DiskSuperblock) (img : Blocks) (k n : Nat) : Prop where
  sound : Sound sb img (dinode sb img)
  small : k < sb.ninodes.toNat
  whole : Whole sb img (dinode sb img) k
  type : (dinode sb img k).type = tDir
  size : (dinode sb img k).size.toNat = direntSize * n

variable {sb : DiskSuperblock} {v : Volume} {k n : Nat} {stop : Panic → Prop}

theorem Directory.bound {img : Blocks} (dir : Directory sb img k n) : 16 * n ≤ 268 * 1024 := by
  have most : (dinode sb img k).size.toNat ≤ 268 * 1024 := dir.sound.small k dir.small
  rw [dir.size] at most
  exact most

theorem Directory.typed {img : Blocks} (dir : Directory sb img k n) : (dinode sb img k).type ≠ 0 := by
  rw [dir.type]
  decide

/-- An entry in the part of the directory that has blocks is read. -/
theorem readEntry_spec (small : k < sb.ninodes.toNat) (covered : Covered sb v.img (dinode sb v.img) k (direntSize * n))
    (inside : direntSize * n ≤ (dinode sb v.img k).size.toNat) (short : n ≤ 17152) (panic : Panic) {i : Nat} (before : i < n) :
    Ensures (readEntry sb panic (dinode sb v.img k) (direntSize * i)) v
      (fun r t => t = v ∧ r = (segment sb v.img (dinode sb v.img) k (direntSize * i) direntSize, dinode sb v.img k)) stop := by
  have within : 16 * n ≤ (dinode sb v.img k).size.toNat := inside
  have place : (BitVec.ofNat 32 (direntSize * i) : Uint).toNat = 16 * i := by
    rw [BitVec.toNat_ofNat]
    show 16 * i % 2 ^ 32 = 16 * i
    omega
  have length : (BitVec.ofNat 32 direntSize : Uint).toNat = 16 := rfl
  have all : min 16 ((dinode sb v.img k).size.toNat - 16 * i) = 16 := by omega
  rw [readEntry, readKernel, ensures_bind]
  refine (readi_segment covered small (fun _ => true) ?_ ?_ ?_).mono (fun r t after => ?_) (fun _ stopped => stopped)
  · rw [place]
    omega
  · rw [place, length]
    omega
  · rw [place, length, all]
    show 16 * i + 16 ≤ 16 * n
    omega
  obtain ⟨rfl, node, bytes | ⟨_, _, failed⟩⟩ := after
  · rw [place, length, all] at bytes
    obtain ⟨got, dp⟩ := r
    have same : dp = dinode sb t.img k := node
    have de : got = some (segment sb t.img (dinode sb t.img) k (16 * i) 16) := bytes
    subst same de
    have size : (segment sb t.img (dinode sb t.img) k (16 * i) 16).length = direntSize := segment_length _ _
    show Ensures (if _ then throw panic else pure _) t _ stop
    rw [if_neg (not_not.mpr size), ensures_pure]
    exact ⟨rfl, rfl⟩
  · cases failed

/-- The search finds an entry of the name, if the part that has blocks holds one or is the whole directory. -/
theorem lookupLoop_spec (small : k < sb.ninodes.toNat) (covered : Covered sb v.img (dinode sb v.img) k (direntSize * n))
    (inside : direntSize * n ≤ (dinode sb v.img k).size.toNat) (short : n ≤ 17152) (name : Name) (rounds i : Nat)
    (enough : n < i + rounds)
    (reach : direntSize * n = (dinode sb v.img k).size.toNat ∨
      ∃ j inum, i ≤ j ∧ j < n ∧ dirEntry sb v.img k j = some (nameKey name, inum)) :
    Ensures (lookupLoop sb name rounds (direntSize * i) (dinode sb v.img k)) v
      (fun r t => t = v ∧ r.2 = dinode sb v.img k ∧
        ((∃ j inum, r.1 = some (inum, direntSize * j) ∧ dirEntry sb v.img k j = some (nameKey name, inum) ∧
            ∀ m other, i ≤ m → m < j → dirEntry sb v.img k m ≠ some (nameKey name, other)) ∨
          r.1 = none ∧ ∀ j inum, i ≤ j → dirEntry sb v.img k j ≠ some (nameKey name, inum))) stop := by
  induction rounds generalizing i with
  | zero =>
      rcases reach with size | ⟨j, inum, low, high, _⟩
      · refine ⟨rfl, rfl, .inr ⟨rfl, fun j inum low => ?_⟩⟩
        have beyond : ¬ direntSize * j < (dinode sb v.img k).size.toNat := by
          rw [← size]
          show ¬ 16 * j < 16 * n
          omega
        rw [dirEntry, if_neg beyond]
        exact nofun
      · omega
  | succ rounds ih =>
      have within : 16 * n ≤ (dinode sb v.img k).size.toNat := inside
      rw [lookupLoop, ensures_ite]
      constructor
      · intro more
        have here : 16 * i < (dinode sb v.img k).size.toNat := more
        have before : i < n := by
          rcases reach with size | ⟨j, inum, low, high, _⟩
          · have length : 16 * n = (dinode sb v.img k).size.toNat := size
            omega
          · omega
        rw [ensures_bind]
        refine (readEntry_spec small covered inside short .dirlookupRead before).mono (fun r t after => ?_)
          (fun _ stopped => stopped)
        obtain ⟨rfl, rfl⟩ := after
        have entry : dirEntry sb t.img k i = decodeEntry (segment sb t.img (dinode sb t.img) k (direntSize * i) direntSize) := by
          rw [dirEntry, if_pos more]
        rw [ensures_ite]
        constructor
        · rintro ⟨used, same⟩
          refine ⟨rfl, rfl, .inl ⟨i, _, rfl, ?_, fun m _ low high => absurd high (Nat.not_lt.mpr low)⟩⟩
          rw [entry, decodeEntry, if_neg used, (sameName_key _ _).mp same]
        · intro other
          have differs (inum : BitVec 16) : dirEntry sb t.img k i ≠ some (nameKey name, inum) := by
            rw [entry, decodeEntry]
            split_ifs with free
            · exact nofun
            · intro same
              have key := (Prod.mk.inj (Option.some.inj same)).1
              exact other ⟨free, (sameName_key _ _).mpr key.symm⟩
          have next : direntSize * i + direntSize = direntSize * (i + 1) := rfl
          rw [next]
          refine (ih (i + 1) (by omega) ?_).mono (fun r u after => ?_) (fun _ stopped => stopped)
          · rcases reach with size | ⟨j, inum, low, high, there⟩
            · exact .inl size
            · refine .inr ⟨j, inum, ?_, high, there⟩
              by_contra less
              have equal : j = i := by omega
              rw [equal] at there
              exact differs inum there
          · obtain ⟨state, node, ⟨j, inum, result, there, before⟩ | ⟨none, absent⟩⟩ := after
            · refine ⟨state, node, .inl ⟨j, inum, result, there, fun m other low high => ?_⟩⟩
              by_cases equal : m = i
              · rw [equal]
                exact differs other
              · exact before m other (by omega) high
            · refine ⟨state, node, .inr ⟨none, fun j inum low => ?_⟩⟩
              by_cases equal : j = i
              · rw [equal]
                exact differs inum
              · exact absent j inum (by omega)
      · intro finished
        have beyond : ¬ 16 * i < (dinode sb v.img k).size.toNat := finished
        refine ⟨rfl, rfl, .inr ⟨rfl, fun j inum low => ?_⟩⟩
        have after : ¬ direntSize * j < (dinode sb v.img k).size.toNat := by
          show ¬ 16 * j < _
          omega
        rw [dirEntry, if_neg after]
        exact nofun

theorem Directory.covered (dir : Directory sb v.img k n) : Covered sb v.img (dinode sb v.img) k (direntSize * n) := by
  rw [← dir.size]
  exact dir.sound.covered dir.small dir.whole

/-- `dirlookup` finds the first entry of the name, and it changes nothing. -/
theorem dirlookup_first (dir : Directory sb v.img k n) (name : Name) :
    Ensures (dirlookup sb (dinode sb v.img k) name) v
      (fun r t => t = v ∧ r.2 = dinode sb v.img k ∧
        ((∃ j inum, r.1 = some (inum, direntSize * j) ∧ dirEntry sb v.img k j = some (nameKey name, inum) ∧
            ∀ m other, m < j → dirEntry sb v.img k m ≠ some (nameKey name, other)) ∨
          r.1 = none ∧ ∀ j inum, dirEntry sb v.img k j ≠ some (nameKey name, inum))) stop := by
  have bound := dir.bound
  have count : n < 0 + ((dinode sb v.img k).size.toNat / direntSize + 1) := by
    rw [dir.size]
    show n < 0 + (16 * n / 16 + 1)
    omega
  rw [dirlookup, if_neg (not_not.mpr dir.type)]
  refine (lookupLoop_spec dir.small dir.covered (Nat.le_of_eq dir.size.symm) (by omega) name _ 0 count
    (.inl dir.size.symm)).mono (fun r t after => ?_) (fun _ stopped => stopped)
  obtain ⟨state, node, ⟨j, inum, result, there, before⟩ | ⟨none, absent⟩⟩ := after
  · exact ⟨state, node, .inl ⟨j, inum, result, there, fun m other => before m other (Nat.zero_le _)⟩⟩
  · exact ⟨state, node, .inr ⟨none, fun j inum => absent j inum (Nat.zero_le _)⟩⟩

theorem dirlookup_spec (dir : Directory sb v.img k n) (name : Name) :
    Ensures (dirlookup sb (dinode sb v.img k) name) v
      (fun r t => t = v ∧ r.2 = dinode sb v.img k ∧
        ((∃ j inum, r.1 = some (inum, direntSize * j) ∧ dirEntry sb v.img k j = some (nameKey name, inum)) ∨
          r.1 = none ∧ ∀ j inum, dirEntry sb v.img k j ≠ some (nameKey name, inum))) stop := by
  refine (dirlookup_first dir name).mono (fun r t after => ?_) (fun _ stopped => stopped)
  obtain ⟨state, node, ⟨j, inum, result, there, _⟩ | absent⟩ := after
  · exact ⟨state, node, .inl ⟨j, inum, result, there⟩⟩
  · exact ⟨state, node, .inr absent⟩

/-- The search for a free entry ends at one or at the end of the directory. -/
theorem emptyLoop_spec (dir : Directory sb v.img k n) (rounds i : Nat) (most : i ≤ n) (enough : n < i + rounds)
    (used : ∀ j, j < i → dirEntry sb v.img k j ≠ none) :
    Ensures (emptyLoop sb rounds (direntSize * i) (dinode sb v.img k)) v
      (fun r t => t = v ∧ r.2 = dinode sb v.img k ∧ ∃ j, r.1 = direntSize * j ∧ j ≤ n ∧ dirEntry sb v.img k j = none ∧
        ∀ m, m < j → dirEntry sb v.img k m ≠ none) stop := by
  have bound := dir.bound
  induction rounds generalizing i with
  | zero => omega
  | succ rounds ih =>
      rw [emptyLoop, ensures_ite]
      constructor
      · intro more
        have here : 16 * i < 16 * n := by
          rw [dir.size] at more
          exact more
        rw [ensures_bind]
        refine (readEntry_spec dir.small dir.covered (Nat.le_of_eq dir.size.symm) (by omega) .dirlinkRead
          (by omega)).mono (fun r t after => ?_) (fun _ stopped => stopped)
        obtain ⟨rfl, rfl⟩ := after
        have entry : dirEntry sb t.img k i = decodeEntry (segment sb t.img (dinode sb t.img) k (direntSize * i) direntSize) := by
          rw [dirEntry, if_pos more]
        rw [ensures_ite]
        constructor
        · intro free
          refine ⟨rfl, rfl, i, rfl, most, ?_, used⟩
          rw [entry, decodeEntry, if_pos free]
        · intro taken
          have next : direntSize * i + direntSize = direntSize * (i + 1) := rfl
          rw [next]
          refine ih (i + 1) (by omega) (by omega) fun j low => ?_
          by_cases equal : j = i
          · rw [equal, entry, decodeEntry, if_neg taken]
            exact nofun
          · exact used j (by omega)
      · intro finished
        refine ⟨rfl, rfl, i, rfl, most, ?_, used⟩
        rw [dirEntry, if_neg finished]

end Entries

section Growth

/-- The blocks whose bit is clear. -/
def freeBlocks (sb : DiskSuperblock) (img : Blocks) : Finset Nat :=
  (Finset.range sb.size.toNat).filter fun b => ¬ bitOf sb img b = true

/-- The indices without a block that a write in a block of a file needs. -/
def missing (sb : DiskSuperblock) (img : Blocks) (k n : Nat) : Finset Nat :=
  (mapIndices n).filter fun m => slotOf sb img (dinode sb img) (k, m) = 0

/-- A directory can get one more entry. -/
def CanGrow (sb : DiskSuperblock) (img : Blocks) (k : Nat) : Prop :=
  (dinode sb img k).size.toNat + direntSize ≤ maxfile * bsize ∧
    (missing sb img k ((dinode sb img k).size.toNat / bsize)).card ≤ (freeBlocks sb img).card

/-- The indices of all inodes that have a block. -/
def namedSlots (sb : DiskSuperblock) (img : Blocks) : Finset (Nat × Nat) :=
  (Finset.range sb.ninodes.toNat ×ˢ Finset.range (maxfile + 1)).filter fun x => slotOf sb img (dinode sb img) x ≠ 0

variable {sb : DiskSuperblock} {v t : Volume} {src : Source} {ip : Dinode} {k n j tot : Nat}

theorem mem_namedSlots {img : Blocks} (x : Nat × Nat) : x ∈ namedSlots sb img ↔ slotOf sb img (dinode sb img) x ≠ 0 := by
  rw [namedSlots, Finset.mem_filter, Finset.mem_product, Finset.mem_range, Finset.mem_range]
  refine ⟨fun both => both.2, fun named => ⟨?_, named⟩⟩
  exact ⟨(inside_of_slot named).1, Nat.lt_succ_of_le (inside_of_slot named).2⟩

/-- The named slots and the free blocks are all blocks of the data part. -/
theorem Sound.count {img : Blocks} (sound : Sound sb img (dinode sb img)) :
    (namedSlots sb img).card + (freeBlocks sb img).card = sb.size.toNat - dataStart sb := sound.map.card mem_namedSlots

theorem spans_entry : spans (direntSize * j) direntSize = mapIndices (direntSize * j / bsize) := by
  have last : (direntSize * j + direntSize - 1) / bsize = direntSize * j / bsize := by
    show (16 * j + 16 - 1) / 1024 = 16 * j / 1024
    omega
  rw [spans, last, Finset.Icc_self, mapIndices]
  split_ifs
  · rfl
  · rfl

/-- An entry is written as a whole or not at all. -/
theorem Replaced.entry (replaced : Replaced sb k src (direntSize * j) direntSize v tot ip t)
    (kernel : src.limit = none) (file : Whole sb v.img (dinode sb v.img) k) :
    Spliced sb k src.byte (direntSize * j) tot tot v.img t.img ∧
      (tot = direntSize ∨
        tot = 0 ∧ Full sb t.img ∧ slotOf sb t.img (dinode sb t.img) (k, direntSize * j / bsize) = 0) := by
  obtain ⟨extra, spliced, rest⟩ := replaced.partly
  have none : extra = 0 := by
    by_contra more
    have source := (rest.ends more).1
    rw [kernel] at source
    cases source
  rw [none, Nat.add_zero] at spliced
  refine ⟨spliced, ?_⟩
  have most := replaced.most
  rcases Nat.lt_or_ge tot direntSize with less | all
  · rcases replaced.short less with ⟨full, empty⟩ | ⟨limit, source, _⟩
    · have block : (direntSize * j + tot) / bsize = direntSize * j / bsize := by
        have less' : tot < 16 := less
        show (16 * j + tot) / 1024 = 16 * j / 1024
        omega
      rw [block] at empty
      refine .inr ⟨?_, full, empty⟩
      by_contra occupied
      refine spliced.whole file _ ?_ empty
      rw [spliced.size]
      have start : direntSize * j / bsize * bsize ≤ direntSize * j := Nat.div_mul_le_self _ _
      have reach := Nat.le_max_right (dinode sb v.img k).size.toNat (direntSize * j + tot)
      omega
    · rw [kernel] at source
      cases source
  · exact .inl (Nat.le_antisymm most all)

/-- A write at the end finds its blocks when enough of them are free. -/
theorem Replaced.grows (replaced : Replaced sb k src (direntSize * j) direntSize v tot ip t)
    (kernel : src.limit = none) (small : k < sb.ninodes.toNat) (sound : Sound sb v.img (dinode sb v.img))
    (file : Whole sb v.img (dinode sb v.img) k) :
    tot = direntSize ↔ (missing sb v.img k (direntSize * j / bsize)).card ≤ (freeBlocks sb v.img).card := by
  obtain ⟨spliced, outcome⟩ := replaced.entry kernel file
  have before := sound.count
  have after := spliced.sound.count
  have apart : Disjoint (namedSlots sb v.img) ((missing sb v.img k (direntSize * j / bsize)).image fun m => (k, m)) := by
    rw [Finset.disjoint_right]
    intro x member inside
    obtain ⟨m, lacking, rfl⟩ := Finset.mem_image.mp member
    exact (mem_namedSlots _).mp inside (Finset.mem_filter.mp lacking).2
  have injective : Function.Injective fun m : Nat => (k, m) := fun _ _ same => (Prod.mk.inj same).2
  have union := Finset.card_union_of_disjoint apart
  rw [Finset.card_image_of_injective _ injective] at union
  constructor
  · intro whole
    rw [whole] at spliced
    have more : namedSlots sb v.img ∪ (missing sb v.img k (direntSize * j / bsize)).image (fun m => (k, m)) ⊆
        namedSlots sb t.img := by
      intro x member
      rw [mem_namedSlots]
      rcases Finset.mem_union.mp member with old | new
      · rw [spliced.slots x ((mem_namedSlots x).mp old)]
        exact (mem_namedSlots x).mp old
      · obtain ⟨m, lacking, rfl⟩ := Finset.mem_image.mp new
        refine spliced.spans_named small file (by decide) ?_
        rw [spans_entry]
        exact (Finset.mem_filter.mp lacking).1
    have cards := Finset.card_le_card more
    omega
  · intro enough
    rcases outcome with whole | ⟨_, full, empty⟩
    · exact whole
    exfalso
    have none : (freeBlocks sb t.img).card = 0 := by
      rw [Finset.card_eq_zero, freeBlocks, Finset.filter_eq_empty_iff]
      intro b inside
      exact not_not.mpr (full b (Finset.mem_range.mp inside))
    have needs : direntSize * j / bsize ∈ missing sb v.img k (direntSize * j / bsize) := by
      refine Finset.mem_filter.mpr ⟨self_mem_mapIndices _, ?_⟩
      by_contra occupied
      rw [spliced.slots _ occupied] at empty
      exact occupied empty
    have fewer : namedSlots sb t.img ⊆
        (namedSlots sb v.img ∪ (missing sb v.img k (direntSize * j / bsize)).image fun m => (k, m)).erase
          (k, direntSize * j / bsize) := by
      intro x member
      have named := (mem_namedSlots x).mp member
      refine Finset.mem_erase.mpr ⟨?_, ?_⟩
      · rintro rfl
        exact named empty
      · rw [Finset.mem_union, mem_namedSlots]
        by_cases old : slotOf sb v.img (dinode sb v.img) x = 0
        · rcases replaced.news x named with before | ⟨mine, index⟩
          · exact .inl before
          · refine .inr (Finset.mem_image.mpr ⟨x.2, Finset.mem_filter.mpr ⟨?_, ?_⟩, ?_⟩)
            · rwa [spans_entry] at index
            · rwa [← mine]
            · rw [← mine]
        · exact .inl old
    have inside : (k, direntSize * j / bsize) ∈
        namedSlots sb v.img ∪ (missing sb v.img k (direntSize * j / bsize)).image fun m => (k, m) :=
      Finset.mem_union_right _ (Finset.mem_image_of_mem _ needs)
    have cards := Finset.card_le_card fewer
    rw [Finset.card_erase_of_mem inside] at cards
    have occupied := Finset.card_pos.mpr ⟨_, inside⟩
    omega

end Growth

section Changes

variable {sb : DiskSuperblock} {img next : Blocks} {byte : Nat → Byte} {k n j : Nat}

theorem Directory.low {img : Blocks} (dir : Directory sb img k n) {i : Nat} (inside : i < direntSize * n) :
    i / bsize < maxfile := by
  have bound := dir.bound
  have before : i < 16 * n := inside
  show i / 1024 < 268
  omega

/-- The directory after a write of no byte. -/
theorem Spliced.unchanged (spliced : Spliced sb k byte (direntSize * j) 0 0 img next) (dir : Directory sb img k n)
    (most : j ≤ n) : Directory sb next k n ∧ dirEntry sb next k = dirEntry sb img k := by
  have size : (dinode sb next k).size.toNat = (dinode sb img k).size.toNat := by
    rw [spliced.size, dir.size]
    show max (16 * n) (16 * j + 0) = 16 * n
    omega
  refine ⟨⟨spliced.sound, dir.small, spliced.whole dir.whole, ?_, ?_⟩, ?_⟩
  · rw [spliced.fields]
    exact dir.type
  · rw [size, dir.size]
  · funext i
    rw [dirEntry, dirEntry, size]
    split_ifs with inside
    · congr 1
      apply segment_congr
      intro x low high
      have place : x < direntSize * n := by
        rw [dir.size] at inside
        have before : 16 * i < 16 * n := inside
        have after : x < 16 * i + 16 := high
        show x < 16 * n
        omega
      rw [spliced.cells _ (dir.low place) _ (Nat.mod_lt _ (by decide)), if_neg (by omega)]
    · rfl

/-- The directory after a write of an entry. -/
theorem Spliced.entries (spliced : Spliced sb k byte (direntSize * j) direntSize direntSize img next)
    (dir : Directory sb img k n) (most : j ≤ n) :
    Directory sb next k (max n (j + 1)) ∧
      dirEntry sb next k = Function.update (dirEntry sb img k) j (decodeEntry ((List.range direntSize).map byte)) := by
  have size : (dinode sb next k).size.toNat = direntSize * max n (j + 1) := by
    rw [spliced.size, dir.size]
    show max (16 * n) (16 * j + 16) = 16 * max n (j + 1)
    omega
  have after : Directory sb next k (max n (j + 1)) := by
    refine ⟨spliced.sound, dir.small, spliced.whole dir.whole, ?_, size⟩
    rw [spliced.fields]
    exact dir.type
  refine ⟨after, ?_⟩
  funext i
  have cells (x : Nat) (place : x < direntSize * max n (j + 1)) :
      cell sb next (dinode sb next) (k, x / bsize) (x % bsize) =
        if direntSize * j ≤ x ∧ x < direntSize * j + direntSize then byte (x - direntSize * j)
        else cell sb img (dinode sb img) (k, x / bsize) (x % bsize) := by
    have position : x / bsize * bsize + x % bsize = x := by
      rw [Nat.mul_comm]
      exact Nat.div_add_mod _ _
    rw [spliced.cells _ (after.low place) _ (Nat.mod_lt _ (by decide)), position]
    simp
  by_cases mine : i = j
  · have inside : direntSize * j < (dinode sb next k).size.toNat := by
      rw [size]
      show 16 * j < 16 * max n (j + 1)
      omega
    rw [mine, Function.update_self, dirEntry, if_pos inside]
    congr 1
    apply List.map_congr_left
    intro d member
    have before : d < 16 := List.mem_range.mp member
    have place : direntSize * j + d < direntSize * max n (j + 1) := by
      show 16 * j + d < 16 * max n (j + 1)
      omega
    have here : direntSize * j ≤ direntSize * j + d ∧ direntSize * j + d < direntSize * j + direntSize := by
      show 16 * j ≤ 16 * j + d ∧ 16 * j + d < 16 * j + 16
      omega
    rw [cells _ place, if_pos here, Nat.add_sub_cancel_left]
  · have same : direntSize * i < (dinode sb next k).size.toNat ↔ direntSize * i < (dinode sb img k).size.toNat := by
      rw [size, dir.size]
      show 16 * i < 16 * max n (j + 1) ↔ 16 * i < 16 * n
      omega
    rw [Function.update_of_ne mine, dirEntry, dirEntry, if_congr same rfl rfl]
    split_ifs with inside
    · congr 1
      apply segment_congr
      intro x low high
      rw [dir.size] at inside
      have before : 16 * i < 16 * n := inside
      have first : 16 * i ≤ x := low
      have last : x < 16 * i + 16 := high
      have place : x < direntSize * max n (j + 1) := by
        show x < 16 * max n (j + 1)
        omega
      have away : ¬ (direntSize * j ≤ x ∧ x < direntSize * j + direntSize) := by
        show ¬ (16 * j ≤ x ∧ x < 16 * j + 16)
        omega
      rw [cells x place, if_neg away]
    · rfl

end Changes

/-- A file has no hole, and a directory has whole entries. -/
structure Fine (sb : DiskSuperblock) (img : Blocks) (k : Nat) : Prop where
  whole : Whole sb img (dinode sb img) k
  dir : (dinode sb img k).type = tDir → ∃ n, (dinode sb img k).size.toNat = direntSize * n

/-- The free map is exact, and all files are fine. -/
structure Tidy (sb : DiskSuperblock) (img : Blocks) : Prop where
  sound : Sound sb img (dinode sb img)
  fine : ∀ k, k < sb.ninodes.toNat → Fine sb img k

end Xv6.BlockFs
