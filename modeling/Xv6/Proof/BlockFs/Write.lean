/-
This file proves what `writei` does to the blocks of a file. The bytes of the source replace a range of the file, and
the blocks that it needs are allocated.
-/

import Xv6.Proof.BlockFs.Read

namespace Xv6.BlockFs

open Bytes OnDisk Program
open Contents (roundSize)

section Fill

variable {sb : DiskSuperblock} {v : Volume} {nodes : Nat → Dinode} {k n start len : Nat} {source : ByteMap}

/-- A part of a data block is replaced, which does not change the slots. -/
theorem fill_slots (sound : Sound sb v.img nodes) (high : n < maxfile) (x : Nat × Nat) :
    slotOf sb (filled v.img (slotOf sb v.img nodes (k, n)) start len source) nodes x = slotOf sb v.img nodes x := by
  apply slotOf_kept
  intro j _ occupied i _
  rw [filled_other]
  intro equal
  have index := (Prod.mk.inj (sound.map.apart _ _ occupied equal)).2
  omega

theorem fill_cells (sound : Sound sb v.img nodes) (named : slotOf sb v.img nodes (k, n) ≠ 0) (high : n < maxfile)
    (x : Nat × Nat) (i : Nat) :
    cell sb (filled v.img (slotOf sb v.img nodes (k, n)) start len source) nodes x i =
      if x = (k, n) ∧ start ≤ i ∧ i < start + len then source (i - start) else cell sb v.img nodes x i := by
  rw [cell, cell, fill_slots sound high]
  by_cases mine : x = (k, n)
  · rw [mine, if_neg named, if_neg named, filled_self, overlay]
    simp
  · have away : ¬ (x = (k, n) ∧ start ≤ i ∧ i < start + len) := fun both => mine both.1
    rw [if_neg away]
    split_ifs with none
    · rfl
    · rw [filled_other]
      intro equal
      exact mine (sound.map.apart _ _ none equal)

theorem extends_fill {logged : Finset Nat} (sound : Sound sb v.img nodes) (geometry : Geometry sb)
    (named : slotOf sb v.img nodes (k, n) ≠ 0) (high : n < maxfile) (more : v.logged ⊆ logged)
    (fewer : logged ⊆ insert (slotOf sb v.img nodes (k, n)) v.logged) :
    Extends sb k {n} v nodes ⟨filled v.img (slotOf sb v.img nodes (k, n)) start len source, logged⟩ nodes := by
  have slots (x : Nat × Nat) :
      slotOf sb (filled v.img (slotOf sb v.img nodes (k, n)) start len source) nodes x = slotOf sb v.img nodes x :=
    fill_slots sound high x
  have data := (sound.range named).1
  have order := geometry.order
  refine ⟨⟨sound.map.congr slots fun b inside => ?_, sound.small, fun j small free => ?_⟩, fun _ _ => rfl, rfl,
    fun x _ => slots x, fun x named => .inl (by rwa [← slots x]), fun b low => ?_, more, fun b member => ?_⟩
  · rw [bitOf_congr]
    exact filled_other (Nat.ne_of_lt (Nat.lt_of_lt_of_le (geometry.maps b inside) data))
  · refine ⟨(sound.unused j small free).1, fun m => ?_⟩
    rw [slots]
    exact (sound.unused j small free).2 m
  · exact filled_other (by omega)
  · rcases Finset.mem_insert.mp (fewer member) with rfl | old
    · exact .inr (.inr ⟨n, Finset.mem_singleton_self n, named, slots _⟩)
    · exact .inl old

end Fill

/-- The bytes of a file from an offset on up to a length come from the source, and the blocks that `log_write` has
recorded are those of some indices. -/
structure Wrote (sb : DiskSuperblock) (k : Nat) (src : Source) (off upto : Nat) (indices : Finset Nat) (v : Volume)
    (nodes : Nat → Dinode) (ip : Dinode) (t : Volume) : Prop where
  step : Extends sb k indices v nodes t (Function.update nodes k ip)
  cells : ∀ x, x.2 < maxfile → ∀ i, i < bsize → cell sb t.img (Function.update nodes k ip) x i =
    if x.1 = k ∧ off ≤ x.2 * bsize + i ∧ x.2 * bsize + i < off + upto then src.byte (x.2 * bsize + i - off)
    else cell sb v.img nodes x i

/-- The indices of the blocks of a range of a file, with the indirect block if one of them is in it. -/
def spans (off n : Nat) : Finset Nat :=
  Finset.Icc (off / bsize) ((off + n - 1) / bsize) ∪ if (off + n - 1) / bsize < ndirect then ∅ else {maxfile}

theorem mapIndices_spans {off n tot : Nat} (more : tot < n) : mapIndices ((off + tot) / bsize) ⊆ spans off n := by
  have inside : (off + tot) / bsize ∈ Finset.Icc (off / bsize) ((off + n - 1) / bsize) :=
    Finset.mem_Icc.mpr ⟨Nat.div_le_div_right (Nat.le_add_right _ _), Nat.div_le_div_right (by omega)⟩
  have order := (Finset.mem_Icc.mp inside).2
  intro m member
  rw [mapIndices] at member
  rw [spans, Finset.mem_union]
  split_ifs at member with direct
  · rw [Finset.mem_singleton.mp member]
    exact .inl inside
  · rcases Finset.mem_insert.mp member with rfl | last
    · exact .inl inside
    · rw [if_neg (by omega)]
      exact .inr last

/-- What the last round of the loop of `writei` leaves. A copy that stops part-way in a block that the file already had
stores bytes that no `log_write` records. -/
structure Leftover (sb : DiskSuperblock) (k : Nat) (src : Source) (off n : Nat) (v : Volume) (nodes : Nat → Dinode)
    (tot extra : Nat) (t : Volume) : Prop where
  recorded : ∀ b, t.img b ≠ v.img b → b ∈ t.logged ∨ slotOf sb v.img nodes (k, (off + tot) / bsize) = b ∧ b ≠ 0 ∧
    ∃ i, tot ≤ i ∧ i < tot + extra ∧ src.byte i ≠ cell sb v.img nodes (k, (off + i) / bsize) ((off + i) % bsize)
  reach : ∀ limit, src.limit = some limit → tot + extra ≤ limit
  aligned : tot < n → tot = 0 ∨ (off + tot) % bsize = 0
  ends : extra ≠ 0 → src.limit = some (tot + extra) ∧ tot + extra < n ∧ (off + tot) % bsize + extra < bsize
  present : tot < n → slotOf sb v.img nodes (k, (off + tot) / bsize) ≠ 0 → src.limit = some (tot + extra) ∧
    (slotOf sb v.img nodes (k, (off + tot) / bsize) ∈ t.logged →
      slotOf sb v.img nodes (k, (off + tot) / bsize) ∈ v.logged)

/-- The result of the loop of `writei`: the copied bytes, which are reported unless the last copy was partial. -/
structure Written (sb : DiskSuperblock) (k : Nat) (src : Source) (off n : Nat) (v : Volume) (nodes : Nat → Dinode)
    (result : Nat × Dinode) (t : Volume) : Prop where
  most : result.1 ≤ n
  partly : ∃ extra, Wrote sb k src off (result.1 + extra) (spans off n) v nodes result.2 t ∧
    Leftover sb k src off n v nodes result.1 extra t
  named : ∀ m, m * bsize < off + result.1 → slotOf sb t.img (Function.update nodes k result.2) (k, m) ≠ 0
  short : result.1 < n →
    Full sb t.img ∧ slotOf sb t.img (Function.update nodes k result.2) (k, (off + result.1) / bsize) = 0 ∨
      ∃ limit, src.limit = some limit ∧ limit < n

section Rounds

variable {sb : DiskSuperblock} {v t : Volume} {nodes : Nat → Dinode} {ip : Dinode} {src : Source} {k off tot n : Nat}
  {I : Finset Nat}

theorem Wrote.map (wrote : Wrote sb k src off tot I v nodes ip t) {m : Nat} {result : Uint × Dinode} {u : Volume}
    (mapped : Mapped sb k m t (Function.update nodes k ip) result u) (indices : mapIndices m ⊆ I) :
    Wrote sb k src off tot I v nodes result.2 u := by
  obtain ⟨step, keeps, _, _⟩ := mapped
  rw [Function.update_idem] at step keeps
  refine ⟨(wrote.step.trans step).mono (Finset.union_subset (Finset.Subset.refl _) indices), fun x low i inside => ?_⟩
  rw [keeps.cells x low i inside, wrote.cells x low i inside]

theorem Wrote.fill (wrote : Wrote sb k src off tot I v nodes ip t) (geometry : Geometry sb)
    (named : slotOf sb t.img (Function.update nodes k ip) (k, (off + tot) / bsize) ≠ 0)
    (high : (off + tot) / bsize < maxfile) (index : (off + tot) / bsize ∈ I) {c : Nat}
    (fits : c ≤ bsize - (off + tot) % bsize) {logged : Finset Nat} (more : t.logged ⊆ logged)
    (fewer : logged ⊆ insert (slotOf sb t.img (Function.update nodes k ip) (k, (off + tot) / bsize)) t.logged) :
    Wrote sb k src off (tot + c) I v nodes ip
      ⟨filled t.img (slotOf sb t.img (Function.update nodes k ip) (k, (off + tot) / bsize)) ((off + tot) % bsize) c
        fun i => src.byte (tot + i), logged⟩ := by
  have sound := wrote.step.sound
  refine ⟨(wrote.step.trans (extends_fill sound geometry named high more fewer)).mono ?_, fun x low i inside => ?_⟩
  · intro j member
    simp only [Finset.mem_union, Finset.mem_singleton] at member
    rcases member with old | rfl
    · exact old
    · exact index
  rw [fill_cells sound named high, wrote.cells x low i inside]
  obtain ⟨j, m⟩ := x
  have room : c ≤ 1024 - (off + tot) % 1024 := fits
  have small : i < 1024 := inside
  have position : (j, m) = (k, (off + tot) / bsize) ∧ (off + tot) % bsize ≤ i ∧ i < (off + tot) % bsize + c ↔
      j = k ∧ off + tot ≤ m * bsize + i ∧ m * bsize + i < off + (tot + c) := by
    rw [Prod.mk.injEq]
    show (j = k ∧ m = (off + tot) / 1024) ∧ (off + tot) % 1024 ≤ i ∧ i < (off + tot) % 1024 + c ↔
      j = k ∧ off + tot ≤ m * 1024 + i ∧ m * 1024 + i < off + (tot + c)
    omega
  by_cases new : j = k ∧ off + tot ≤ m * bsize + i ∧ m * bsize + i < off + (tot + c)
  · have whole : j = k ∧ off ≤ m * bsize + i ∧ m * bsize + i < off + (tot + c) := ⟨new.1, by omega, new.2.2⟩
    obtain ⟨same, _⟩ := position.mpr new
    have block : m = (off + tot) / 1024 := (Prod.mk.inj same).2
    have byte : tot + (i - (off + tot) % bsize) = m * bsize + i - off := by
      have low : off + tot ≤ m * 1024 + i := new.2.1
      show tot + (i - (off + tot) % 1024) = m * 1024 + i - off
      omega
    rw [if_pos (position.mpr new), if_pos whole, byte]
  · rw [if_neg fun here => new (position.mp here)]
    have same : (j = k ∧ off ≤ m * bsize + i ∧ m * bsize + i < off + tot) ↔
        (j = k ∧ off ≤ m * bsize + i ∧ m * bsize + i < off + (tot + c)) := by omega
    exact if_congr same rfl rfl

/-- The invariant of the loop of `writei`. -/
structure Writing (sb : DiskSuperblock) (k : Nat) (src : Source) (off n : Nat) (v : Volume) (nodes : Nat → Dinode)
    (tot : Nat) (ip : Dinode) (t : Volume) : Prop where
  most : tot ≤ n
  wrote : Wrote sb k src off tot (spans off n) v nodes ip t
  recorded : ∀ b, t.img b ≠ v.img b → b ∈ t.logged
  named : ∀ m, m * bsize < off + tot → slotOf sb t.img (Function.update nodes k ip) (k, m) ≠ 0
  reach : ∀ limit, src.limit = some limit → tot ≤ limit
  aligned : tot < n → tot = 0 ∨ (off + tot) % bsize = 0
  newborn : ∀ x, slotOf sb v.img nodes x = 0 → slotOf sb t.img (Function.update nodes k ip) x ≠ 0 →
    slotOf sb t.img (Function.update nodes k ip) x ∈ t.logged
  later : tot < n → ∀ m, m < maxfile → (off + tot) / bsize ≤ m → slotOf sb v.img nodes (k, m) ≠ 0 →
    slotOf sb v.img nodes (k, m) ∈ t.logged → slotOf sb v.img nodes (k, m) ∈ v.logged

theorem Writing.written (writing : Writing sb k src off n v nodes tot ip t)
    (short : tot < n → Full sb t.img ∧ slotOf sb t.img (Function.update nodes k ip) (k, (off + tot) / bsize) = 0) :
    Written sb k src off n v nodes (tot, ip) t := by
  refine ⟨writing.most, ⟨0, writing.wrote, fun b changed => .inl (writing.recorded b changed), writing.reach,
    writing.aligned, fun extra => absurd rfl extra, fun less named => ?_⟩, writing.named, fun less => .inl (short less)⟩
  have empty := (short less).2
  rw [writing.wrote.step.slots _ named] at empty
  exact absurd empty named

theorem Writing.map (writing : Writing sb k src off n v nodes tot ip t) (more : tot < n) {result : Uint × Dinode}
    {u : Volume} (geometry : Geometry sb)
    (mapped : Mapped sb k ((off + tot) / bsize) t (Function.update nodes k ip) result u)
    (kept : slotOf sb t.img (Function.update nodes k ip) (k, (off + tot) / bsize) ≠ 0 → u = t) :
    Writing sb k src off n v nodes tot result.2 u := by
  have wrote := writing.wrote.map mapped (mapIndices_spans more)
  have slots := mapped.step.slots
  have fresh := mapped.keeps.fresh
  rw [Function.update_idem] at slots fresh
  refine ⟨writing.most, wrote, fun b changed => ?_, fun m below => ?_, writing.reach, writing.aligned,
    fun x empty named => ?_, fun _ m high late named member => ?_⟩
  · by_cases here : u.img b = t.img b
    · rw [here] at changed
      exact mapped.step.logged (writing.recorded b changed)
    · exact mapped.keeps.recorded b here
  · have before := writing.named m below
    rwa [slots _ before]
  · by_cases before : slotOf sb t.img (Function.update nodes k ip) x = 0
    · exact fresh x before named
    · rw [slots x before]
      exact mapped.step.logged (writing.newborn x empty before)
  · have here := wrote.step.slots _ named
    rcases mapped.step.bound _ member with before | map | ⟨j, index, _, block⟩
    · exact writing.later more m high late named before
    · rw [← here] at map
      exact absurd map (wrote.step.sound.not_mem_mapBlocks geometry (by rwa [here]))
    · rw [Function.update_idem, ← here] at block
      have same : m = j := (Prod.mk.inj (wrote.step.sound.map.apart _ _ (by rwa [here]) block.symm)).2
      have first : m = (off + tot) / bsize := by
        rw [← same, mapIndices] at index
        split_ifs at index
        · exact Finset.mem_singleton.mp index
        · rcases Finset.mem_insert.mp index with first | last
          · exact first
          · exact absurd (Finset.mem_singleton.mp last) (Nat.ne_of_lt high)
      rw [first] at named member ⊢
      have old := writing.wrote.step.slots _ named
      rw [kept (by rwa [old])] at member
      refine writing.later more _ ?_ (Nat.le_refl _) named member
      rwa [← first]

/-- A block that a copy has changed is recorded, or the copy has changed a byte of a block that the file had. -/
theorem Writing.leftover (writing : Writing sb k src off n v nodes tot ip t) {addr b c : Nat}
    (changed : filled t.img addr ((off + tot) % bsize) c (fun i => src.byte (tot + i)) b ≠ v.img b)
    (block : addr = slotOf sb t.img (Function.update nodes k ip) (k, (off + tot) / bsize)) (nonzero : addr ≠ 0)
    (fits : c ≤ bsize - (off + tot) % bsize) :
    b ∈ t.logged ∨ slotOf sb v.img nodes (k, (off + tot) / bsize) = b ∧ b ≠ 0 ∧
      ∃ i, tot ≤ i ∧ i < tot + c ∧ src.byte i ≠ cell sb v.img nodes (k, (off + i) / bsize) ((off + i) % bsize) := by
  by_cases before : t.img b = v.img b
  swap
  · exact .inl (writing.recorded b before)
  have here : b = addr := by
    by_contra other
    exact changed ((filled_other other).trans before)
  subst here
  by_cases old : slotOf sb v.img nodes (k, (off + tot) / bsize) = 0
  · rw [block] at nonzero ⊢
    exact .inl (writing.newborn _ old nonzero)
  rw [writing.wrote.step.slots _ old] at block
  refine .inr ⟨block.symm, nonzero, ?_⟩
  rw [filled_self, ← before] at changed
  obtain ⟨j, differs⟩ := Function.ne_iff.mp changed
  rw [overlay] at differs
  split_ifs at differs with inside
  swap
  · exact absurd rfl differs
  have room : c ≤ 1024 - (off + tot) % 1024 := fits
  have range : (off + tot) % 1024 ≤ j ∧ j < (off + tot) % 1024 + c := inside
  have index : (off + (tot + (j - (off + tot) % bsize))) / bsize = (off + tot) / bsize := by
    show (off + (tot + (j - (off + tot) % 1024))) / 1024 = (off + tot) / 1024
    omega
  have offset : (off + (tot + (j - (off + tot) % bsize))) % bsize = j := by
    show (off + (tot + (j - (off + tot) % 1024))) % 1024 = j
    omega
  refine ⟨tot + (j - (off + tot) % bsize), Nat.le_add_right _ _, ?_, ?_⟩
  · show tot + (j - (off + tot) % 1024) < tot + c
    omega
  · rwa [index, offset, cell, if_neg old, ← block, ← before]

end Rounds

section Loop

variable {sb : DiskSuperblock} {v : Volume} {nodes : Nat → Dinode} {src : Source} {k off n : Nat} {stop : Panic → Prop}

theorem copied_le (src : Source) (tot m : Nat) : src.copied tot m ≤ m := by
  rw [Source.copied]
  cases src.limit with
  | none => exact Nat.le_refl _
  | some limit => exact Nat.min_le_left _ _

/-- A copy is short when the source ends inside of it. -/
theorem copied_short {tot m : Nat} (short : src.copied tot m ≠ m) :
    ∃ limit, src.limit = some limit ∧ src.copied tot m = limit - tot ∧ limit - tot < m := by
  rw [Source.copied] at short ⊢
  cases ends : src.limit with
  | none =>
      rw [ends] at short
      exact absurd rfl short
  | some limit =>
      rw [ends] at short
      have less : ¬ min m (limit - tot) = m := short
      refine ⟨limit, rfl, ?_, by omega⟩
      show min m (limit - tot) = limit - tot
      omega

theorem copied_whole {tot m limit : Nat} (whole : src.copied tot m = m) (ends : src.limit = some limit)
    (reach : tot ≤ limit) : tot + m ≤ limit := by
  rw [Source.copied, ends] at whole
  have enough : min m (limit - tot) = m := whole
  omega

theorem writeLoop_spec (geometry : Geometry sb) (small : k < sb.ninodes.toNat) (typed : (nodes k).type ≠ 0)
    (bound : off + n ≤ maxfile * bsize) (rounds : Nat) {tot : Nat} {ip : Dinode} {t : Volume} (enough : n - tot ≤ rounds)
    (writing : Writing sb k src off n v nodes tot ip t) :
    Ensures (writeLoop sb src off n rounds tot ip) t (Written sb k src off n v nodes) stop := by
  induction rounds generalizing tot ip t with
  | zero => exact writing.written fun more => by omega
  | succ rounds ih =>
      rw [writeLoop, ensures_ite]
      refine ⟨fun more => ?_, fun finished => writing.written fun more => absurd more finished⟩
      have high : (off + tot) / bsize < maxfile := by
        have room : off + n ≤ 268 * 1024 := bound
        show (off + tot) / 1024 < 268
        omega
      have mine : Function.update nodes k ip k = ip := Function.update_self ..
      have typed' : (Function.update nodes k ip k).type ≠ 0 := by
        rw [writing.wrote.step.same]
        exact typed
      have blocks : Ensures (bmap sb (Function.update nodes k ip k) ((off + tot) / bsize)) t
          (fun result u => Mapped sb k ((off + tot) / bsize) t (Function.update nodes k ip) result u ∧
            (slotOf sb t.img (Function.update nodes k ip) (k, (off + tot) / bsize) ≠ 0 → u = t)) stop :=
        bmap_kept writing.wrote.step.sound geometry small typed' high
      rw [mine] at blocks
      rw [ensures_bind]
      refine blocks.mono (fun result u both => ?_) (fun _ stopped => stopped)
      obtain ⟨addr, ip'⟩ := result
      obtain ⟨mapped, kept⟩ := both
      have writing' := writing.map more geometry mapped kept
      rw [ensures_ite]
      refine ⟨fun none => writing'.written fun _ => ?_, fun occupied => ?_⟩
      · have full := mapped.full none
        rwa [Function.update_idem] at full
      have block := mapped.block occupied
      rw [Function.update_idem] at block
      have named : slotOf sb u.img (Function.update nodes k ip') (k, (off + tot) / bsize) ≠ 0 := by
        rw [← block]
        intro zero
        exact occupied (BitVec.eq_of_toNat_eq zero)
      have index : (off + tot) / bsize ∈ spans off n := mapIndices_spans more (self_mem_mapIndices _)
      have fits : src.copied tot (roundSize n off tot) ≤ bsize - (off + tot) % bsize :=
        Nat.le_trans (copied_le _ _ _) (Nat.min_le_right _ _)
      have slots (start len : Nat) (source : ByteMap) (x : Nat × Nat) :
          slotOf sb (filled u.img addr.toNat start len source) (Function.update nodes k ip') x =
            slotOf sb u.img (Function.update nodes k ip') x := by
        rw [block]
        exact fill_slots writing'.wrote.step.sound high x
      have filling (logged : Finset Nat) (less : u.logged ⊆ logged) (fewer : logged ⊆ insert addr.toNat u.logged) :
          Wrote sb k src off (tot + src.copied tot (roundSize n off tot)) (spans off n) v nodes ip'
            ⟨filled u.img addr.toNat ((off + tot) % bsize) (src.copied tot (roundSize n off tot))
              fun i => src.byte (tot + i), logged⟩ := by
        rw [block] at fewer ⊢
        exact writing'.wrote.fill geometry named high index fits less fewer
      simp only [ensures_bind, ensures_bread, ensures_fillBuffer]
      rw [ensures_ite]
      constructor
      · intro whole
        have size := roundSize_le n off tot
        have progress : 0 < roundSize n off tot := roundSize_pos more
        have wrote := filling (insert addr.toNat u.logged) (Finset.subset_insert _ _) (Finset.Subset.refl _)
        have inBlock : roundSize n off tot ≤ 1024 - (off + tot) % 1024 := Nat.min_le_right _ _
        rw [whole] at wrote
        rw [ensures_bind, ensures_logWrite]
        refine ih (by omega) (t := ⟨filled u.img addr.toNat ((off + tot) % bsize) (src.copied tot (roundSize n off tot))
              fun i => src.byte (tot + i), insert addr.toNat u.logged⟩) ?_
        rw [whole]
        refine ⟨by omega, wrote, fun b changed => ?_, fun m below => ?_, fun limit ends => ?_, fun again => .inr ?_,
          fun x empty new => ?_, fun again m later after old member => ?_⟩
        · by_cases here : b = addr.toNat
          · rw [here]
            exact Finset.mem_insert_self _ _
          · have away : u.img b ≠ v.img b := by
              intro same
              exact changed ((filled_other here).trans same)
            exact Finset.mem_insert_of_mem (writing'.recorded b away)
        · show slotOf sb (filled u.img addr.toNat _ _ _) (Function.update nodes k ip') (k, m) ≠ 0
          rw [slots]
          by_cases old : m * bsize < off + tot
          · exact writing'.named m old
          · have same : m = (off + tot) / bsize := by
              have after : m * 1024 < off + (tot + roundSize n off tot) := below
              have before : ¬ m * 1024 < off + tot := old
              show m = (off + tot) / 1024
              omega
            rw [same]
            exact named
        · exact copied_whole whole ends (writing.reach limit ends)
        · have round : roundSize n off tot = min (n - tot) (1024 - (off + tot) % 1024) := rfl
          show (off + (tot + roundSize n off tot)) % 1024 = 0
          omega
        · rw [slots] at new ⊢
          exact Finset.mem_insert_of_mem (writing'.newborn x empty new)
        · -- The next round starts at the next block.
          have next : (off + tot) / bsize < m := by
            have least : (off + (tot + roundSize n off tot)) / 1024 ≤ m := after
            have round : roundSize n off tot = min (n - tot) (1024 - (off + tot) % 1024) := rfl
            show (off + tot) / 1024 < m
            omega
          have here := writing'.wrote.step.slots _ old
          rcases Finset.mem_insert.mp member with same | before
          · rw [block, ← here] at same
            exact absurd (Prod.mk.inj (writing'.wrote.step.sound.map.apart _ _ (by rwa [here]) same)).2
              (Nat.ne_of_gt next)
          · exact writing'.later more m later (Nat.le_of_lt next) old before
      · intro short
        obtain ⟨limit, ends, copied, less⟩ := copied_short short
        have reach := writing.reach limit ends
        have size := roundSize_le n off tot
        have inBlock : roundSize n off tot ≤ 1024 - (off + tot) % 1024 := Nat.min_le_right _ _
        have upto : tot + src.copied tot (roundSize n off tot) = limit := by omega
        rw [ensures_pure]
        refine ⟨writing.most, ⟨src.copied tot (roundSize n off tot), filling u.logged (Finset.Subset.refl _)
          (Finset.subset_insert _ _), fun b changed => ?_, fun finish same => ?_, writing.aligned, fun _ => ⟨?_, ?_, ?_⟩,
          fun _ old => ⟨?_, writing'.later more _ high (Nat.le_refl _) old⟩⟩,
          fun m below => ?_, fun _ => .inr ⟨limit, ends, by omega⟩⟩
        · exact writing'.leftover changed block (by rwa [block]) fits
        · rw [ends] at same
          exact Nat.le_of_eq (upto.trans (Option.some.inj same))
        · rw [ends, upto]
        · show tot + src.copied tot (roundSize n off tot) < n
          omega
        · show (off + tot) % 1024 + src.copied tot (roundSize n off tot) < 1024
          omega
        · rw [ends, upto]
        · show slotOf sb (filled u.img addr.toNat _ _ _) (Function.update nodes k ip') (k, m) ≠ 0
          rw [slots]
          exact writing'.named m below

end Loop

section Update

variable {sb : DiskSuperblock} {img : Blocks} {nodes : Nat → Dinode} {k : Nat}

@[simp] theorem ensures_iupdate (v : Volume) (ip : Dinode) {post : Unit → Volume → Prop} {stop : Panic → Prop} :
    Ensures (iupdate sb k ip) v post stop ↔ post () ⟨written sb v.img k ip, insert (sb.iblock k) v.logged⟩ := by
  simp only [iupdate, ensures_bind, ensures_bread, ensures_fillBuffer, ensures_logWrite]
  rfl

theorem written_other (ip : Dinode) {b : Nat} (other : b ≠ sb.iblock k) : written sb img k ip b = img b := filled_other other

/-- An inode is written before the free map. -/
theorem written_late (geometry : Geometry sb) (small : k < sb.ninodes.toNat) (ip : Dinode) {b : Nat}
    (late : sb.bmapstart.toNat ≤ b) : written sb img k ip b = img b :=
  written_other ip (Nat.ne_of_gt (Nat.lt_of_lt_of_le (geometry.inodes k small).2 late))

/-- The inodes of the disk after one of them is written. -/
theorem written_nodes (same : ∀ j, j < sb.ninodes.toNat → dinode sb img j = nodes j) (ip : Dinode) (j : Nat)
    (small : j < sb.ninodes.toNat) : dinode sb (written sb img k ip) j = Function.update nodes k ip j := by
  rw [dinode_written]
  by_cases mine : j = k
  · rw [if_pos mine, mine, Function.update_self]
  · rw [if_neg mine, Function.update_of_ne mine, same j small]

theorem Sound.written (sound : Sound sb img (Function.update nodes k ip)) (geometry : Geometry sb)
    (small : k < sb.ninodes.toNat) (same : ∀ j, j < sb.ninodes.toNat → dinode sb img j = nodes j) :
    Sound sb (OnDisk.written sb img k ip) (dinode sb (OnDisk.written sb img k ip)) :=
  (sound.frame geometry fun _ late => written_late geometry small ip late).of_nodes (written_nodes same ip)

end Update

/-- The blocks after a write of some bytes of a file. More bytes than the size tells can be changed. -/
structure Spliced (sb : DiskSuperblock) (k : Nat) (byte : Nat → Byte) (off tot upto : Nat) (img next : Blocks) : Prop where
  sound : Sound sb next (dinode sb next)
  others : ∀ j, j < sb.ninodes.toNat → j ≠ k → dinode sb next j = dinode sb img j
  fields : dinode sb next k = { dinode sb img k with size := (dinode sb next k).size, addrs := (dinode sb next k).addrs }
  size : (dinode sb next k).size.toNat = max (dinode sb img k).size.toNat (off + tot)
  whole : Whole sb img (dinode sb img) k → Whole sb next (dinode sb next) k
  slots : ∀ x, slotOf sb img (dinode sb img) x ≠ 0 → slotOf sb next (dinode sb next) x = slotOf sb img (dinode sb img) x
  cells : ∀ x, x.2 < maxfile → ∀ i, i < bsize → cell sb next (dinode sb next) x i =
    if x.1 = k ∧ off ≤ x.2 * bsize + i ∧ x.2 * bsize + i < off + upto then byte (x.2 * bsize + i - off)
    else cell sb img (dinode sb img) x i

/-- The result of `writei` when it does not return -1. -/
structure Replaced (sb : DiskSuperblock) (k : Nat) (src : Source) (off n : Nat) (v : Volume) (tot : Nat) (ip : Dinode)
    (t : Volume) : Prop where
  most : tot ≤ n
  mine : dinode sb t.img k = ip
  partly : ∃ extra, Spliced sb k src.byte off tot (tot + extra) v.img t.img ∧
    Leftover sb k src off n v (dinode sb v.img) tot extra t
  short : tot < n → Full sb t.img ∧ slotOf sb t.img (dinode sb t.img) (k, (off + tot) / bsize) = 0 ∨
    ∃ limit, src.limit = some limit ∧ limit < n
  news : ∀ x, slotOf sb t.img (dinode sb t.img) x ≠ 0 → slotOf sb v.img (dinode sb v.img) x ≠ 0 ∨
    x.1 = k ∧ x.2 ∈ spans off n
  logged : v.logged ⊆ t.logged

section Writei

variable {sb : DiskSuperblock} {v : Volume} {src : Source} {k : Nat} {stop : Panic → Prop}

theorem writing_start {off n : Nat} (sound : Sound sb v.img (dinode sb v.img)) (whole : Whole sb v.img (dinode sb v.img) k)
    (start : off ≤ (dinode sb v.img k).size.toNat) :
    Writing sb k src off n v (dinode sb v.img) 0 (dinode sb v.img k) v := by
  have same : Function.update (dinode sb v.img) k (dinode sb v.img k) = dinode sb v.img := Function.update_eq_self _ _
  refine ⟨Nat.zero_le _, ⟨?_, fun x _ i _ => ?_⟩, fun _ changed => absurd rfl changed, fun m below => ?_,
    fun _ _ => Nat.zero_le _, fun _ => .inl rfl, fun x empty new => ?_, fun _ _ _ _ _ member => member⟩
  · rw [same]
    exact (Extends.refl sound).mono (Finset.empty_subset _)
  · rw [same, if_neg (by omega)]
  · rw [same]
    exact whole m (Nat.lt_of_lt_of_le below start)
  · rw [same] at new
    exact absurd empty new

/-- The inode is written back with its new size. -/
theorem Written.replaced {off n : Nat} {result : Nat × Dinode} {t : Volume} {ip : Dinode} (geometry : Geometry sb)
    (small : k < sb.ninodes.toNat) (typed : (dinode sb v.img k).type ≠ 0) (bound : off + n ≤ maxfile * bsize)
    (written : Written sb k src off n v (dinode sb v.img) result t) (only : ip = { result.2 with size := ip.size })
    (length : ip.size.toNat = max (dinode sb v.img k).size.toNat (off + result.1)) :
    Replaced sb k src off n v result.1 ip ⟨OnDisk.written sb t.img k ip, insert (sb.iblock k) t.logged⟩ := by
  obtain ⟨most, ⟨extra, wrote, rest⟩, named, short⟩ := written
  have sound := wrote.step.sound
  have fields := wrote.step.same
  have self : Function.update (dinode sb v.img) k result.2 k = result.2 := Function.update_self ..
  rw [self] at fields
  have old : result.2.size = (dinode sb v.img k).size := by rw [fields]
  have mine : ip = { dinode sb v.img k with size := ip.size, addrs := ip.addrs } := by
    rw [only, fields]
  have addrs : ip.addrs = result.2.addrs := by rw [only]
  have early (j : Nat) (first : j < sb.ninodes.toNat) : dinode sb t.img j = dinode sb v.img j := by
    rw [dinode, dinode, wrote.step.early _ (geometry.inodes j first).2]
  have enough (whole : Whole sb v.img (dinode sb v.img) k) (m : Nat) (inside : m * bsize < ip.size.toNat) :
      slotOf sb t.img (Function.update (dinode sb v.img) k result.2) (k, m) ≠ 0 := by
    rw [length] at inside
    rcases lt_max_iff.mp inside with before | after
    · apply wrote.step.whole whole m
      rwa [self, old]
    · exact named m after
  have largest : ip.size.toNat ≤ maxfile * bsize := by
    have before := sound.small k small
    rw [self, old] at before
    rw [length]
    exact Nat.max_le.mpr ⟨before, Nat.le_trans (Nat.add_le_add_left most off) bound⟩
  have resized : Sound sb t.img (Function.update (dinode sb v.img) k ip) := by
    have grown : Sound sb t.img (Function.update (Function.update (dinode sb v.img) k result.2) k ip) := by
      refine sound.renode (fun m _ => ?_) largest fun free => absurd free ?_
      · rw [self, addrs]
      · rw [mine]
        exact typed
    rwa [Function.update_idem] at grown
  have late (b : Nat) (high : dataStart sb ≤ b) : OnDisk.written sb t.img k ip b = t.img b :=
    written_late geometry small ip (Nat.le_trans (Nat.le_of_lt geometry.order) high)
  have nodes := written_nodes (k := k) early ip
  have same (j : Nat) : (Function.update (dinode sb v.img) k ip j).addrs =
      (Function.update (dinode sb v.img) k result.2 j).addrs := by
    by_cases here : j = k
    · rw [here, Function.update_self, Function.update_self, addrs]
    · rw [Function.update_of_ne here, Function.update_of_ne here]
  have slots (x : Nat × Nat) : slotOf sb (OnDisk.written sb t.img k ip) (dinode sb (OnDisk.written sb t.img k ip)) x =
      slotOf sb t.img (Function.update (dinode sb v.img) k result.2) x := by
    rw [← sound.slots_of_data late x]
    apply slotOf_congr
    intro j m inside _
    rw [nodes j inside, same]
  have here : dinode sb (OnDisk.written sb t.img k ip) k = ip := by rw [nodes k small, Function.update_self]
  refine ⟨most, here, ⟨extra, ⟨resized.written geometry small early, fun j first other => ?_, ?_, ?_, fun whole m inside => ?_,
    fun x occupied => ?_, fun x low i inside => ?_⟩, fun b changed => ?_, rest.reach, rest.aligned, rest.ends,
    fun less old => ?_⟩, fun less => ?_, fun x named => ?_, ?_⟩
  · rw [nodes j first, Function.update_of_ne other]
  · rw [here]
    exact mine
  · rw [here]
    exact length
  · rw [here] at inside
    rw [slots]
    exact enough whole m inside
  · rw [slots, wrote.step.slots x occupied]
  · rw [← wrote.cells x low i inside, cell, cell, slots]
    split_ifs with none
    · rfl
    · exact congrFun (late _ (sound.range none).1) i
  · by_cases inode : b = sb.iblock k
    · rw [inode]
      exact .inl (Finset.mem_insert_self _ _)
    · refine (rest.recorded b fun equal => ?_).imp_left fun before => Finset.mem_insert_of_mem before
      exact changed ((written_other ip inode).trans equal)
  · refine ⟨(rest.present less old).1, fun member => ?_⟩
    rcases Finset.mem_insert.mp member with inode | before
    · have data := (sound.range (by rwa [wrote.step.slots _ old])).1
      rw [wrote.step.slots _ old, inode] at data
      have order := geometry.order
      have below := (geometry.inodes k small).2
      omega
    · exact (rest.present less old).2 before
  · rcases short less with ⟨full, empty⟩ | limited
    · refine .inl ⟨fun b inside => ?_, ?_⟩
      · rw [bitOf_congr (written_late geometry small ip (bmapstart_le sb b))]
        exact full b inside
      · rw [slots, empty]
    · exact .inr limited
  · rw [slots] at named
    exact wrote.step.news x named
  · exact wrote.step.logged.trans (Finset.subset_insert _ _)

/-- The tests of `writei` refuse what is not a range of a file. -/
theorem refused_iff {size : Uint} (off n : Uint) (most : size.toNat ≤ maxfile * bsize) :
    (size < off ∨ off + n < off) ∨ BitVec.ofNat 32 (maxfile * bsize) < off + n ↔
      ¬ (off.toNat ≤ size.toNat ∧ off.toNat + n.toNat ≤ maxfile * bsize) := by
  have most' : size.toNat ≤ 268 * 1024 := most
  have word : (BitVec.ofNat 32 (maxfile * bsize)).toNat = 268 * 1024 := rfl
  have product : maxfile * bsize = 268 * 1024 := rfl
  have offWord := off.isLt
  have nWord := n.isLt
  rw [BitVec.lt_def, BitVec.lt_def, BitVec.lt_def, BitVec.toNat_add, word, product]
  omega

/-- `writei` returns -1 and changes nothing, or it replaces a range of the file. -/
theorem writei_spec {off n : Uint} (geometry : Geometry sb) (sound : Sound sb v.img (dinode sb v.img))
    (small : k < sb.ninodes.toNat) (whole : Whole sb v.img (dinode sb v.img) k) (typed : (dinode sb v.img k).type ≠ 0) :
    Ensures (writei sb k src (dinode sb v.img k) off n) v
      (fun r t => if off.toNat ≤ (dinode sb v.img k).size.toNat ∧ off.toNat + n.toNat ≤ maxfile * bsize then
        ∃ tot, r.1 = some tot ∧ Replaced sb k src off.toNat n.toNat v tot r.2 t
        else r = (none, dinode sb v.img k) ∧ t = v) stop := by
  have refused := refused_iff off n (sound.small k small)
  rw [writei, ensures_ite]
  constructor
  · intro invalid
    rw [ensures_pure, if_neg (refused.mp (.inl invalid))]
    exact ⟨rfl, rfl⟩
  intro valid
  rw [ensures_ite]
  constructor
  · intro long
    rw [ensures_pure, if_neg (refused.mp (.inr long))]
    exact ⟨rfl, rfl⟩
  intro room
  obtain ⟨start, bound⟩ := not_not.mp (refused.not.mp (not_or.mpr ⟨valid, room⟩))
  rw [ensures_bind]
  refine (writeLoop_spec geometry small typed bound _ (Nat.sub_le _ _) (writing_start sound whole start)).mono
    (fun result t written => ?_) (fun _ stopped => stopped)
  have less : result.1 ≤ n.toNat := written.most
  have step := written.partly
  have old : result.2.size = (dinode sb v.img k).size := by
    obtain ⟨_, wrote, _⟩ := step
    have fields := wrote.step.same
    rw [Function.update_self] at fields
    rw [fields]
  have stop' : (off + BitVec.ofNat 32 result.1).toNat = off.toNat + result.1 := by
    rw [BitVec.toNat_add, BitVec.toNat_ofNat]
    have limit : off.toNat + n.toNat ≤ 268 * 1024 := bound
    omega
  simp only [ensures_bind, ensures_iupdate, ensures_pure]
  rw [if_pos ⟨start, bound⟩]
  by_cases grows : result.2.size < off + BitVec.ofNat 32 result.1
  · rw [if_pos grows]
    refine ⟨result.1, rfl, written.replaced geometry small typed bound rfl ?_⟩
    rw [BitVec.lt_def, old, stop'] at grows
    show (off + BitVec.ofNat 32 result.1).toNat = _
    omega
  · rw [if_neg grows]
    refine ⟨result.1, rfl, written.replaced geometry small typed bound rfl ?_⟩
    rw [BitVec.lt_def, old, stop'] at grows
    rw [old]
    omega

end Writei

end Xv6.BlockFs
