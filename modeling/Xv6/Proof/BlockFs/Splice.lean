/-
This file proves that files behave as byte arrays. A write replaces a range of the array, and a read returns one.
-/

import Xv6.Proof.BlockFs.Write
import Xv6.Proof.Mkfs.Volume

namespace Xv6.BlockFs

open Bytes OnDisk Program

/-- The array with a range replaced. -/
def splice (old : List Byte) (off : Nat) (data : List Byte) : List Byte :=
  old.take off ++ data ++ old.drop (off + data.length)

/-- The bytes of a source. -/
def Source.bytes (src : Source) (n : Nat) : List Byte := (List.range n).map src.byte

/-- The bytes of a file on the disk. -/
def fileBytes (sb : DiskSuperblock) (img : Blocks) (k : Nat) : List Byte := contents sb img (dinode sb img) k

section Arrays

variable {sb : DiskSuperblock} {img next : Blocks} {k off tot upto : Nat} {byte : Nat → Byte}

/-- A write changes no other file. -/
theorem Spliced.other_file (spliced : Spliced sb k byte off tot upto img next) {j : Nat} (small : j < sb.ninodes.toNat)
    (other : j ≠ k) : fileBytes sb next j = fileBytes sb img j := by
  have same := spliced.others j small other
  rw [fileBytes, fileBytes, contents, contents, same]
  apply segment_congr
  intro i _ inside
  have size := spliced.sound.small j small
  rw [same] at size
  have low : i / bsize < maxfile := by
    have bound : i < 268 * 1024 := by
      have most : (dinode sb img j).size.toNat ≤ 268 * 1024 := size
      omega
    show i / 1024 < 268
    omega
  rw [spliced.cells _ low _ (Nat.mod_lt _ (by decide)), if_neg fun both => other both.1]

/-- The file is the old array with the range replaced, when what is written past the range is what the file held. -/
theorem Spliced.file_of_same (spliced : Spliced sb k byte off tot upto img next) (small : k < sb.ninodes.toNat)
    (start : off ≤ (dinode sb img k).size.toNat) (more : tot ≤ upto)
    (same : ∀ i, off + tot ≤ i → i < off + upto → i < (dinode sb img k).size.toNat →
      byte (i - off) = cell sb img (dinode sb img) (k, i / bsize) (i % bsize)) :
    fileBytes sb next k = splice (fileBytes sb img k) off ((List.range tot).map byte) := by
  have most : (dinode sb next k).size.toNat ≤ 268 * 1024 := spliced.sound.small k small
  have size := spliced.size
  have cells (i : Nat) (inside : i < (dinode sb next k).size.toNat) :
      cell sb next (dinode sb next) (k, i / bsize) (i % bsize) =
        if off ≤ i ∧ i < off + tot then byte (i - off) else cell sb img (dinode sb img) (k, i / bsize) (i % bsize) := by
    have low : i / bsize < maxfile := by
      show i / 1024 < 268
      omega
    have position : i / bsize * bsize + i % bsize = i := by
      rw [Nat.mul_comm]
      exact Nat.div_add_mod _ _
    rw [spliced.cells _ low _ (Nat.mod_lt _ (by decide)), position]
    by_cases past : off + tot ≤ i ∧ i < off + upto
    · rw [if_pos ⟨rfl, by omega, past.2⟩, if_neg (by omega)]
      exact same i past.1 past.2 (by omega)
    · refine if_congr ?_ rfl rfl
      show k = k ∧ off ≤ i ∧ i < off + upto ↔ off ≤ i ∧ i < off + tot
      omega
  have whole : (dinode sb next k).size.toNat = off + (tot + ((dinode sb next k).size.toNat - (off + tot))) := by omega
  rw [fileBytes, contents, whole, segment_append, segment_append, Nat.zero_add, splice, List.length_map,
    List.length_range, List.append_assoc]
  congr 1
  · rw [fileBytes, ← List.drop_zero (l := contents sb img (dinode sb img) k), contents_part (by omega)]
    apply segment_congr
    intro i _ inside
    rw [cells i (by omega), if_neg (by omega)]
  congr 1
  · apply List.map_congr_left
    intro i member
    have inside := List.mem_range.mp member
    rw [cells (off + i) (by omega), if_pos (by omega), Nat.add_sub_cancel_left]
  · by_cases short : off + tot ≤ (dinode sb img k).size.toNat
    · have rest : (fileBytes sb img k).drop (off + tot) =
          ((fileBytes sb img k).drop (off + tot)).take ((dinode sb next k).size.toNat - (off + tot)) := by
        rw [List.take_of_length_le]
        rw [List.length_drop, fileBytes, contents_length]
        omega
      rw [rest, fileBytes, contents_part (by omega)]
      apply segment_congr
      intro i low inside
      rw [cells i (by omega), if_neg (by omega)]
    · have none : (dinode sb next k).size.toNat - (off + tot) = 0 := by omega
      rw [none, List.drop_eq_nil_of_le]
      · rfl
      · rw [fileBytes, contents_length]
        omega

/-- The file is the old array with the range replaced. -/
theorem Spliced.file (spliced : Spliced sb k byte off tot tot img next) (small : k < sb.ninodes.toNat)
    (start : off ≤ (dinode sb img k).size.toNat) :
    fileBytes sb next k = splice (fileBytes sb img k) off ((List.range tot).map byte) :=
  spliced.file_of_same small start (Nat.le_refl _) fun _ low high _ => by omega

theorem fileBytes_get {i : Nat} (inside : i < (dinode sb img k).size.toNat) :
    (fileBytes sb img k)[i]? = some (cell sb img (dinode sb img) (k, i / bsize) (i % bsize)) := by
  rw [fileBytes, contents, segment, List.getElem?_map, List.getElem?_range inside, Option.map_some, Nat.zero_add]

/-- A byte past the replaced range stays. -/
theorem splice_get_past {old data : List Byte} {i : Nat} (start : off ≤ old.length) (past : off + data.length ≤ i) :
    (splice old off data)[i]? = old[i]? := by
  have length : (old.take off ++ data).length = off + data.length := by
    rw [List.length_append, List.length_take, Nat.min_eq_left start]
  rw [splice, List.getElem?_append_right (by omega), length, List.getElem?_drop]
  congr 1
  omega

/-- A write that continues another one. -/
theorem Spliced.trans {mid : Blocks} {more span : Nat} {rest : Nat → Byte} (first : Spliced sb k byte off tot tot img mid)
    (second : Spliced sb k rest (off + tot) more span mid next) (shift : ∀ i, rest i = byte (tot + i)) :
    Spliced sb k byte off (tot + more) (tot + span) img next := by
  refine ⟨second.sound, fun j small other => ?_, ?_, ?_, fun whole => second.whole (first.whole whole),
    fun x named => ?_, fun x low i inside => ?_⟩
  · rw [second.others j small other, first.others j small other]
  · rw [second.fields, first.fields]
  · have before := first.size
    have after := second.size
    omega
  · have here := first.slots x named
    rw [second.slots x (by rwa [here]), here]
  · rw [second.cells x low i inside, first.cells x low i inside]
    by_cases late : x.1 = k ∧ off + tot ≤ x.2 * bsize + i ∧ x.2 * bsize + i < off + tot + span
    · have place : tot + (x.2 * bsize + i - (off + tot)) = x.2 * bsize + i - off := by omega
      rw [if_pos late, if_pos (by omega), shift, place]
    · rw [if_neg late]
      refine if_congr ?_ rfl rfl
      omega

end Arrays

section Calls

variable {sb : DiskSuperblock} {v : Volume} {src : Source} {k : Nat} {off n : Uint}

/-- A write that reports all its bytes. -/
theorem Replaced.whole {t : Volume} {ip : Dinode} {off n : Nat} (replaced : Replaced sb k src off n v n ip t) :
    Spliced sb k src.byte off n n v.img t.img := by
  obtain ⟨extra, spliced, rest⟩ := replaced.partly
  by_cases none : extra = 0
  · rw [none, Nat.add_zero] at spliced
    exact spliced
  · have less := (rest.ends none).2.1
    omega

/-- `writei` of a range that a file can have. -/
theorem writei_ok (geometry : Geometry sb) (sound : Sound sb v.img (dinode sb v.img)) (small : k < sb.ninodes.toNat)
    (file : Whole sb v.img (dinode sb v.img) k) (typed : (dinode sb v.img k).type ≠ 0)
    (start : off.toNat ≤ (dinode sb v.img k).size.toNat)
    (bound : off.toNat + n.toNat ≤ maxfile * bsize) {stop : Panic → Prop} :
    Ensures (writei sb k src (dinode sb v.img k) off n) v
      (fun r t => ∃ tot, r.1 = some tot ∧ Replaced sb k src off.toNat n.toNat v tot r.2 t) stop := by
  refine (writei_spec geometry sound small file typed).mono (fun r t after => ?_) (fun _ stopped => stopped)
  rwa [if_pos ⟨start, bound⟩] at after

/-- An indirect index has its block through the indirect block. -/
theorem slot_last {img : Blocks} {nodes : Nat → Dinode} {m : Nat} (low : ndirect ≤ m) (high : m < maxfile)
    (named : slotOf sb img nodes (k, m) ≠ 0) : slotOf sb img nodes (k, maxfile) ≠ 0 := by
  have small := (inside_of_slot named).1
  rw [slotOf_inside small (Nat.le_of_lt high)] at named
  rw [slotOf_inside small (Nat.le_refl _), slotBlock_last]
  intro zero
  have none : (nodes k).addrs (Fin.last ndirect) = 0 := BitVec.eq_of_toNat_eq zero
  rw [slotBlock_none low none] at named
  exact named rfl

/-- All blocks of a range are named after it is written. -/
theorem Spliced.spans_named {img next : Blocks} {byte : Nat → Byte} {off n : Nat} (spliced : Spliced sb k byte off n n img next)
    (small : k < sb.ninodes.toNat) (file : Whole sb img (dinode sb img) k) (positive : 0 < n) {m : Nat}
    (index : m ∈ spans off n) :
    slotOf sb next (dinode sb next) (k, m) ≠ 0 := by
  have size := spliced.size
  have inside {j : Nat} (below : j ≤ (off + n - 1) / bsize) : slotOf sb next (dinode sb next) (k, j) ≠ 0 := by
    apply spliced.whole file j
    have bound : j ≤ (off + n - 1) / 1024 := below
    show j * 1024 < _
    omega
  rw [spans, Finset.mem_union] at index
  rcases index with range | last
  · exact inside (Finset.mem_Icc.mp range).2
  · split_ifs at last with direct
    · exact absurd last (Finset.notMem_empty m)
    · rw [Finset.mem_singleton.mp last]
      have most : (dinode sb next k).size.toNat ≤ 268 * 1024 := spliced.sound.small k small
      refine slot_last (Nat.not_lt.mp direct) ?_ (inside (Nat.le_refl _))
      show (off + n - 1) / 1024 < 268
      omega

theorem spans_mono {off n i m : Nat} (positive : 0 < m) (fits : i + m ≤ n) : spans (off + i) m ⊆ spans off n := by
  have low : off / bsize ≤ (off + i) / bsize := Nat.div_le_div_right (Nat.le_add_right _ _)
  have high : (off + i + m - 1) / bsize ≤ (off + n - 1) / bsize := Nat.div_le_div_right (by omega)
  intro j member
  rw [spans, Finset.mem_union] at member ⊢
  rcases member with range | last
  · obtain ⟨first, second⟩ := Finset.mem_Icc.mp range
    exact .inl (Finset.mem_Icc.mpr ⟨by omega, by omega⟩)
  · split_ifs at last with direct
    · exact absurd last (Finset.notMem_empty j)
    · rw [if_neg (by omega)]
      exact .inr last

theorem ofNat_toNat {m : Nat} (small : m ≤ maxfile * bsize) : (BitVec.ofNat 32 m : Uint).toNat = m := by
  have bound : m ≤ 268 * 1024 := small
  rw [BitVec.toNat_ofNat]
  exact Nat.mod_eq_of_lt (by omega)

/-- The loop of `filewrite` after some chunks. It needs no block that one `writei` of the whole does not need. -/
theorem filewriteLoop_spec {off n : Nat} {w : Blocks} {stop : Panic → Prop} (geometry : Geometry sb)
    (small : k < sb.ninodes.toNat) (file : Whole sb v.img (dinode sb v.img) k) (typed : (dinode sb v.img k).type ≠ 0)
    (bound : off + n ≤ maxfile * bsize) (copies : ∀ limit, src.limit = some limit → n ≤ limit)
    (whole : Spliced sb k src.byte off n n v.img w)
    (rounds i : Nat) (u : Volume) (most : i ≤ n) (enough : n - i ≤ rounds) (done : Spliced sb k src.byte off i i v.img u.img)
    (news : ∀ x, slotOf sb u.img (dinode sb u.img) x ≠ 0 → slotOf sb v.img (dinode sb v.img) x ≠ 0 ∨
      x.1 = k ∧ x.2 ∈ spans off n) :
    Ensures (filewriteLoop sb k src n rounds i (BitVec.ofNat 32 (off + i))) u
      (fun r t => r = (n, BitVec.ofNat 32 (off + n)) ∧ Spliced sb k src.byte off n n v.img t.img) stop := by
  induction rounds generalizing i u with
  | zero =>
      have last : i = n := by omega
      rw [last] at done ⊢
      exact ⟨rfl, done⟩
  | succ rounds ih =>
      rw [filewriteLoop, ensures_ite]
      constructor
      swap
      · intro finished
        have last : i = n := by omega
        rw [last] at done ⊢
        exact ⟨rfl, done⟩
      intro more
      have chunk : 0 < min (n - i) chunkMax := by
        have positive : 0 < chunkMax := by decide
        omega
      have fits : i + min (n - i) chunkMax ≤ n := by omega
      have typed' : (dinode sb u.img k).type ≠ 0 := by
        rw [done.fields]
        exact typed
      have first := ofNat_toNat (Nat.le_trans (Nat.add_le_add_left most off) bound)
      have second : (BitVec.ofNat 32 (min (n - i) chunkMax) : Uint).toNat = min (n - i) chunkMax :=
        ofNat_toNat (Nat.le_trans (by omega) bound)
      simp only [ensures_bind, beginOp, ensures_modify, ensures_get]
      refine (writei_ok (v := { u with logged := ∅ }) geometry done.sound small (done.whole file) typed' ?_ ?_).mono
        (fun r t after => ?_) (fun _ stopped => stopped)
      · rw [first]
        show off + i ≤ (dinode sb u.img k).size.toNat
        rw [done.size]
        exact Nat.le_max_right _ _
      · rw [first, second]
        omega
      · obtain ⟨tot, result, replaced⟩ := after
        rw [first, second] at replaced
        have spread : spans (off + i) (min (n - i) chunkMax) ⊆ spans off n := spans_mono chunk fits
        have news' (x : Nat × Nat) (named : slotOf sb t.img (dinode sb t.img) x ≠ 0) :
            slotOf sb v.img (dinode sb v.img) x ≠ 0 ∨ x.1 = k ∧ x.2 ∈ spans off n := by
          rcases replaced.news x named with before | ⟨mine, index⟩
          · exact news x before
          · exact .inr ⟨mine, spread index⟩
        have all : tot = min (n - i) chunkMax := by
          by_contra less
          have most' := replaced.most
          obtain ⟨_, spliced, _⟩ := replaced.partly
          rcases replaced.short (by omega) with ⟨full, empty⟩ | ⟨limit, ends, short⟩
          · -- The whole write has found a block for this index and for all others.
            have missing : (off + i + tot) / bsize ∈ spans off n := by
              refine spread ?_
              rw [spans, Finset.mem_union]
              exact .inl (Finset.mem_Icc.mpr ⟨Nat.div_le_div_right (by omega), Nat.div_le_div_right (by omega)⟩)
            refine whole.spans_named small file (by omega) missing ?_
            refine spliced.sound.map.full_maximal full whole.sound.map (fun x named => ?_) empty
            rcases news' x named with before | ⟨mine, index⟩
            · rwa [whole.slots x before]
            · obtain ⟨j, m⟩ := x
              have same : j = k := mine
              rw [same]
              exact whole.spans_named small file (by omega) index
          · obtain ⟨finish, ends', shifted⟩ := Option.map_eq_some_iff.mp ends
            have enough' := copies finish ends'
            omega
        rw [all] at replaced result
        have step := done.trans replaced.whole fun _ => rfl
        simp only [result, if_true, Option.getD_some]
        rw [← BitVec.ofNat_add, Nat.add_assoc]
        exact ih (i + min (n - i) chunkMax) t fits (by omega) step news'

/-- Nothing is written. -/
theorem Spliced.none {byte : Nat → Byte} {off : Nat} (sound : Sound sb v.img (dinode sb v.img))
    (start : off ≤ (dinode sb v.img k).size.toNat) : Spliced sb k byte off 0 0 v.img v.img := by
  refine ⟨sound, fun _ _ _ => rfl, rfl, ?_, fun whole => whole, fun _ _ => rfl, fun x _ i _ => ?_⟩
  · omega
  · rw [if_neg (by omega)]

/-- `filewrite` of a range that `writei` can write as a whole. -/
theorem filewrite_spec {n : CInt} {w : Blocks} {stop : Panic → Prop} (geometry : Geometry sb)
    (sound : Sound sb v.img (dinode sb v.img)) (small : k < sb.ninodes.toNat) (file : Whole sb v.img (dinode sb v.img) k)
    (typed : (dinode sb v.img k).type ≠ 0) (start : off.toNat ≤ (dinode sb v.img k).size.toNat) (positive : 0 ≤ n.toInt)
    (bound : off.toNat + n.toInt.toNat ≤ maxfile * bsize) (copies : ∀ limit, src.limit = some limit → n.toInt.toNat ≤ limit)
    (whole : Spliced sb k src.byte off.toNat n.toInt.toNat n.toInt.toNat v.img w) :
    Ensures (filewrite sb k src off n) v
      (fun r t => r = (n.toInt, off + BitVec.ofNat 32 n.toInt.toNat) ∧
        Spliced sb k src.byte off.toNat n.toInt.toNat n.toInt.toNat v.img t.img) stop := by
  have loop : Ensures (filewriteLoop sb k src n.toInt.toNat n.toInt.toNat 0 (BitVec.ofNat 32 (off.toNat + 0))) v _ stop :=
    filewriteLoop_spec geometry small file typed bound copies whole n.toInt.toNat 0 v (Nat.zero_le _) (Nat.sub_le _ _)
      (Spliced.none sound start) fun x named => .inl named
  rw [Nat.add_zero, BitVec.ofNat_toNat, BitVec.setWidth_eq] at loop
  rw [filewrite, ensures_bind]
  refine loop.mono (fun r t after => ?_) (fun _ stopped => stopped)
  obtain ⟨rfl, spliced⟩ := after
  have count : ((n.toInt.toNat : Nat) : Int) = n.toInt := Int.toNat_of_nonneg positive
  rw [ensures_pure]
  refine ⟨?_, spliced⟩
  rw [if_pos count, BitVec.ofNat_add, BitVec.ofNat_toNat, BitVec.setWidth_eq]

theorem toInt_toNat {n : CInt} (positive : 0 ≤ n.toInt) : n.toInt.toNat = n.toNat ∧ n.toNat < 2 ^ 31 := by
  have number := BitVec.toInt_eq_toNat_cond n
  have word := n.isLt
  split_ifs at number
  · omega
  · omega

/-- `readi` at any offset, for a length that is an `int`. -/
theorem readi_bytes {stop : Panic → Prop} (sound : Sound sb v.img (dinode sb v.img)) (small : k < sb.ninodes.toNat)
    (file : Whole sb v.img (dinode sb v.img) k) (ok : Nat → Bool) (off : Uint) (n : CInt) (positive : 0 ≤ n.toInt) :
    Ensures (readi sb ok (dinode sb v.img k) off n) v
      (fun r t => t = v ∧ (r.1 = some (((fileBytes sb v.img k).drop off.toNat).take n.toInt.toNat) ∨
        r.1 = none ∧ ∃ i, ok i = false)) stop := by
  have size : (dinode sb v.img k).size.toNat ≤ 268 * 1024 := sound.small k small
  obtain ⟨length, half⟩ := toInt_toNat positive
  rw [length]
  by_cases start : off.toNat ≤ (dinode sb v.img k).size.toNat
  · have range : off.toNat + n.toNat < 2 ^ 32 := by omega
    refine (readi_spec sound small file ok start range).mono (fun r t after => ?_) (fun _ stopped => stopped)
    exact ⟨after.1, after.2.2⟩
  · have beyond : (dinode sb v.img k).size < off ∨ off + n < off := by
      rw [BitVec.lt_def]
      omega
    rw [readi, if_pos beyond, ensures_pure]
    refine ⟨rfl, .inl ?_⟩
    rw [List.drop_eq_nil_of_le, List.take_nil]
    rw [fileBytes, contents_length]
    omega

/-- A write that returns its length makes the file the old bytes with the new ones in their place, a read returns a range
of them, and the chunks of `filewrite` are one write of the whole. -/
theorem files_are_byte_arrays (v : Volume) (off : Uint) (geometry : Geometry sb) (sound : Sound sb v.img (dinode sb v.img))
    (small : k < sb.ninodes.toNat) (file : Whole sb v.img (dinode sb v.img) k) (typed : (dinode sb v.img k).type ≠ 0)
    (start : off.toNat ≤ (dinode sb v.img k).size.toNat) :
    (∀ (src : Source) (n : Uint), off.toNat + n.toNat ≤ maxfile * bsize →
      Ensures (writei sb k src (dinode sb v.img k) off n) v
        (fun r t => r.1 = some n.toNat →
          fileBytes sb t.img k = splice (fileBytes sb v.img k) off.toNat (src.bytes n.toNat) ∧
          (dinode sb t.img k).size.toNat = max (dinode sb v.img k).size.toNat (off.toNat + n.toNat) ∧
          ∀ j, j < sb.ninodes.toNat → j ≠ k → fileBytes sb t.img j = fileBytes sb v.img j) (fun _ => False)) ∧
    (∀ (ok : Nat → Bool) (n : CInt), (∀ i, ok i = true) → 0 ≤ n.toInt →
      Ensures (readi sb ok (dinode sb v.img k) off n) v
        (fun r t => r.1 = some (((fileBytes sb v.img k).drop off.toNat).take n.toInt.toNat) ∧ t = v) (fun _ => False)) ∧
    (∀ (src : Source) (n : CInt) (ip : Dinode) (w : Volume), 0 ≤ n.toInt → off.toNat + n.toInt.toNat ≤ maxfile * bsize →
      (∀ limit, src.limit = some limit → n.toInt.toNat ≤ limit) →
      (writei sb k src (dinode sb v.img k) off n).run v = .ok ((some n.toNat, ip), w) →
      Ensures (filewrite sb k src off n) v
        (fun r t => r = (n.toInt, off + n) ∧ (∀ j, j < sb.ninodes.toNat → fileBytes sb t.img j = fileBytes sb w.img j) ∧
          (dinode sb t.img k).size = (dinode sb w.img k).size) (fun _ => False)) := by
  refine ⟨fun src n bound => ?_, fun ok n copies positive => ?_, fun src n ip w positive bound copies ran => ?_⟩
  · refine (writei_ok geometry sound small file typed start bound).mono (fun r t after result => ?_) (fun _ stopped => stopped)
    obtain ⟨tot, count, replaced⟩ := after
    rw [result] at count
    rw [← Option.some.inj count] at replaced
    have spliced := replaced.whole
    exact ⟨spliced.file small start, spliced.size, fun j inside other => spliced.other_file inside other⟩
  · refine (readi_bytes sound small file ok off n positive).mono (fun r t after => ?_) (fun _ stopped => stopped)
    obtain ⟨same, bytes | ⟨_, i, failed⟩⟩ := after
    · exact ⟨bytes, same⟩
    · rw [copies i] at failed
      exact Bool.noConfusion failed
  · have length := (toInt_toNat positive).1
    rw [length] at bound copies
    have once : Ensures (writei sb k src (dinode sb v.img k) off n) v _ (fun _ => False) :=
      writei_ok geometry sound small file typed start bound
    obtain ⟨tot, count, replaced⟩ := once.ok ran
    rw [← Option.some.inj count] at replaced
    have whole := replaced.whole
    rw [← length] at bound copies whole
    refine (filewrite_spec geometry sound small file typed start positive bound copies whole).mono (fun r t after => ?_)
      (fun _ stopped => stopped)
    obtain ⟨rfl, spliced⟩ := after
    refine ⟨?_, fun j inside => ?_, ?_⟩
    · rw [length, BitVec.ofNat_toNat, BitVec.setWidth_eq]
    · by_cases mine : j = k
      · rw [mine, spliced.file small start, whole.file small start]
      · rw [spliced.other_file inside mine, whole.other_file inside mine]
    · apply BitVec.eq_of_toNat_eq
      rw [spliced.size, whole.size]

/-- A write changes what it reports: later reads see its first bytes in their place, and every changed block is in the
transaction. -/
def Reported (sb : DiskSuperblock) (k : Nat) (src : Source) (off r : Nat) (v t : Volume) : Prop :=
  (∀ (ok : Nat → Bool) (off' : Uint) (n' : CInt), 0 ≤ n'.toInt →
    Ensures (readi sb ok (dinode sb t.img k) off' n') t
      (fun got u => u = t ∧
        (got.1 = some (((splice (fileBytes sb v.img k) off (src.bytes r)).drop off'.toNat).take n'.toInt.toNat) ∨
          got.1 = none ∧ ∃ i, ok i = false)) (fun _ => False)) ∧
  ∀ b, t.img b ≠ v.img b → b ∈ t.logged

/-- The source has no byte after the reported ones that a copy can leave in a block which the file already had, unless it
is the byte of the block, or it is past the end of the file in a block that is already in the transaction. -/
def Unspoilt (sb : DiskSuperblock) (k : Nat) (src : Source) (off r : Nat) (v : Volume) : Prop :=
  slotOf sb v.img (dinode sb v.img) (k, (off + r) / bsize) ≠ 0 → ∀ limit, src.limit = some limit →
    ∀ i, r ≤ i → i < limit →
      src.byte i = cell sb v.img (dinode sb v.img) (k, (off + i) / bsize) ((off + i) % bsize) ∨
        (dinode sb v.img k).size.toNat ≤ off + i ∧
          slotOf sb v.img (dinode sb v.img) (k, (off + r) / bsize) ∈ v.logged

section Short

variable {t : Volume} {ip : Dinode} {off n r : Nat}

theorem Replaced.reported (replaced : Replaced sb k src off n v r ip t) (small : k < sb.ninodes.toNat)
    (file : Whole sb v.img (dinode sb v.img) k) (start : off ≤ (dinode sb v.img k).size.toNat)
    (unspoilt : Unspoilt sb k src off r v) : Reported sb k src off r v t := by
  obtain ⟨extra, spliced, rest⟩ := replaced.partly
  refine ⟨fun ok off' n' positive => ?_, fun b changed => ?_⟩
  · have bytes : fileBytes sb t.img k = splice (fileBytes sb v.img k) off (src.bytes r) := by
      refine spliced.file_of_same small start (Nat.le_add_right _ _) fun i low high visible => ?_
      obtain ⟨limit, _, inside⟩ := rest.ends (by omega)
      have within : (off + r) % 1024 + extra < 1024 := inside
      have same : (off + r) / bsize = i / bsize := by
        show (off + r) / 1024 = i / 1024
        omega
      have named : slotOf sb v.img (dinode sb v.img) (k, (off + r) / bsize) ≠ 0 := by
        apply file
        show (off + r) / 1024 * 1024 < _
        omega
      have position : off + (i - off) = i := by omega
      have byte := unspoilt named _ limit (i - off) (by omega) (by omega)
      rw [position] at byte
      exact byte.resolve_right fun hidden => absurd hidden.1 (Nat.not_le.mpr visible)
    rw [← bytes]
    exact readi_bytes spliced.sound small (spliced.whole file) ok off' n' positive
  · rcases rest.recorded b changed with logged | ⟨block, nonzero, i, low, high, differs⟩
    · exact logged
    · obtain ⟨limit, _⟩ := rest.ends (by omega)
      rcases unspoilt (by rwa [block]) _ limit i low high with same | ⟨_, before⟩
      · exact absurd same differs
      · rw [block] at before
        exact replaced.logged before

theorem Replaced.unspoilt (replaced : Replaced sb k src off n v r ip t) (small : k < sb.ninodes.toNat)
    (file : Whole sb v.img (dinode sb v.img) k) (start : off ≤ (dinode sb v.img k).size.toNat)
    (bound : off + n ≤ maxfile * bsize) (short : r < n) (reported : Reported sb k src off r v t) :
    Unspoilt sb k src off r v := by
  intro named limit source i low high
  obtain ⟨extra, spliced, rest⟩ := replaced.partly
  obtain ⟨ends, unlogged⟩ := rest.present short named
  rw [source] at ends
  have length : limit = r + extra := Option.some.inj ends
  obtain ⟨_, less, inside⟩ := rest.ends (by omega)
  have within : (off + r) % 1024 + extra < 1024 := inside
  have most : off + n ≤ 268 * 1024 := bound
  have index : (off + i) / bsize = (off + r) / bsize := by
    show (off + i) / 1024 = (off + r) / 1024
    omega
  have position : (off + i) / bsize * bsize + (off + i) % bsize = off + i := by
    rw [Nat.mul_comm]
    exact Nat.div_add_mod _ _
  have low' : (off + i) / bsize < maxfile := by
    show (off + i) / 1024 < 268
    omega
  have stored : cell sb t.img (dinode sb t.img) (k, (off + i) / bsize) ((off + i) % bsize) = src.byte i := by
    rw [spliced.cells _ low' _ (Nat.mod_lt _ (by decide)), position, if_pos ⟨rfl, by omega, by omega⟩,
      Nat.add_sub_cancel_left]
  by_contra spoilt
  rw [not_or, not_and_or, Nat.not_le] at spoilt
  obtain ⟨differs, visible | unrecorded⟩ := spoilt
  · -- The read of this byte sees it.
    have word : (BitVec.ofNat 32 (off + i) : Uint).toNat = off + i := ofNat_toNat (by
      show off + i ≤ 268 * 1024
      omega)
    have size := spliced.size
    have reads : Ensures (readi sb (fun _ => true) (dinode sb t.img k) (BitVec.ofNat 32 (off + i)) 1) t _ (fun _ => False) :=
      readi_bytes spliced.sound small (spliced.whole file) (fun _ => true) (BitVec.ofNat 32 (off + i)) 1 (by decide)
    obtain ⟨got, u, ran, _, here⟩ := reads.total fun _ never => never
    obtain ⟨_, there⟩ := (reported.1 (fun _ => true) (BitVec.ofNat 32 (off + i)) 1 (by decide)).ok ran
    have first := here.resolve_right fun failed => by simp at failed
    have second := there.resolve_right fun failed => by simp at failed
    rw [word] at first second
    have same := congrArg List.head? (Option.some.inj (first.symm.trans second))
    simp only [List.head?_take, List.head?_drop] at same
    rw [if_neg (by decide), if_neg (by decide), fileBytes_get (by omega), stored, splice_get_past, fileBytes_get visible] at same
    · exact differs (Option.some.inj same)
    · rw [fileBytes, contents_length]
      exact start
    · rw [Source.bytes, List.length_map, List.length_range]
      omega
  · refine unrecorded (unlogged (reported.2 _ fun same => differs ?_))
    rw [← stored, index, cell, cell, spliced.slots _ named, if_neg named, if_neg named, same]

end Short

end Calls

section Examples

open Mkfs

variable {s : State}

theorem wordFile_volume (final : Final [wordFile] s) :
    Sound sb s.img (dinode sb s.img) ∧ Whole sb s.img (dinode sb s.img) 2 ∧ (dinode sb s.img 2).type ≠ 0 ∧
      (dinode sb s.img 2).size.toNat = 4 ∧ fileBytes sb s.img 2 = [97, 98, 99, 100] := by
  refine ⟨final.sound (by decide) (by decide), final.whole (by decide) (by decide) (by decide), ?_, ?_, ?_⟩
  · rw [final.type 2 (by decide)]
    decide
  · rw [final.size 2 (by decide) (by decide)]
    decide
  · rw [fileBytes, final.contents_eq (by decide) (by decide)]
    decide

/-- Two bytes of the file of an image of `mkfs` are read at an offset, and two bytes are written over them. -/
theorem word_file_rewritten : ∃ s, (main [wordFile]).run start = .ok ((), s) ∧
    Ensures (readi sb (fun _ => true) (dinode sb s.img 2) 1 2) ⟨s.img, ∅⟩
      (fun r t => r.1 = some [98, 99] ∧ t = ⟨s.img, ∅⟩) (fun _ => False) ∧
    Ensures (writei sb 2 (.kernel [120, 121]) (dinode sb s.img 2) 1 2) ⟨s.img, ∅⟩
      (fun r t => r.1 = some 2 ∧ fileBytes sb t.img 2 = [97, 120, 121, 100]) (fun _ => False) := by
  obtain ⟨s, ran, final⟩ := wordFile_image
  obtain ⟨sound, file, typed, size, bytes⟩ := wordFile_volume final
  have start : (1 : Uint).toNat ≤ (dinode sb s.img 2).size.toNat := by
    rw [size]
    decide
  have arrays := files_are_byte_arrays ⟨s.img, ∅⟩ 1 geometry_sb sound (by decide) file typed start
  refine ⟨s, ran, ?_, ?_⟩
  · have read := arrays.2.1 (fun _ => true) 2 (fun _ => rfl) (by decide)
    simp only [bytes] at read
    exact read
  · have effect : Ensures (writei sb 2 (.kernel [120, 121]) (dinode sb s.img 2) 1 2) ⟨s.img, ∅⟩ _ (fun _ => False) :=
      writei_ok (v := ⟨s.img, ∅⟩) geometry_sb sound (by decide) file typed start (by decide)
    refine (effect.and (arrays.1 (.kernel [120, 121]) 2 (by decide))).mono (fun r t both => ?_) (fun _ stopped => stopped)
    obtain ⟨⟨tot, result, replaced⟩, after⟩ := both
    obtain ⟨extra, _, rest⟩ := replaced.partly
    have most : tot ≤ 2 := replaced.most
    have all : tot = 2 := by
      by_contra other
      have block : (1 + tot) / 1024 = 0 := by omega
      have first : slotOf sb s.img (dinode sb s.img) (2, (1 + tot) / 1024) ≠ 0 := by
        rw [block]
        exact file 0 (by omega)
      cases (rest.present (show tot < 2 by omega) first).1
    rw [all] at result
    refine ⟨result, ?_⟩
    rw [(after result).1, bytes]
    decide

end Examples

end Xv6.BlockFs
