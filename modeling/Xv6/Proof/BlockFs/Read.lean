/-
This file proves that `readi` returns the bytes of a file without holes and changes nothing.
-/

import Xv6.Proof.BlockFs.Bmap

namespace Xv6.BlockFs

open Bytes OnDisk Program
open Contents (roundSize)

section Segments

variable (sb : DiskSuperblock) (img : Blocks) (nodes : Nat → Dinode) (k : Nat)

/-- Some bytes of the blocks of a file. -/
def segment (off n : Nat) : List Byte :=
  (List.range n).map fun i => cell sb img nodes (k, (off + i) / bsize) ((off + i) % bsize)

/-- The bytes of a file. -/
def contents : List Byte := segment sb img nodes k 0 (nodes k).size.toNat

variable {sb img nodes k}

theorem segment_length (off n : Nat) : (segment sb img nodes k off n).length = n := by
  rw [segment, List.length_map, List.length_range]

theorem contents_length : (contents sb img nodes k).length = (nodes k).size.toNat := segment_length _ _

theorem segment_append (off m n : Nat) :
    segment sb img nodes k off (m + n) = segment sb img nodes k off m ++ segment sb img nodes k (off + m) n := by
  rw [segment, List.range_add, List.map_append, List.map_map]
  congr 1
  apply List.map_congr_left
  intro i _
  show cell sb img nodes (k, (off + (m + i)) / bsize) _ = cell sb img nodes (k, (off + m + i) / bsize) _
  rw [Nat.add_assoc]

theorem segment_congr {next : Blocks} {after : Nat → Dinode} {off n : Nat}
    (same : ∀ i, off ≤ i → i < off + n → cell sb next after (k, i / bsize) (i % bsize) =
      cell sb img nodes (k, i / bsize) (i % bsize)) :
    segment sb next after k off n = segment sb img nodes k off n := by
  apply List.map_congr_left
  intro i inside
  exact same (off + i) (Nat.le_add_right _ _) (Nat.add_lt_add_left (List.mem_range.mp inside) _)

/-- A part of the file. -/
theorem contents_part {off n : Nat} (inside : off + n ≤ (nodes k).size.toNat) :
    ((contents sb img nodes k).drop off).take n = segment sb img nodes k off n := by
  have whole : contents sb img nodes k = segment sb img nodes k 0 off ++
      (segment sb img nodes k off n ++ segment sb img nodes k (off + n) ((nodes k).size.toNat - (off + n))) := by
    rw [← segment_append, contents]
    have first : segment sb img nodes k 0 (off + (n + ((nodes k).size.toNat - (off + n)))) =
        segment sb img nodes k 0 off ++ segment sb img nodes k (0 + off) (n + ((nodes k).size.toNat - (off + n))) :=
      segment_append 0 off _
    rw [Nat.zero_add] at first
    rw [← first]
    congr 1
    omega
  rw [whole, List.drop_left' (segment_length 0 off), List.take_left' (segment_length off n)]

end Segments

section Reads

variable {sb : DiskSuperblock} {v : Volume} {nodes : Nat → Dinode} {k upto : Nat} {stop : Panic → Prop}

/-- The bytes of a file up to a length have blocks. -/
def Covered (sb : DiskSuperblock) (img : Blocks) (nodes : Nat → Dinode) (k upto : Nat) : Prop :=
  ∀ i, i < upto → i / bsize < maxfile ∧ slotOf sb img nodes (k, i / bsize) ≠ 0

/-- The index of a byte before the end has a block. -/
theorem Sound.covered (sound : Sound sb v.img nodes) (small : k < sb.ninodes.toNat) (whole : Whole sb v.img nodes k) :
    Covered sb v.img nodes k (nodes k).size.toNat := by
  intro i inside
  have size := sound.small k small
  have low : i / bsize * bsize ≤ i := Nat.div_mul_le_self _ _
  refine ⟨?_, whole _ (Nat.lt_of_le_of_lt low inside)⟩
  have bound : i < 268 * 1024 := Nat.lt_of_lt_of_le inside size
  show i / 1024 < 268
  omega

/-- A round of `readi` copies a part of one block. -/
theorem round_segment (covered : Covered sb v.img nodes k upto) (small : k < sb.ninodes.toNat) {place m : Nat}
    (inside : place < upto) (fits : m ≤ bsize - place % bsize) :
    (List.range m).map (fun i => v.img (slotBlock v.img (nodes k).addrs (place / bsize)).toNat (place % bsize + i)) =
      segment sb v.img nodes k place m := by
  obtain ⟨high, named⟩ := covered place inside
  apply List.map_congr_left
  intro i member
  have below := List.mem_range.mp member
  have quotient : (place + i) / bsize = place / bsize := by
    have bound : m ≤ 1024 - place % 1024 := fits
    show (place + i) / 1024 = place / 1024
    omega
  have remainder : (place + i) % bsize = place % bsize + i := by
    have bound : m ≤ 1024 - place % 1024 := fits
    show (place + i) % 1024 = place % 1024 + i
    omega
  rw [quotient, remainder, cell, if_neg named, slotOf_inside small (Nat.le_of_lt high)]

theorem roundSize_pos {n off tot : Nat} (more : tot < n) : 0 < roundSize n off tot := by
  have remainder : (off + tot) % bsize < bsize := Nat.mod_lt _ (by decide)
  rw [roundSize]
  omega

theorem roundSize_le (n off tot : Nat) : roundSize n off tot ≤ n - tot := Nat.min_le_left _ _

theorem readLoop_spec (covered : Covered sb v.img nodes k upto) (small : k < sb.ninodes.toNat) (ok : Nat → Bool)
    {off n : Nat} (inside : off + n ≤ upto) (rounds tot : Nat) (got : List Byte) (enough : n - tot ≤ rounds) :
    Ensures (readLoop sb ok off n rounds tot got (nodes k)) v
      (fun r t => t = v ∧ r.2 = nodes k ∧
        (r.1 = some (got ++ segment sb v.img nodes k (off + tot) (n - tot)) ∨ r.1 = none ∧ ∃ i, ok i = false)) stop := by
  induction rounds generalizing tot got with
  | zero =>
      have done : n - tot = 0 := Nat.le_zero.mp enough
      refine ⟨rfl, rfl, .inl ?_⟩
      rw [done, segment, List.range_zero, List.map_nil, List.append_nil]
  | succ rounds ih =>
      rw [readLoop, ensures_ite]
      constructor
      · intro more
        have before : off + tot < upto := by omega
        obtain ⟨high, named⟩ := covered (off + tot) before
        have nonzero : slotBlock v.img (nodes k).addrs ((off + tot) / bsize) ≠ 0 := by
          rw [slotOf_inside small (Nat.le_of_lt high)] at named
          intro zero
          rw [zero] at named
          exact named rfl
        rw [ensures_bind]
        refine bmap_present small high named ?_
        simp only [if_neg nonzero, ensures_bind, ensures_bread]
        rw [ensures_ite]
        constructor
        · intro _
          have progress : 0 < roundSize n off tot := roundSize_pos more
          have bound := roundSize_le n off tot
          have fits : roundSize n off tot ≤ bsize - (off + tot) % bsize := Nat.min_le_right _ _
          rw [round_segment covered small before fits]
          refine (ih (tot + roundSize n off tot) _ (by omega)).mono (fun r t after => ?_) (fun _ stopped => stopped)
          have split : n - tot = roundSize n off tot + (n - (tot + roundSize n off tot)) := by omega
          rw [split, segment_append, ← List.append_assoc, Nat.add_assoc off tot]
          exact after
        · intro failed
          exact ⟨rfl, rfl, .inr ⟨rfl, tot, Bool.eq_false_iff.mpr failed⟩⟩
      · intro finished
        have done : n - tot = 0 := by omega
        refine ⟨rfl, rfl, .inl ?_⟩
        rw [done, segment, List.range_zero, List.map_nil, List.append_nil]

/-- `readi` returns the bytes of the range that the file has. -/
theorem readi_segment (covered : Covered sb v.img nodes k upto) (small : k < sb.ninodes.toNat) (ok : Nat → Bool)
    {off n : Uint} (start : off.toNat ≤ (nodes k).size.toNat) (range : off.toNat + n.toNat < 2 ^ 32)
    (inside : off.toNat + min n.toNat ((nodes k).size.toNat - off.toNat) ≤ upto) :
    Ensures (readi sb ok (nodes k) off n) v
      (fun r t => t = v ∧ r.2 = nodes k ∧
        (r.1 = some (segment sb v.img nodes k off.toNat (min n.toNat ((nodes k).size.toNat - off.toNat))) ∨
          r.1 = none ∧ ∃ i, ok i = false)) stop := by
  have sum : (off + n).toNat = off.toNat + n.toNat := by rw [BitVec.toNat_add, Nat.mod_eq_of_lt range]
  have valid : ¬ ((nodes k).size < off ∨ off + n < off) := by
    rw [BitVec.lt_def, BitVec.lt_def, sum]
    omega
  have left : ((nodes k).size - off).toNat = (nodes k).size.toNat - off.toNat := BitVec.toNat_sub_of_le start
  have count : (if (nodes k).size < off + n then (nodes k).size - off else n).toNat =
      min n.toNat ((nodes k).size.toNat - off.toNat) := by
    split_ifs with long
    · rw [BitVec.lt_def, sum] at long
      omega
    · rw [BitVec.lt_def, sum] at long
      omega
  rw [readi, if_neg valid]
  simp only [count]
  refine (readLoop_spec covered small ok inside _ 0 [] (Nat.sub_le _ _)).mono (fun r t after => ?_)
    (fun _ stopped => stopped)
  rw [Nat.add_zero, Nat.sub_zero, List.nil_append] at after
  exact after

/-- The range of a file without holes. -/
theorem readi_spec (sound : Sound sb v.img nodes) (small : k < sb.ninodes.toNat) (file : Whole sb v.img nodes k)
    (ok : Nat → Bool) {off n : Uint} (start : off.toNat ≤ (nodes k).size.toNat) (range : off.toNat + n.toNat < 2 ^ 32) :
    Ensures (readi sb ok (nodes k) off n) v
      (fun r t => t = v ∧ r.2 = nodes k ∧
        (r.1 = some (((contents sb v.img nodes k).drop off.toNat).take n.toNat) ∨ r.1 = none ∧ ∃ i, ok i = false)) stop := by
  have inside : off.toNat + min n.toNat ((nodes k).size.toNat - off.toNat) ≤ (nodes k).size.toNat := by omega
  refine (readi_segment (sound.covered small file) small ok start range inside).mono (fun r t after => ?_)
    (fun _ stopped => stopped)
  have part : ((contents sb v.img nodes k).drop off.toNat).take (min n.toNat ((nodes k).size.toNat - off.toNat)) = _ :=
    contents_part inside
  have clipped : ((contents sb v.img nodes k).drop off.toNat).take (min n.toNat ((nodes k).size.toNat - off.toNat)) =
      ((contents sb v.img nodes k).drop off.toNat).take n.toNat := by
    rw [List.take_eq_take_iff, List.length_drop, contents_length]
    omega
  rwa [← part, clipped] at after

end Reads

end Xv6.BlockFs
