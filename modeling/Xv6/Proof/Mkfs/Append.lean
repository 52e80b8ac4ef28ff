/-
This file proves what `iappend` does to the layout of an image. It appends its bytes to one file, or it stops because
the file or the image would be too large.
-/

import Xv6.Proof.Mkfs.Layout

namespace Xv6.Mkfs

open Bytes OnDisk Program

section Rules

variable {s : State} {stop : Stop → Prop}

@[simp] theorem ensures_wsect (sec : Nat) (buf : ByteMap) {post : Unit → State → Prop} :
    Ensures (wsect sec buf) s post stop ↔ post () { s with img := Function.update s.img sec buf } := Iff.rfl

theorem ensures_rsect (sec : Nat) {post : ByteMap → State → Prop} :
    Ensures (rsect sec) s post stop ↔ (sec < fssize → post (s.img sec) s) ∧ (¬ sec < fssize → stop .die) := by
  simp only [rsect, ensures_bind, ensures_get, ensures_ite, ensures_pure, ensures_throw]

theorem ensures_check (condition : Bool) {post : Unit → State → Prop} :
    Ensures (check condition) s post stop ↔ (condition = true → post () s) ∧ (¬ condition = true → stop .assertion) := by
  simp only [check, ensures_ite, ensures_pure, ensures_throw]

@[simp] theorem ensures_nextBlock {post : Uint → State → Prop} :
    Ensures nextBlock s post stop ↔ post (BitVec.ofNat 32 s.freeblock) { s with freeblock := s.freeblock + 1 } := Iff.rfl

end Rules

section Needs

/-- An index has a block in a file of this length. -/
def Occupied (len n : Nat) : Prop := if n = maxfile then ndirect * bsize < len else n * bsize < len

instance (len n : Nat) : Decidable (Occupied len n) := inferInstanceAs (Decidable (ite _ _ _))

/-- The indices that have blocks. -/
@[irreducible] def needed (data : Nat → List Byte) : Finset (Nat × Nat) :=
  (Finset.range ninodes ×ˢ Finset.range (maxfile + 1)).filter fun x => Occupied (data x.1).length x.2

/-- The files are not too large, and their blocks fit into the image. -/
structure Fit (data : Nat → List Byte) : Prop where
  small : ∀ k, k < ninodes → (data k).length ≤ maxfile * bsize
  room : nmeta + (needed data).card ≤ fssize

variable {data more : Nat → List Byte}

theorem mem_needed {k n : Nat} :
    (k, n) ∈ needed data ↔ (k < ninodes ∧ n < maxfile + 1) ∧ Occupied (data k).length n := by
  unfold needed
  simp only [Finset.mem_filter, Finset.mem_product, Finset.mem_range]

theorem Occupied.mono {len longer n : Nat} (occupied : Occupied len n) (order : len ≤ longer) : Occupied longer n := by
  unfold Occupied at *
  split_ifs at * with last
  · exact Nat.lt_of_lt_of_le occupied order
  · exact Nat.lt_of_lt_of_le occupied order

theorem needed_mono (shorter : ∀ k, (data k).length ≤ (more k).length) : needed data ⊆ needed more := by
  rintro ⟨k, n⟩ member
  rw [mem_needed] at member ⊢
  exact ⟨member.1, Occupied.mono member.2 (shorter k)⟩

theorem Fit.mono (fit : Fit more) (shorter : ∀ k, (data k).length ≤ (more k).length) : Fit data where
  small k inside := Nat.le_trans (shorter k) (fit.small k inside)
  room := Nat.le_trans (Nat.add_le_add_left (Finset.card_le_card (needed_mono shorter)) _) fit.room

/-- The indices that have blocks after a write at one of them. -/
def slotsFor (k n : Nat) (used : Finset (Nat × Nat)) : Finset (Nat × Nat) :=
  insert (k, n) (if n < ndirect then used else insert (k, maxfile) used)

/-- A write inside of one block needs that block. -/
theorem needed_append {k : Nat} {chunk : List Byte} (small : k < ninodes) (below : (data k).length / bsize < maxfile)
    (positive : chunk ≠ []) (fits : chunk.length ≤ bsize - (data k).length % bsize) :
    needed (Function.update data k (data k ++ chunk)) = slotsFor k ((data k).length / bsize) (needed data) := by
  have nonempty : 0 < chunk.length := List.length_pos_of_ne_nil positive
  have span : chunk.length ≤ 1024 - (data k).length % 1024 := fits
  have bound : (data k).length / 1024 < 268 := below
  ext ⟨j, n⟩
  have expand : (j, n) ∈ slotsFor k ((data k).length / bsize) (needed data) ↔
      (j = k ∧ n = (data k).length / bsize) ∨ (ndirect ≤ (data k).length / bsize ∧ j = k ∧ n = maxfile) ∨
        (j, n) ∈ needed data := by
    rw [slotsFor]
    split_ifs with direct
    · simp only [Finset.mem_insert, Prod.mk.injEq]
      have low : ¬ ndirect ≤ (data k).length / bsize := Nat.not_le.mpr direct
      simp only [low, false_and, false_or]
    · simp only [Finset.mem_insert, Prod.mk.injEq, Nat.not_lt.mp direct, true_and]
  rw [expand, mem_needed, mem_needed]
  by_cases mine : j = k
  · subst mine
    rw [Function.update_self, List.length_append]
    unfold Occupied
    by_cases last : n = maxfile
    · subst last
      have other : maxfile ≠ (data j).length / bsize := Nat.ne_of_gt below
      simp only [if_true, true_and, and_true, other, false_or, small, Nat.lt_succ_self]
      show 12 * 1024 < (data j).length + chunk.length ↔ 12 ≤ (data j).length / 1024 ∨ 12 * 1024 < (data j).length
      omega
    · simp only [if_neg last, true_and, small]
      show n < 269 ∧ n * 1024 < (data j).length + chunk.length ↔ n = (data j).length / 1024 ∨
        12 ≤ (data j).length / 1024 ∧ n = 268 ∨ n < 269 ∧ n * 1024 < (data j).length
      have inner : n ≠ 268 := last
      omega
  · rw [Function.update_of_ne mine]
    simp [mine]

end Needs

/-- The inode counter and the blocks before the data stay. -/
structure Frame (s t : State) : Prop where
  freeinode : t.freeinode = s.freeinode
  img : ∀ b, b < nmeta → t.img b = s.img b

theorem Frame.refl (s : State) : Frame s s := ⟨rfl, fun _ _ => rfl⟩

theorem Frame.trans {s t u : State} (first : Frame s t) (second : Frame t u) : Frame s u :=
  ⟨second.freeinode.trans first.freeinode, fun b low => (second.img b low).trans (first.img b low)⟩

/-- The result of `blockFor`: the block of the index, which is the newest block if the image may be full. -/
structure Located (base : Nat → Addrs) (k n : Nat) (used : Finset (Nat × Nat)) (data : Nat → List Byte) (din : Dinode)
    (s : State) (result : Dinode × Uint) (t : State) : Prop where
  addrs : result.1 = { din with addrs := result.1.addrs }
  layout : Layout (Function.update base k result.1.addrs) t.img t.freeblock (slotsFor k n used) data
  block : result.2 = slotBlock t.img result.1.addrs n
  newest : t.freeblock ≤ fssize ∨ result.2.toNat + 1 = t.freeblock
  frame : Frame s t

section Blocks

variable {base : Nat → Addrs} {k n : Nat} {used : Finset (Nat × Nat)} {data : Nat → List Byte} {din : Dinode} {s : State}

theorem blockFor_direct (layout : Layout (Function.update base k din.addrs) s.img s.freeblock used data)
    (small : k < ninodes) (direct : n < ndirect) (room : s.freeblock ≤ fssize) {stop : Stop → Prop} :
    Ensures (blockFor din n) s (Located base k n used data din s) stop := by
  have present := layout.present k n small (Nat.le_of_lt (Nat.lt_of_lt_of_le direct (by decide)))
  rw [Function.update_self, slotBlock_direct direct] at present
  have slots : slotsFor k n used = insert (k, n) used := by rw [slotsFor, if_pos direct]
  simp only [blockFor, dif_pos direct, ensures_ite, ensures_bind, ensures_nextBlock, ensures_pure]
  constructor
  · intro zero
    have new : (k, n) ∉ used := fun member => present.mpr member zero
    have after := layout.alloc_direct small direct new
    rw [Function.update_idem, Function.update_self] at after
    refine ⟨rfl, ?_, ?_, .inr ?_, rfl, fun _ _ => rfl⟩
    · rw [slots]
      exact after
    · show BitVec.ofNat 32 s.freeblock = slotBlock s.img (Function.update din.addrs _ (BitVec.ofNat 32 s.freeblock)) n
      rw [slotBlock_direct direct, Function.update_self]
    · show (BitVec.ofNat 32 s.freeblock).toNat + 1 = s.freeblock + 1
      rw [layout.free_toNat]
  · intro occupied
    refine ⟨rfl, ?_, (slotBlock_direct direct).symm, .inl room, Frame.refl s⟩
    rw [slots, Finset.insert_eq_self.mpr (present.mp occupied)]
    exact layout

/-- The entry is read from the indirect block. An unreadable block is beyond the end of the image. -/
theorem entryFor_spec {din' : Dinode} {t : State} (same : din' = { din with addrs := din'.addrs }) (frame : Frame s t)
    (layout : Layout (Function.update base k din'.addrs) t.img t.freeblock (insert (k, maxfile) used) data)
    (small : k < ninodes) (low : ndirect ≤ n) (high : n < maxfile)
    (newest : t.freeblock ≤ fssize ∨ (din'.addrs (Fin.last ndirect)).toNat + 1 = t.freeblock) :
    Ensures (entryFor din' (n - ndirect)) t (Located base k n used data din s)
      fun _ => fssize < nmeta + (slotsFor k n used).card := by
  have slots : slotsFor k n used = insert (k, n) (insert (k, maxfile) used) := by
    rw [slotsFor, if_neg (Nat.not_lt.mpr low)]
  have mine : (k, maxfile) ∈ insert (k, maxfile) used := Finset.mem_insert_self _ _
  have present := layout.present k n small (Nat.le_of_lt high)
  have last := (layout.present k maxfile small (Nat.le_refl _)).mpr mine
  have range := layout.range k maxfile mine
  rw [Function.update_self, slotBlock_last] at last range
  rw [Function.update_self, slotBlock_indirect low high last] at present
  simp only [entryFor, ensures_bind, ensures_rsect, ensures_ite, ensures_nextBlock, ensures_wsect, ensures_pure]
  constructor
  · intro readable
    have room : t.freeblock ≤ fssize := by omega
    constructor
    · intro zero
      have new : (k, n) ∉ insert (k, maxfile) used := fun member => present.mpr member zero
      have after := layout.alloc_entry small low high new mine
      rw [Function.update_self] at after
      refine ⟨same, ?_, ?_, .inr ?_, frame.trans ⟨rfl, fun b below => ?_⟩⟩
      · rw [slots]
        exact after
      · show BitVec.ofNat 32 t.freeblock = slotBlock (filled t.img _ (4 * (n - ndirect)) 4 (octet _)) din'.addrs n
        rw [slotBlock_indirect low high last, filled_self]
        exact (load_bytes (n := 4) _ fun i below => overlay_inside below).symm
      · show (BitVec.ofNat 32 t.freeblock).toNat + 1 = t.freeblock + 1
        rw [layout.free_toNat]
      · exact Function.update_of_ne (by omega) _ _
    · intro occupied
      refine ⟨same, ?_, (slotBlock_indirect low high last).symm, .inl room, frame⟩
      rw [slots, Finset.insert_eq_self.mpr (present.mp occupied)]
      exact layout
  · intro unreadable
    have total := layout.count
    have more : (insert (k, maxfile) used).card ≤ (slotsFor k n used).card := by
      rw [slots]
      exact Finset.card_le_card (Finset.subset_insert _ _)
    omega

theorem blockFor_indirect (layout : Layout (Function.update base k din.addrs) s.img s.freeblock used data)
    (small : k < ninodes) (low : ndirect ≤ n) (high : n < maxfile) (room : s.freeblock ≤ fssize) :
    Ensures (blockFor din n) s (Located base k n used data din s)
      fun _ => fssize < nmeta + (slotsFor k n used).card := by
  have present := layout.present k maxfile small (Nat.le_refl _)
  rw [Function.update_self, slotBlock_last] at present
  simp only [blockFor, dif_neg (Nat.not_lt.mpr low), ensures_ite, ensures_bind, ensures_nextBlock]
  constructor
  · intro zero
    have new : (k, maxfile) ∉ used := fun member => present.mpr member zero
    have after := layout.alloc_last small new
    rw [Function.update_idem, Function.update_self] at after
    refine entryFor_spec rfl ⟨rfl, fun _ _ => rfl⟩ after small low high (.inr ?_)
    show (Function.update din.addrs (Fin.last ndirect) (BitVec.ofNat 32 s.freeblock) (Fin.last ndirect)).toNat + 1 =
      s.freeblock + 1
    rw [Function.update_self, layout.free_toNat]
  · intro occupied
    refine entryFor_spec rfl (Frame.refl s) ?_ small low high (.inl room)
    rw [Finset.insert_eq_self.mpr (present.mp occupied)]
    exact layout

theorem blockFor_spec (layout : Layout (Function.update base k din.addrs) s.img s.freeblock used data)
    (small : k < ninodes) (high : n < maxfile) (room : s.freeblock ≤ fssize) :
    Ensures (blockFor din n) s (Located base k n used data din s)
      fun _ => fssize < nmeta + (slotsFor k n used).card := by
  by_cases direct : n < ndirect
  · exact blockFor_direct layout small direct room
  · exact blockFor_indirect layout small (Nat.not_lt.mp direct) high room

end Blocks

section Loop

/-- The files after some bytes are appended to one of them. -/
def extended (data : Nat → List Byte) (k : Nat) (p : List Byte) : Nat → List Byte := Function.update data k (data k ++ p)

variable {base : Nat → Addrs} {k off : Nat} {data : Nat → List Byte} {p : List Byte} {din : Dinode} {s : State}

theorem extended_self : extended data k p k = data k ++ p := Function.update_self ..

theorem extended_nil : extended data k [] = data := by
  rw [extended, List.append_nil, Function.update_eq_self]

theorem extended_extended (first second : List Byte) :
    extended (extended data k first) k second = extended data k (first ++ second) := by
  rw [extended, extended_self, extended, Function.update_idem, List.append_assoc, ← extended]

theorem extended_length (n : Nat) (j : Nat) :
    (extended data k (p.take n) j).length ≤ (extended data k p j).length := by
  by_cases mine : j = k
  · rw [mine, extended_self, extended_self, List.length_append, List.length_append]
    exact Nat.add_le_add_left (List.length_take_le' _ _) _
  · rw [extended, extended, Function.update_of_ne mine, Function.update_of_ne mine]

/-- The result of the loop of `iappend`. -/
structure Appended (base : Nat → Addrs) (k : Nat) (data : Nat → List Byte) (p : List Byte) (din : Dinode) (off : Nat)
    (s : State) (result : Dinode × Nat) (t : State) : Prop where
  addrs : result.1 = { din with addrs := result.1.addrs }
  size : result.2 = off + p.length
  layout : Layout (Function.update base k result.1.addrs) t.img t.freeblock (needed (extended data k p))
    (extended data k p)
  fit : Fit (extended data k p)
  frame : Frame s t

theorem appended_nil (layout : Layout (Function.update base k din.addrs) s.img s.freeblock (needed data) data)
    (fit : Fit data) : Appended base k data [] din off s (din, off) s := by
  refine ⟨rfl, rfl, ?_, ?_, Frame.refl s⟩
  · rw [extended_nil]
    exact layout
  · rw [extended_nil]
    exact fit

/-- The number of bytes that a round writes. -/
def roundSize (len : Nat) (p : List Byte) : Nat := min p.length (bsize - len % bsize)

theorem roundSize_pos (len : Nat) (nonempty : p ≠ []) : 0 < roundSize len p := by
  have remainder : len % bsize < bsize := Nat.mod_lt _ (by decide)
  have positive : 0 < p.length := List.length_pos_of_ne_nil nonempty
  rw [roundSize]
  omega

theorem take_roundSize (len : Nat) (p : List Byte) : (p.take (roundSize len p)).length = roundSize len p := by
  rw [List.length_take, roundSize]
  omega

/-- The bytes that a round writes, in the files and in the image. -/
def roundData (data : Nat → List Byte) (k : Nat) (p : List Byte) : Nat → List Byte :=
  extended data k (p.take (roundSize (data k).length p))

def roundState (t : State) (x : Uint) (len : Nat) (p : List Byte) : State :=
  { t with img := filled t.img x.toNat (len % bsize) (roundSize len p) (ofList p) }

theorem needed_round (small : k < ninodes) (below : (data k).length / bsize < maxfile) (nonempty : p ≠ []) :
    needed (roundData data k p) = slotsFor k ((data k).length / bsize) (needed data) := by
  apply needed_append small below
  · intro empty
    have positive := roundSize_pos (data k).length nonempty
    rw [← take_roundSize, empty] at positive
    exact Nat.lt_irrefl 0 positive
  · rw [take_roundSize]
    exact Nat.min_le_right _ _

/-- The file after a round is not longer than it can be. -/
theorem small_round (below : (data k).length / bsize < maxfile) (fit : Fit data) (j : Nat) (inside : j < ninodes) :
    (roundData data k p j).length ≤ maxfile * bsize := by
  by_cases mine : j = k
  · rw [roundData, mine, extended_self, List.length_append, take_roundSize]
    have span : roundSize (data k).length p ≤ 1024 - (data k).length % 1024 := Nat.min_le_right _ _
    have bound : (data k).length / 1024 < 268 := below
    show _ ≤ 268 * 1024
    omega
  · rw [roundData, extended, Function.update_of_ne mine]
    exact fit.small j inside

/-- The block of a round is in the data part of the image. -/
theorem Located.range {result : Dinode × Uint} {t : State} {n : Nat} {used : Finset (Nat × Nat)}
    (located : Located base k n used data din s result t) : nmeta ≤ result.2.toNat ∧ result.2.toNat < t.freeblock := by
  have range := located.layout.range k n (Finset.mem_insert_self _ _)
  rwa [Function.update_self, ← located.block] at range

/-- A round writes to the block that was found. -/
theorem round_writes {result : Dinode × Uint} {t : State}
    (located : Located base k ((data k).length / bsize) (needed data) data din s result t) (small : k < ninodes)
    (below : (data k).length / bsize < maxfile) (nonempty : p ≠ []) :
    Layout (Function.update base k result.1.addrs) (roundState t result.2 (data k).length p).img t.freeblock
      (needed (roundData data k p)) (roundData data k p) := by
  have source (i : Nat) (inside : i < (p.take (roundSize (data k).length p)).length) :
      ofList p i = (p.take (roundSize (data k).length p)).getD i 0 := by
    rw [take_roundSize] at inside
    rw [ofList, List.getD_eq_getElem?_getD, List.getD_eq_getElem?_getD, List.getElem?_take_of_lt inside]
  have fits : (p.take (roundSize (data k).length p)).length ≤ bsize - (data k).length % bsize := by
    rw [take_roundSize]
    exact Nat.min_le_right _ _
  have after := located.layout.write small below (Finset.mem_insert_self _ _) fits source
  rw [Function.update_self, ← located.block, take_roundSize, ← needed_round small below nonempty] at after
  exact after

/-- The blocks of a round fit into the image when the block that was found is readable. -/
theorem round_fit {result : Dinode × Uint} {t : State}
    (located : Located base k ((data k).length / bsize) (needed data) data din s result t) (small : k < ninodes)
    (below : (data k).length / bsize < maxfile) (nonempty : p ≠ []) (fit : Fit data) :
    Fit (roundData data k p) ↔ result.2.toNat < fssize := by
  have total := located.layout.count
  have range := located.range
  rw [← needed_round small below nonempty] at total
  constructor
  · intro full
    have room := full.room
    omega
  · intro readable
    refine ⟨small_round below fit, ?_⟩
    rcases located.newest with enough | last
    · omega
    · omega

theorem appendLoop_spec (rounds : Nat) (enough : p.length ≤ rounds)
    (layout : Layout (Function.update base k din.addrs) s.img s.freeblock (needed data) data) (small : k < ninodes)
    (size : off = (data k).length) (fit : Fit data) :
    Ensures (appendLoop rounds din off p) s (Appended base k data p din off s) fun _ => ¬ Fit (extended data k p) := by
  induction rounds generalizing p din off s data with
  | zero =>
      rw [List.length_eq_zero_iff.mp (Nat.le_zero.mp enough)]
      exact appended_nil layout fit
  | succ rounds ih =>
      rw [appendLoop, ensures_ite]
      constructor
      · rintro rfl
        exact appended_nil layout fit
      intro nonempty
      have positive : 0 < p.length := List.length_pos_of_ne_nil nonempty
      have count : min p.length ((off / bsize + 1) * bsize - off) = roundSize (data k).length p := by
        rw [roundSize, size]
        show min p.length (((data k).length / 1024 + 1) * 1024 - (data k).length) =
          min p.length (1024 - (data k).length % 1024)
        omega
      have offset : off - off / bsize * bsize = (data k).length % bsize := by
        rw [size]
        show (data k).length - (data k).length / 1024 * 1024 = (data k).length % 1024
        omega
      simp only [ensures_bind, ensures_check, decide_eq_true_eq, count, offset]
      constructor
      swap
      -- The file would be longer than it can be.
      · intro large full
        have bound := full.small k small
        rw [extended_self, List.length_append] at bound
        have room : (data k).length + p.length ≤ 268 * 1024 := bound
        have above : ¬ off / 1024 < 268 := large
        omega
      intro below
      rw [size] at below ⊢
      have partly : Fit (extended data k p) → Fit (roundData data k p) := fun full => full.mono (extended_length _)
      have room : s.freeblock ≤ fssize := by
        rw [layout.count]
        exact fit.room
      refine (blockFor_spec layout small below room).mono (fun result t located => ?_) (fun _ stopped full => ?_)
      · have fits := round_fit located small below nonempty fit
        rw [ensures_rsect]
        refine ⟨fun readable => ?_, fun unreadable full => unreadable (fits.mp (partly full))⟩
        have shorter : roundSize (data k).length p ≤ p.length := Nat.min_le_left _ _
        have fewer : (p.drop (roundSize (data k).length p)).length ≤ rounds := by
          have progress := roundSize_pos (data k).length nonempty
          rw [List.length_drop]
          omega
        have grown : (data k).length + roundSize (data k).length p = (roundData data k p k).length := by
          rw [roundData, extended_self, List.length_append, take_roundSize]
        have all : extended (roundData data k p) k (p.drop (roundSize (data k).length p)) = extended data k p := by
          rw [roundData, extended_extended, List.take_append_drop]
        have rest := ih (s := roundState t result.2 (data k).length p) fewer (round_writes located small below nonempty) grown
          (fits.mpr readable)
        rw [all] at rest
        refine rest.mono (fun last u appended => ?_) (fun _ stopped => stopped)
        have unchanged : Frame t (roundState t result.2 (data k).length p) :=
          ⟨rfl, fun b low => filled_other (Nat.ne_of_lt (Nat.lt_of_lt_of_le low located.range.1))⟩
        refine ⟨?_, ?_, ?_, ?_, (located.frame.trans unchanged).trans appended.frame⟩
        · rw [appended.addrs, located.addrs]
        · rw [appended.size, List.length_drop]
          omega
        · rw [← all]
          exact appended.layout
        · rw [← all]
          exact appended.fit
      · have more := (partly full).room
        rw [needed_round small below nonempty] at more
        omega

end Loop

end Xv6.Mkfs
