/-
This file connects two models of the file system. The bytes of an open file are those of its blocks, and the inodes by
their numbers are the entries of the inode table.
-/

import Xv6.Kernel.BlockCalls
import Xv6.Proof.BlockFs.Write
import Xv6.Proof.Inode.Count

namespace Xv6.BlockFs
open OnDisk Program
open Contents (roundSize)

variable {sb : DiskSuperblock} {v : Volume} {src : Source} {k : Nat} {off n : Uint}

/-- The contents are those of a file on the disk. -/
structure Shows (sb : DiskSuperblock) (img : Blocks) (k : Nat) (c : Contents) : Prop where
  size : c.size = (dinode sb img k).size
  data : ∀ i, i < maxfile * bsize → c.data i = cell sb img (dinode sb img) (k, i / bsize) (i % bsize)

/-- The user's side of a write that reports some bytes and may copy more. -/
def Source.range (src : Source) (tot extra : Nat) : UserRange :=
  ⟨src.byte, fun i => if i < tot then .done else .fault extra⟩

theorem fill_get (c : Contents) (byte : Nat → Byte) (off a m i : Nat) :
    (c.fill (off + a) m fun j => byte (a + j)).data i =
      if off + a ≤ i ∧ i < off + (a + m) then byte (i - off) else c.data i := by
  show (if off + a ≤ i ∧ i < off + a + m then byte (a + (i - (off + a))) else c.data i) = _
  rw [Nat.add_assoc]
  split_ifs
  · congr 1
    omega
  · rfl

/-- The loop on the bytes of a file ends where the loop on its blocks has ended. -/
theorem contents_writeLoop (src : Source) {off n tot extra : Nat} (most : tot ≤ n)
    (aligned : tot < n → tot = 0 ∨ (off + tot) % bsize = 0)
    (ends : extra ≠ 0 → tot + extra < n ∧ (off + tot) % bsize + extra < bsize) (fuel a : Nat) (c : Contents)
    (enough : n - a ≤ fuel) (below : a ≤ tot) :
    ∃ d, Contents.writeLoop (src.range tot extra) n off fuel a c = (d, tot) ∧ d.size = c.size ∧
      ∀ i, d.data i = if off + a ≤ i ∧ i < off + (tot + extra) then src.byte (i - off) else c.data i := by
  have block : bsize = 1024 := rfl
  rw [block] at aligned ends
  induction fuel generalizing a c with
  | zero =>
      obtain rfl : a = tot := by omega
      exact ⟨c, rfl, rfl, fun i => (if_neg (by omega)).symm⟩
  | succ fuel ih =>
      have round : roundSize n off a = min (n - a) (1024 - (off + a) % 1024) := rfl
      by_cases more : a < n
      · rw [Contents.writeLoop, if_pos more]
        by_cases before : a < tot
        · obtain ⟨d, ran, size, data⟩ := ih (a + roundSize n off a)
            ((c.fill (off + a) (roundSize n off a) fun j => src.byte (a + j)).logWrite (off + a)) (by omega) (by omega)
          refine ⟨d, by simpa only [Source.range, if_pos before] using ran, size, fun i => ?_⟩
          rw [data]
          show (if _ then _ else (c.fill (off + a) (roundSize n off a) fun j => src.byte (a + j)).data i) = _
          rw [fill_get]
          split_ifs <;> first | rfl | omega
        · obtain rfl : a = tot := by omega
          have least : min extra (roundSize n off a) = extra := by omega
          refine ⟨c.fill (off + a) extra fun j => src.byte (a + j), ?_, rfl, fill_get c src.byte off a extra⟩
          simp only [Source.range, if_neg before, least]
      · obtain rfl : a = tot := by omega
        exact ⟨c, by rw [Contents.writeLoop, if_neg more], rfl, fun i => (if_neg (by omega)).symm⟩

/-- `writei` on the blocks does what `writei` on the bytes does. -/
theorem writei_shows {c : Contents} {stop : Panic → Prop} (geometry : Geometry sb)
    (sound : Sound sb v.img (dinode sb v.img)) (small : k < sb.ninodes.toNat)
    (file : Whole sb v.img (dinode sb v.img) k) (typed : (dinode sb v.img k).type ≠ 0) (before : Shows sb v.img k c) :
    Ensures (writei sb k src (dinode sb v.img k) off n) v
      (fun r t => ∃ user : UserRange, user.byte = src.byte ∧
        (c.writei user off n).2 = r.1.elim (-1) (fun tot => (tot : Int)) ∧
        Shows sb t.img k (c.writei user off n).1) stop := by
  have refused := refused_iff off n (sound.small k small)
  rw [← before.size] at refused
  refine (writei_spec geometry sound small file typed).mono (fun r t after => ?_) (fun _ stopped => stopped)
  rw [← before.size] at after
  split_ifs at after with legal
  · obtain ⟨valid, room⟩ := not_or.mp (refused.not.mpr (not_not.mpr legal))
    obtain ⟨tot, count, replaced⟩ := after
    obtain ⟨extra, spliced, rest⟩ := replaced.partly
    obtain ⟨d, ran, size, data⟩ := contents_writeLoop src replaced.most rest.aligned
      (fun more => (rest.ends more).2) n.toNat 0 c (Nat.sub_le _ _) (Nat.zero_le _)
    refine ⟨src.range tot extra, rfl, ?_⟩
    rw [Contents.writei, if_neg valid, if_neg room, ran, count]
    refine ⟨rfl, ?_, fun i inside => ?_⟩
    · have length := spliced.size
      have bound : off.toNat + n.toNat ≤ 268 * 1024 := legal.2
      have most := replaced.most
      apply BitVec.eq_of_toNat_eq
      rw [length, ← before.size]
      dsimp only
      rw [size]
      split_ifs with longer
      · rw [BitVec.toNat_ofNat]
        omega
      · omega
    · have index : i / bsize < maxfile := Nat.div_lt_of_lt_mul ((Nat.mul_comm _ _).trans_gt inside)
      show d.data i = _
      rw [data, before.data i inside, spliced.cells _ index _ (Nat.mod_lt _ (by decide)), Nat.div_add_mod']
      exact if_congr (by simp) rfl rfl
  · obtain ⟨rfl, rfl⟩ := after
    refine ⟨src.range 0 0, rfl, ?_⟩
    have same : c.writei (src.range 0 0) off n = (c, -1) := by
      rw [Contents.writei]
      split_ifs with invalid long
      · rfl
      · rfl
      · exact absurd (refused.mpr legal) (not_or.mpr ⟨invalid, long⟩)
    rw [same]
    exact ⟨rfl, before⟩

end Xv6.BlockFs

namespace Xv6.BlockCalls
open OnDisk Program
open Inodes (Unique iget_cases setInode_inode)

variable {s u : Itable} {dev : Uint} {m m' : Mounted} {k : Nat} {e : InodeIndex} {ip : Inode}

/-- The key of an inode of the only disk. -/
def keyOf (dev : Uint) (k : Nat) : InodeKey := (dev, BitVec.ofNat 32 k)

theorem keyOf_inj {j : Nat} (small : k < 65536) (small' : j < 65536) (same : keyOf dev k = keyOf dev j) : k = j := by
  have numbers := congrArg BitVec.toNat (Prod.mk.inj same).2
  rw [BitVec.toNat_ofNat, BitVec.toNat_ofNat] at numbers
  omega

/-- The table by numbers has the fields of an entry. -/
structure Matches (ip : Inode) (m : Mounted) (k : Nat) : Prop where
  ref : m.ref k = ip.ref
  valid : m.valid k = ip.valid
  copy : ip.valid = true → m.copy k = ip.copy

/-- The table by numbers has the entries that are in use. -/
structure Tabled (s : Itable) (dev : Uint) (m : Mounted) : Prop where
  unique : Unique s
  entry : ∀ e, 0 < (s.inode e).ref → ∃ k, k < 65536 ∧ (s.inode e).key = keyOf dev k ∧ Matches (s.inode e) m k
  number : ∀ k, k < 65536 → m.ref k ≠ 0 → ∃ e, 0 < (s.inode e).ref ∧ (s.inode e).key = keyOf dev k

theorem Tabled.found (tabled : Tabled s dev m) (small : k < 65536) (used : 0 < (s.inode e).ref)
    (key : (s.inode e).key = keyOf dev k) : Matches (s.inode e) m k := by
  obtain ⟨j, inside, key', found⟩ := tabled.entry e used
  obtain rfl := keyOf_inj small inside (key.symm.trans key')
  exact found

/-- A change of one inode in both tables. A new inode gets a free entry. -/
theorem Tabled.store (tabled : Tabled s dev m) (small : k < 65536)
    (inode : ∀ c, u.inode c = if c = e then ip else s.inode c)
    (rows : ∀ j, j ≠ k → m'.ref j = m.ref j ∧ m'.valid j = m.valid j ∧ m'.copy j = m.copy j)
    (key : ip.key = keyOf dev k) (used : 0 < ip.ref) (mine : Matches ip m' k)
    (place : 0 < (s.inode e).ref ∧ (s.inode e).key = keyOf dev k ∨ (s.inode e).ref = 0 ∧ m.ref k = 0) :
    Tabled u dev m' := by
  have own : u.inode e = ip := by rw [inode, if_pos rfl]
  have other {c : InodeIndex} (here : c ≠ e) : u.inode c = s.inode c := by rw [inode, if_neg here]
  have away {c : InodeIndex} (here : c ≠ e) (busy : 0 < (s.inode c).ref) : (s.inode c).key ≠ keyOf dev k := by
    intro same
    rcases place with ⟨old, name⟩ | ⟨_, none⟩
    · exact here (tabled.unique c e busy old (same.trans name.symm))
    · have count := (tabled.found small busy same).ref
      omega
  refine ⟨fun a c usedA usedC same => ?_, fun c busy => ?_, fun j inside busy => ?_⟩
  · by_cases hereA : a = e
    · by_cases hereC : c = e
      · exact hereA.trans hereC.symm
      · rw [hereA, own, other hereC, key] at same
        rw [other hereC] at usedC
        exact absurd same.symm (away hereC usedC)
    · rw [other hereA] at usedA same
      by_cases hereC : c = e
      · rw [hereC, own, key] at same
        exact absurd same (away hereA usedA)
      · rw [other hereC] at usedC same
        exact tabled.unique a c usedA usedC same
  · by_cases here : c = e
    · rw [here, own]
      exact ⟨k, small, key, mine⟩
    · rw [other here] at busy ⊢
      obtain ⟨j, inside, name, found⟩ := tabled.entry c busy
      have apart : j ≠ k := fun same => away here busy (same ▸ name)
      obtain ⟨ref, valid, copy⟩ := rows j apart
      exact ⟨j, inside, name, ref.trans found.ref, valid.trans found.valid, fun read => copy.trans (found.copy read)⟩
  · by_cases here : j = k
    · exact ⟨e, by rwa [own], by rw [own, key, here]⟩
    · rw [(rows j here).1] at busy
      obtain ⟨c, taken, name⟩ := tabled.number j inside busy
      have apart : c ≠ e := by
        rintro rfl
        rcases place with ⟨_, name'⟩ | ⟨free, _⟩
        · exact here (keyOf_inj inside small (name.symm.trans name'))
        · omega
      exact ⟨c, by rwa [other apart], by rwa [other apart]⟩

theorem Tabled.inUse_eq (tabled : Tabled s dev m) :
    m.inUse = (Finset.univ.filter fun e => 0 < (s.inode e).ref).card := by
  have number {e : InodeIndex} (used : 0 < (s.inode e).ref) : ∃ k, k < 65536 ∧ (s.inode e).key = keyOf dev k ∧
      (s.inode e).key.2.toNat = k ∧ m.ref k = (s.inode e).ref := by
    obtain ⟨k, small, key, found⟩ := tabled.entry e used
    refine ⟨k, small, key, ?_, found.ref⟩
    rw [key, keyOf, BitVec.toNat_ofNat]
    omega
  refine (Finset.card_bij (fun e _ => (s.inode e).key.2.toNat) (fun e used => ?_) (fun a usedA c usedC same => ?_)
    fun k busy => ?_).symm
  · rw [Finset.mem_filter] at used
    obtain ⟨k, small, _, value, count⟩ := number used.2
    rw [Finset.mem_filter, Finset.mem_range, value]
    omega
  · rw [Finset.mem_filter] at usedA usedC
    obtain ⟨j, _, keyA, valueA, _⟩ := number usedA.2
    obtain ⟨k, _, keyC, valueC, _⟩ := number usedC.2
    refine tabled.unique a c usedA.2 usedC.2 ?_
    rw [keyA, keyC, ← valueA, ← valueC, same]
  · rw [Finset.mem_filter, Finset.mem_range] at busy
    obtain ⟨e, used, key⟩ := tabled.number k busy.1 busy.2
    obtain ⟨j, small, key', value, _⟩ := number used
    refine ⟨e, Finset.mem_filter.mpr ⟨Finset.mem_univ e, used⟩, ?_⟩
    rw [value, keyOf_inj busy.1 small (key.symm.trans key')]

/-- The table by numbers is full when every entry is in use. -/
theorem Tabled.full_iff (tabled : Tabled s dev m) : ninode ≤ m.inUse ↔ ∀ e, 0 < (s.inode e).ref := by
  have most := Finset.card_filter_le (Finset.univ : Finset InodeIndex) fun e => 0 < (s.inode e).ref
  have all : (Finset.univ : Finset InodeIndex).card = ninode := by simp
  rw [tabled.inUse_eq]
  constructor
  · intro full e
    exact Finset.filter_card_eq (Nat.le_antisymm most (by omega)) e (Finset.mem_univ e)
  · intro full
    rw [Finset.filter_true_of_mem fun e _ => full e]
    exact all.ge

/-- `iget` by numbers does what `iget` does to the table, and panics when it does. -/
theorem iget_tabled (tabled : Tabled s dev m) (small : k < 65536) (t : Slot) (r : Reference)
    (pc : InodeIndex → InodePc) :
    Ensures (iget k) m
      (fun _ m' => Tabled (s.iget t (keyOf dev k) r pc) dev m' ∧ (s.iget t (keyOf dev k) r pc).panic = s.panic)
      (fun stop => stop = .igetNoInodes ∧ (s.iget t (keyOf dev k) r pc).panic = some .iget) := by
  simp only [iget, ensures_bind, ensures_get, ensures_ite, ensures_throw, ensures_modify]
  have absent (missing : ∀ c, 0 < (s.inode c).ref → (s.inode c).key ≠ keyOf dev k) : m.ref k = 0 := by
    by_contra busy
    obtain ⟨c, used, key⟩ := tabled.number k small busy
    exact missing c used key
  rcases iget_cases t (keyOf dev k) r pc with ⟨e, ip, gets, same⟩ | ⟨full, same⟩
  · rw [same]
    cases gets with
    | hit used key =>
        have found := tabled.found small used key
        have busy : m.ref k ≠ 0 := by
          rw [found.ref]
          omega
        refine ⟨fun none => absurd none busy, fun _ => ⟨?_, rfl⟩⟩
        refine tabled.store small (fun _ => setInode_inode ..)
          (fun j other => by simp [Mounted.setRef, other]) key (Nat.succ_pos _) ?_ (.inl ⟨used, key⟩)
        exact ⟨by simp [Mounted.setRef, found.ref], found.valid, found.copy⟩
    | new missing zero =>
        have none := absent missing
        refine ⟨fun _ => ⟨fun full => ?_, fun _ => ⟨?_, rfl⟩⟩, fun busy => absurd none busy⟩
        · have used := tabled.full_iff.mp full e
          omega
        · refine tabled.store small (fun _ => setInode_inode ..)
            (fun j other => by simp [Mounted.setRef, Mounted.setValid, other]) rfl Nat.one_pos ?_ (.inr ⟨zero, none⟩)
          exact ⟨by simp [Mounted.setRef], by simp [Mounted.setRef, Mounted.setValid],
            fun read => absurd read Bool.false_ne_true⟩
  · rw [same]
    have none := absent fun c _ => (full c).2
    have every := tabled.full_iff.mpr fun c => (full c).1
    exact ⟨fun _ => ⟨fun _ => ⟨trivial, rfl⟩, fun room => absurd every room⟩, fun busy => absurd none busy⟩

/-- `ilock` of an inode that is not locked does the same to both tables, and panics in both. -/
theorem ilock_tabled {sb : DiskSuperblock} {t : Slot} {r : Reference} {new : Bool} (tabled : Tabled s dev m)
    (small : k < 65536) (position : s.pc t = .call (.lock new) r e) (used : 0 < (s.inode e).ref)
    (key : (s.inode e).key = keyOf dev k) (free : (s.inode e).lock = none) (unlocked : m.locked k = false)
    (disk : s.disk (keyOf dev k) = dinode sb m.vol.img k) (ninodes : Nat) :
    ∃ u v, s.step ninodes t = some u ∧ u.step ninodes t = some v ∧ Ensures (ilock sb k) m
      (fun _ m' => Tabled v dev m' ∧ (v.inode e).lock = some (t, r) ∧ m'.locked k = true ∧ v.panic = s.panic)
      (fun stop => stop = .ilockNoType ∧ v.panic = some .ilockNoType) := by
  have found := tabled.found small used key
  have busy : ¬ m.ref k < 1 := by
    rw [found.ref]
    omega
  have first : s.step ninodes t =
      some ((s.setInode e { s.inode e with lock := some (t, r) }).goto t (.call (.load new) r e)) := by
    simp only [Itable.step, position, if_pos free]
  simp only [ilock, ensures_bind, ensures_get, if_neg busy, unlocked, found.valid]
  by_cases valid : (s.inode e).valid = true
  · refine ⟨_, (s.setInode e { s.inode e with lock := some (t, r) }).goto t .idle, first, ?_, ?_⟩
    · simp [Itable.step, valid, Itable.goto, Itable.setInode]
    · rw [if_neg Bool.false_ne_true, if_pos valid, ensures_modify]
      refine ⟨tabled.store small (fun _ => setInode_inode ..) (fun _ _ => ⟨rfl, rfl, rfl⟩) key used ?_ (.inl ⟨used, key⟩),
        by simp, by simp [Mounted.setLocked], rfl⟩
      exact ⟨found.ref, found.valid, found.copy⟩
  simp only [if_neg Bool.false_ne_true, if_neg valid]
  by_cases typeless : (dinode sb m.vol.img k).type = 0
  · simp only [if_pos typeless, ensures_throw]
    exact ⟨_, _, first, by simp [Itable.step, valid, key, disk, typeless]; rfl, trivial, rfl⟩
  · simp only [if_neg typeless, ensures_modify]
    have typed : ¬ (dinode sb m.vol.img k).type = 0#16 := typeless
    refine ⟨_, (s.setInode e ⟨(s.inode e).key, (s.inode e).ref, some (t, r), true, dinode sb m.vol.img k,
      (s.inode e).dirty⟩).goto t .idle, first, ?_, tabled.store small (fun _ => setInode_inode ..) (fun j other => ?_) key
      used ?_ (.inl ⟨used, key⟩), by simp, by simp [Mounted.setLocked], rfl⟩
    · simp [Itable.step, valid, key, disk, typed, Itable.goto, Itable.setInode]
    · simp [Mounted.setLocked, Mounted.setValid, Mounted.setCopy, other]
    · exact ⟨found.ref, by simp [Mounted.setLocked, Mounted.setValid], fun _ => by
        simp [Mounted.setLocked, Mounted.setValid, Mounted.setCopy]⟩

end Xv6.BlockCalls
