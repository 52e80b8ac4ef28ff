/-
This file proves that the records of the disk are read back as they were written: inodes and the entries of a
directory. It gives the block of each index of a file.
-/

import Xv6.Kernel.BlockFs

namespace Xv6.OnDisk

open Bytes

/-- The image in which a range of a block is replaced. -/
def filled (img : Blocks) (b start len : Nat) (source : ByteMap) : Blocks :=
  Function.update img b (overlay start len source (img b))

theorem filled_self (img : Blocks) (b start len : Nat) (source : ByteMap) :
    filled img b start len source b = overlay start len source (img b) :=
  Function.update_self ..

theorem filled_other {img : Blocks} {b start len : Nat} {source : ByteMap} {c : Nat} (other : c ≠ b) :
    filled img b start len source c = img c :=
  Function.update_of_ne other _ _

section Inodes

variable {d : Dinode} {m source : ByteMap} {start : Nat}

theorem dinode_eq {a b : Dinode} (type : a.type = b.type) (major : a.major = b.major) (minor : a.minor = b.minor)
    (nlink : a.nlink = b.nlink) (size : a.size = b.size) (addrs : ∀ i, a.addrs i = b.addrs i) : a = b := by
  obtain ⟨_, _, _, _, _, first⟩ := a
  obtain ⟨_, _, _, _, _, second⟩ := b
  have same : first = second := funext addrs
  subst type major minor nlink size same
  rfl

/-- An inode that was written is read back. -/
theorem dinodeAt_inside (d : Dinode) (m : ByteMap) (start : Nat) :
    dinodeAt (overlay start dinodeSize (dinodeByte d) m) start = d := by
  have field {n : Nat} (place : Nat) (inside : place + n ≤ dinodeSize) (v : BitVec (8 * n))
      (bytes : ∀ i, i < n → dinodeByte d (place + i) = octet v i) :
      load n (overlay start dinodeSize (dinodeByte d) m) (start + place) = v := by
    rw [load_inside inside]
    exact load_bytes v bytes
  apply dinode_eq
  · exact field (n := 2) 0 (by decide) d.type fun i below => by simp only [dinodeByte]; rw [if_pos (by omega), Nat.zero_add]
  · exact field (n := 2) 2 (by decide) d.major fun i below => by
      simp only [dinodeByte]
      rw [if_neg (by omega), if_pos (by omega), Nat.add_sub_cancel_left]
  · exact field (n := 2) 4 (by decide) d.minor fun i below => by
      simp only [dinodeByte]
      rw [if_neg (by omega), if_neg (by omega), if_pos (by omega), Nat.add_sub_cancel_left]
  · exact field (n := 2) 6 (by decide) d.nlink fun i below => by
      simp only [dinodeByte]
      rw [if_neg (by omega), if_neg (by omega), if_neg (by omega), if_pos (by omega), Nat.add_sub_cancel_left]
  · exact field (n := 4) 8 (by decide) d.size fun i below => by
      simp only [dinodeByte]
      rw [if_neg (by omega), if_neg (by omega), if_neg (by omega), if_neg (by omega), if_pos (by omega),
        Nat.add_sub_cancel_left]
  · intro k
    have small : k.val < 13 := k.isLt
    show load 4 _ (start + 12 + 4 * k.val) = _
    rw [Nat.add_assoc]
    refine field (n := 4) (12 + 4 * k.val) (by show _ ≤ 64; omega) (d.addrs k) fun i below => ?_
    have quotient : (12 + 4 * k.val + i - 12) / 4 = k.val := by omega
    have remainder : (12 + 4 * k.val + i - 12) % 4 = i := by omega
    simp only [dinodeByte]
    rw [if_neg (by omega), if_neg (by omega), if_neg (by omega), if_neg (by omega), if_neg (by omega), quotient,
      remainder]
    have index : Fin.ofNat (ndirect + 1) k.val = k := Fin.ext (Nat.mod_eq_of_lt k.isLt)
    rw [index]

/-- An inode depends on its own bytes only. -/
theorem dinodeAt_congr {other : ByteMap} (same : ∀ i, i < dinodeSize → other (start + i) = m (start + i)) :
    dinodeAt other start = dinodeAt m start := by
  have field {n : Nat} (place : Nat) (inside : place + n ≤ dinodeSize) :
      load n other (start + place) = load n m (start + place) := by
    apply load_congr
    intro i below
    rw [Nat.add_assoc]
    exact same (place + i) (by omega)
  apply dinode_eq
  · exact field (n := 2) 0 (by decide)
  · exact field (n := 2) 2 (by decide)
  · exact field (n := 2) 4 (by decide)
  · exact field (n := 2) 6 (by decide)
  · exact field (n := 4) 8 (by decide)
  · intro k
    have small : k.val < 13 := k.isLt
    show load 4 _ (start + 12 + 4 * k.val) = load 4 _ (start + 12 + 4 * k.val)
    rw [Nat.add_assoc]
    exact field (n := 4) (12 + 4 * k.val) (by show _ ≤ 64; omega)

/-- The image in which an inode is written. -/
def written (sb : DiskSuperblock) (img : Blocks) (k : Nat) (d : Dinode) : Blocks :=
  filled img (sb.iblock k) (dinodeStart k) dinodeSize (dinodeByte d)

/-- A written inode changes no other inode. -/
theorem dinode_written (sb : DiskSuperblock) (img : Blocks) (k : Nat) (d : Dinode) (j : Nat) :
    dinode sb (written sb img k d) j = if j = k then d else dinode sb img j := by
  by_cases same : j = k
  · rw [if_pos same, same, dinode, written, filled_self]
    exact dinodeAt_inside _ _ _
  rw [if_neg same, dinode, dinode]
  by_cases block : sb.iblock j = sb.iblock k
  · apply dinodeAt_congr
    intro i below
    rw [written, block, filled_self]
    apply overlay_outside
    have slots : j % 16 ≠ k % 16 := by
      have blocks : j / 16 + sb.inodestart.toNat = k / 16 + sb.inodestart.toNat := block
      omega
    show j % 16 * 64 + i < k % 16 * 64 ∨ k % 16 * 64 + 64 ≤ j % 16 * 64 + i
    have bound : i < 64 := below
    omega
  · rw [written, filled_other block]

end Inodes

section Entries

variable {inum : BitVec 16} {name : List Byte}

theorem direntBytes_length (inum : BitVec 16) (name : List Byte) : (direntBytes inum name).length = direntSize := by
  simp only [direntBytes, List.length_append, List.length_cons, List.length_nil, List.length_take, List.length_replicate]
  show 0 + 1 + 1 + min 14 name.length + (14 - name.length) = 16
  omega

theorem direntBytes_inum (inum : BitVec 16) (name : List Byte) : load 2 (ofList (direntBytes inum name)) 0 = inum := by
  apply load_bytes
  intro i below
  have cases' : i = 0 ∨ i = 1 := by omega
  rcases cases' with rfl | rfl
  · rfl
  · rfl

theorem direntBytes_name (inum : BitVec 16) (name : List Byte) :
    (direntBytes inum name).drop 2 = name.take dirsiz ++ List.replicate (dirsiz - name.length) 0 := by
  simp [direntBytes]

open BlockFs in
/-- Two strings are the same for `strncmp` when their first bytes are. -/
theorem sameString_iff (n : Nat) {p q : List Byte} (plain : 0 ∉ p) (other : 0 ∉ q) (fill : Nat) :
    sameString n p (q.take n ++ List.replicate fill 0) = true ↔ p.take n = q.take n := by
  induction n generalizing p q fill with
  | zero => simp [sameString]
  | succ n ih =>
      cases p with
      | nil =>
          cases q with
          | nil =>
              cases fill with
              | zero => simp [sameString]
              | succ fill => simp [sameString, List.replicate_succ]
          | cons b q =>
              have nonzero : ¬ 0#8 = b := fun zero => other (by simp [← zero])
              simp [sameString, nonzero]
      | cons a p =>
          have nonzero : ¬ a = 0#8 := fun zero => plain (by simp [zero])
          cases q with
          | nil =>
              cases fill with
              | zero => simp [sameString, nonzero]
              | succ fill => simp [sameString, List.replicate_succ, nonzero]
          | cons b q =>
              have rest := ih (p := p) (q := q) (fun inside => plain (List.mem_cons_of_mem _ inside))
                (fun inside => other (List.mem_cons_of_mem _ inside)) fill
              by_cases same : a = b
              · rw [same] at nonzero
                simpa [sameString, same, nonzero] using rest
              · simp [sameString, same]

/-- A name matches the entry of a name with the same first bytes. -/
theorem sameName_iff {stored : List Byte} (plain : 0 ∉ name) (other : 0 ∉ stored) :
    BlockFs.sameName name ((direntBytes inum stored).drop 2) = true ↔ name.take dirsiz = stored.take dirsiz := by
  rw [direntBytes_name]
  exact sameString_iff dirsiz plain other _

end Entries

/-- The addresses of an inode. -/
abbrev Addrs := Fin (ndirect + 1) → Uint

/-- The block of an index of a file. The last index stands for the indirect block itself. -/
def slotBlock (img : Blocks) (a : Addrs) (n : Nat) : Uint :=
  if direct : n < ndirect then a ⟨n, Nat.lt_succ_of_lt direct⟩
  else if n = maxfile then a (Fin.last ndirect)
  else if a (Fin.last ndirect) = 0 then 0
  else indirectAt (img (a (Fin.last ndirect)).toNat) (n - ndirect)

section Slots

variable {img : Blocks} {a : Addrs} {n : Nat}

theorem slotBlock_direct (direct : n < ndirect) : slotBlock img a n = a ⟨n, Nat.lt_succ_of_lt direct⟩ := dif_pos direct

theorem slotBlock_last : slotBlock img a maxfile = a (Fin.last ndirect) := by
  rw [slotBlock, dif_neg (by decide), if_pos rfl]

theorem slotBlock_indirect (low : ndirect ≤ n) (high : n < maxfile) (occupied : a (Fin.last ndirect) ≠ 0) :
    slotBlock img a n = indirectAt (img (a (Fin.last ndirect)).toNat) (n - ndirect) := by
  rw [slotBlock, dif_neg (Nat.not_lt.mpr low), if_neg (Nat.ne_of_lt high), if_neg occupied]

theorem slotBlock_none (low : ndirect ≤ n) (none : a (Fin.last ndirect) = 0) : slotBlock img a n = 0 := by
  rw [slotBlock, dif_neg (Nat.not_lt.mpr low), none]
  simp

/-- An inode without addresses has no blocks. -/
theorem slotBlock_zero : slotBlock img (fun _ => 0) n = 0 := by
  by_cases direct : n < ndirect
  · rw [slotBlock_direct direct]
  · exact slotBlock_none (Nat.not_lt.mp direct) rfl

/-- The blocks of a file depend on its addresses and its indirect block. -/
theorem slotBlock_congr {other : Blocks}
    (same : a (Fin.last ndirect) ≠ 0 → ∀ i, i < bsize → other (a (Fin.last ndirect)).toNat i = img (a (Fin.last ndirect)).toNat i)
    (inside : n ≤ maxfile) : slotBlock other a n = slotBlock img a n := by
  by_cases direct : n < ndirect
  · rw [slotBlock_direct direct, slotBlock_direct direct]
  by_cases last : n = maxfile
  · rw [last, slotBlock_last, slotBlock_last]
  by_cases none : a (Fin.last ndirect) = 0
  · rw [slotBlock_none (Nat.not_lt.mp direct) none, slotBlock_none (Nat.not_lt.mp direct) none]
  have high : n < maxfile := Nat.lt_of_le_of_ne inside last
  rw [slotBlock_indirect (Nat.not_lt.mp direct) high none, slotBlock_indirect (Nat.not_lt.mp direct) high none]
  apply load_congr
  intro i below
  apply same none
  have bound : n < 268 := high
  show 4 * (n - 12) + i < 1024
  omega

/-- A direct address is set. -/
theorem slotBlock_set_direct (direct : n < ndirect) (b : Uint) (m : Nat) :
    slotBlock img (Function.update a ⟨n, Nat.lt_succ_of_lt direct⟩ b) m = if m = n then b else slotBlock img a m := by
  have lastSame : Function.update a ⟨n, Nat.lt_succ_of_lt direct⟩ b (Fin.last ndirect) = a (Fin.last ndirect) := by
    apply Function.update_of_ne
    intro equal
    have value : ndirect = n := congrArg Fin.val equal
    omega
  by_cases low : m < ndirect
  · rw [slotBlock_direct low, slotBlock_direct low]
    by_cases same : m = n
    · rw [if_pos same]
      subst same
      exact Function.update_self ..
    · rw [if_neg same]
      apply Function.update_of_ne
      intro equal
      exact same (congrArg Fin.val equal)
  · have other : m ≠ n := by omega
    rw [if_neg other, slotBlock, slotBlock, dif_neg low, dif_neg low, lastSame]

/-- The address of an empty indirect block is set. -/
theorem slotBlock_set_last {b : Uint} (none : a (Fin.last ndirect) = 0) (zero : ∀ i, i < bsize → img b.toNat i = 0)
    {m : Nat} (high : m ≤ maxfile) :
    slotBlock img (Function.update a (Fin.last ndirect) b) m = if m = maxfile then b else slotBlock img a m := by
  by_cases low : m < ndirect
  · have other : m ≠ maxfile := Nat.ne_of_lt (Nat.lt_of_lt_of_le low (by decide))
    rw [slotBlock_direct low, slotBlock_direct low, if_neg other]
    apply Function.update_of_ne
    intro equal
    have value : m = ndirect := congrArg Fin.val equal
    omega
  by_cases last : m = maxfile
  · rw [if_pos last, last, slotBlock_last, Function.update_self]
  · rw [if_neg last, slotBlock_none (Nat.not_lt.mp low) none]
    by_cases absent : Function.update a (Fin.last ndirect) b (Fin.last ndirect) = 0
    · exact slotBlock_none (Nat.not_lt.mp low) absent
    · rw [slotBlock_indirect (Nat.not_lt.mp low) (Nat.lt_of_le_of_ne high last) absent, Function.update_self]
      apply load_zero
      intro i below
      apply zero
      have bound : m ≤ 268 := high
      have differs : m ≠ 268 := last
      show 4 * (m - 12) + i < 1024
      omega

/-- An entry of the indirect block is set. -/
theorem slotBlock_set_entry (low : ndirect ≤ n) (high : n < maxfile) (occupied : a (Fin.last ndirect) ≠ 0) (b : Uint)
    {m : Nat} (inside : m ≤ maxfile) :
    slotBlock (filled img (a (Fin.last ndirect)).toNat (4 * (n - ndirect)) 4 (octet b)) a m =
      if m = n then b else slotBlock img a m := by
  by_cases direct : m < ndirect
  · have other : m ≠ n := by omega
    rw [slotBlock_direct direct, slotBlock_direct direct, if_neg other]
  by_cases last : m = maxfile
  · have other : maxfile ≠ n := Nat.ne_of_gt high
    rw [last, slotBlock_last, slotBlock_last, if_neg other]
  have inner : m < maxfile := Nat.lt_of_le_of_ne inside last
  rw [slotBlock_indirect (Nat.not_lt.mp direct) inner occupied, slotBlock_indirect (Nat.not_lt.mp direct) inner occupied,
    filled_self]
  by_cases equal : m = n
  · rw [if_pos equal, equal]
    exact load_bytes (n := 4) b fun i below => overlay_inside below
  · rw [if_neg equal]
    apply load_outside
    omega

end Slots

end Xv6.OnDisk
