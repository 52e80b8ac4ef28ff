/-
This file proves that the image of `mkfs` satisfies the invariant of the kernel exactly when the root directory does
not fill its last block and there are inodes for all files.
-/

import Xv6.Proof.Mkfs.Files

namespace Xv6.Mkfs

open Bytes OnDisk Program

/-- The invariant of the file system for an image whose inodes and blocks are in use up to two counters. -/
structure Consistent (sb : DiskSuperblock) (img : Blocks) (freeinode freeblock : Nat) : Prop where
  super : DiskSuperblock.ofBytes (img 1) = sb
  magic : sb.magic = fsmagic
  inums : ∀ k, 1 ≤ k → k < freeinode → k < sb.ninodes.toNat ∧ (dinode sb img k).type ≠ 0
  unused : ∀ k, k < sb.ninodes.toNat → (dinode sb img k).type ≠ 0 → 1 ≤ k ∧ k < freeinode
  inodes : ∀ k, k < sb.ninodes.toNat → sb.inodestart.toNat ≤ sb.iblock k ∧ sb.iblock k < sb.bmapstart.toNat
  maps : ∀ b, b < sb.size.toNat → sb.bmapstart.toNat ≤ sb.bblock b ∧ sb.bblock b + sb.nblocks.toNat < sb.size.toNat
  bitmap : ∀ b, b < sb.size.toNat → (BlockFs.bitOf sb img b = true ↔ b < freeblock)
  mapped : ∀ k n, k < sb.ninodes.toNat → n * bsize < (dinode sb img k).size.toNat →
    n < maxfile ∧ slotBlock img (dinode sb img k).addrs n ≠ 0
  blocks : ∀ k n, k < sb.ninodes.toNat → n ≤ maxfile → slotBlock img (dinode sb img k).addrs n ≠ 0 →
    sb.size.toNat ≤ (slotBlock img (dinode sb img k).addrs n).toNat + sb.nblocks.toNat ∧
      (slotBlock img (dinode sb img k).addrs n).toNat < freeblock
  room : freeblock ≤ sb.size.toNat
  apart : ∀ k n j m, k < sb.ninodes.toNat → j < sb.ninodes.toNat → n ≤ maxfile → m ≤ maxfile →
    slotBlock img (dinode sb img k).addrs n ≠ 0 →
    slotBlock img (dinode sb img k).addrs n = slotBlock img (dinode sb img j).addrs m → k = j ∧ n = m

section Images

variable {files : List HostFile} {s : State}

/-- The root directory has a block for each index below its rounded size. -/
theorem rounded_occupied (ragged : (files.length + 2) % 64 ≠ 0) {n : Nat} (inside : n * bsize < roundedSize files) :
    n * bsize < (rootBytes files).length := by
  rw [roundedSize, rootBytes_length] at inside
  rw [rootBytes_length]
  have bound : n * 1024 < ((files.length + 2) * 16 / 1024 + 1) * 1024 := inside
  show n * 1024 < (files.length + 2) * 16
  omega

theorem Final.occupied (final : Final files s) (ragged : (files.length + 2) % 64 ≠ 0) {k n : Nat} (small : k < ninodes)
    (inside : n * bsize < (dinode sb s.img k).size.toNat) : n * bsize < (dataOf files k).length := by
  by_cases root : k = 1
  · subst root
    rw [final.root] at inside
    exact rounded_occupied ragged inside
  · rwa [final.size k small root] at inside

theorem Final.consistent (final : Final files s) (few : files.length + 2 ≤ ninodes) (ragged : (files.length + 2) % 64 ≠ 0) :
    Consistent sb s.img s.freeinode s.freeblock := by
  have layout := final.layout
  have count : s.freeblock ≤ fssize := by
    rw [layout.count]
    exact final.fit.room
  have used {k n : Nat} (small : k < ninodes) (high : n ≤ maxfile) (named : slotBlock s.img (dinode sb s.img k).addrs n ≠ 0) :
      (k, n) ∈ needed (dataOf files) := (layout.present k n small high).mp named
  constructor
  · exact final.super
  · rfl
  · intro k positive below
    rw [final.freeinode] at below
    have small : k < ninodes := Nat.lt_of_lt_of_le below few
    refine ⟨small, ?_⟩
    rw [final.type k small, typesOf]
    by_cases root : k = 1
    · rw [if_pos root]
      decide
    · rw [if_neg root, if_pos ⟨by omega, below⟩]
      decide
  · intro k small typed
    rw [final.type k small, typesOf] at typed
    rw [final.freeinode]
    split_ifs at typed with root file
    · omega
    · omega
    · exact absurd rfl typed
  · intro k small
    rw [iblock_eq]
    have bound : k < 200 := small
    show 32 ≤ k / 16 + 32 ∧ k / 16 + 32 < 45
    omega
  · intro b small
    have bound : b < 2000 := small
    show 45 ≤ b / 8192 + 45 ∧ b / 8192 + 45 + 1954 < 2000
    omega
  · intro b small
    have bound : b < 2000 := small
    have block : sb.bblock b = sb.bmapstart.toNat := by
      show b / 8192 + 45 = 45
      omega
    have index : b % bpb = b := Nat.mod_eq_of_lt (by show b < 8192; omega)
    rw [BlockFs.bitOf, block, index, final.bitmap, markUsed_bit, decide_eq_true_eq]
  · intro k n small inside
    have occupied := final.occupied ragged small inside
    have bound := final.fit.small k small
    have high : n < maxfile := Nat.lt_of_mul_lt_mul_right (Nat.lt_of_lt_of_le occupied bound)
    refine ⟨high, (layout.present k n small (Nat.le_of_lt high)).mpr ?_⟩
    rw [mem_needed, Occupied, if_neg (Nat.ne_of_lt high)]
    exact ⟨⟨small, Nat.lt_succ_of_lt high⟩, occupied⟩
  · intro k n small high named
    have range := layout.range k n (used small high named)
    refine ⟨?_, range.2⟩
    have low : 46 ≤ (slotBlock s.img (dinode sb s.img k).addrs n).toNat := range.1
    show 2000 ≤ _ + 1954
    omega
  · exact count
  · intro k n j m first second high other named same
    refine layout.apart k n j m (used first high named) (used second other ?_) (congrArg BitVec.toNat same)
    rwa [← same]

/-- A root directory that fills its last block has no block for the last index below its rounded size. -/
theorem Final.hole (final : Final files s) (full : (files.length + 2) % 64 = 0) :
    ¬ Consistent sb s.img s.freeinode s.freeblock := by
  intro consistent
  have blocks : (rootBytes files).length = (files.length + 2) / 64 * bsize := by
    rw [rootBytes_length]
    show (files.length + 2) * 16 = (files.length + 2) / 64 * 1024
    omega
  have inside : (files.length + 2) / 64 * bsize < (dinode sb s.img 1).size.toNat := by
    rw [final.root, roundedSize, blocks]
    show (files.length + 2) / 64 * 1024 < ((files.length + 2) / 64 * 1024 / 1024 + 1) * 1024
    omega
  obtain ⟨high, named⟩ := consistent.mapped 1 _ (by decide) inside
  have member := (final.layout.present 1 _ (by decide) (Nat.le_of_lt high)).mp named
  rw [mem_needed, Occupied, if_neg (Nat.ne_of_lt high)] at member
  have occupied : (files.length + 2) / 64 * bsize < (rootBytes files).length := member.2
  rw [blocks] at occupied
  exact Nat.lt_irrefl _ occupied

end Images

section Inodes

/-- The program takes a number of inodes, or it stops. -/
def Allots {α : Type} (p : M α) (n : Nat) : Prop :=
  ∀ s, Ensures p s (fun _ t => t.freeinode = s.freeinode + n) fun _ => True

variable {α β : Type}

theorem Allots.bind {p : M α} {f : α → M β} {m n : Nat} (first : Allots p m) (rest : ∀ a, Allots (f a) n) :
    Allots (p >>= f) (m + n) := by
  intro s
  refine (first s).bind fun a t count => (rest a t).mono (fun _ u after => ?_) fun _ _ => trivial
  rw [after, count, Nat.add_assoc]

/-- A program after one that takes no inode. -/
theorem Allots.before {p : M α} {f : α → M β} {n : Nat} (first : Allots p 0) (rest : ∀ a, Allots (f a) n) :
    Allots (p >>= f) n := by
  rw [← Nat.zero_add n]
  exact first.bind rest

theorem Allots.ite {c : Prop} [Decidable c] {p q : M α} {n : Nat} (yes : Allots p n) (no : Allots q n) :
    Allots (if c then p else q) n :=
  fun s => ensures_ite.mpr ⟨fun _ => yes s, fun _ => no s⟩

theorem allots_pure (a : α) : Allots (pure a) 0 := fun _ => rfl

theorem allots_check (condition : Bool) : Allots (check condition) 0 :=
  fun _ => (ensures_check condition).mpr ⟨fun _ => rfl, fun _ => trivial⟩

theorem allots_rsect (sec : Nat) : Allots (rsect sec) 0 :=
  fun _ => (ensures_rsect sec).mpr ⟨fun _ => rfl, fun _ => trivial⟩

theorem allots_wsect (sec : Nat) (buf : ByteMap) : Allots (wsect sec buf) 0 := fun _ => rfl

theorem allots_nextBlock : Allots nextBlock 0 := fun _ => rfl

theorem allots_rinode (inum : Nat) : Allots (rinode inum) 0 := (allots_rsect _).before fun _ => allots_pure _

theorem allots_winode (inum : Nat) (ip : Dinode) : Allots (winode inum ip) 0 :=
  (allots_rsect _).before fun _ => allots_wsect _ _

theorem allots_ialloc (type : CShort) : Allots (ialloc type) 1 := by
  intro s
  simp only [ialloc, ensures_bind, ensures_get, ensures_set]
  exact (allots_winode _ _ _).mono (fun _ t count => count) fun _ _ => trivial

theorem allots_entryFor (din : Dinode) (i : Nat) : Allots (entryFor din i) 0 :=
  (allots_rsect _).before fun _ =>
    (allots_nextBlock.before fun _ => (allots_wsect _ _).before fun _ => allots_pure _).ite (allots_pure _)

theorem allots_blockFor (din : Dinode) (fbn : Nat) : Allots (blockFor din fbn) 0 := by
  unfold blockFor
  split
  · exact (allots_nextBlock.before fun _ => allots_pure _).ite (allots_pure _)
  · exact (allots_nextBlock.before fun _ => allots_entryFor _ _).ite (allots_entryFor _ _)

theorem allots_appendLoop (rounds : Nat) (din : Dinode) (off : Nat) (p : List Byte) :
    Allots (appendLoop rounds din off p) 0 := by
  induction rounds generalizing din off p with
  | zero => exact allots_pure _
  | succ rounds ih =>
      refine (allots_pure _).ite ((allots_check _).before fun _ => (allots_blockFor _ _).before fun found => ?_)
      exact (allots_rsect _).before fun _ => (allots_wsect _ _).before fun _ => ih _ _ _

theorem allots_iappend (inum : Nat) (p : List Byte) : Allots (iappend inum p) 0 :=
  (allots_rinode _).before fun _ => (allots_appendLoop _ _ _ _).before fun _ => allots_winode _ _

theorem allots_forM {f : α → M Unit} {n : Nat} (each : ∀ a, Allots (f a) n) (l : List α) :
    Allots (l.forM f) (l.length * n) := by
  induction l with
  | nil =>
      rw [List.length_nil, Nat.zero_mul]
      exact allots_pure _
  | cons a l ih =>
      rw [List.length_cons, Nat.succ_mul, Nat.add_comm]
      exact (each a).bind fun _ => ih

/-- Each file takes an inode. -/
theorem allots_addFile (root : Nat) (f : HostFile) : Allots (addFile root f) 1 := by
  refine (allots_check _).before fun _ => ?_
  cases f.reads with
  | none => exact fun _ => trivial
  | some chunks =>
      refine (allots_ialloc _).bind (n := 0) fun inum => (allots_iappend _ _).before fun _ => ?_
      exact allots_forM (fun chunk => allots_iappend inum chunk) chunks

theorem allots_main (files : List HostFile) : Allots (main files) (1 + files.length) := by
  refine (allots_wsect _ _).before fun _ => (allots_ialloc _).bind fun root => (allots_check _).before fun _ =>
    (allots_iappend _ _).before fun _ => (allots_iappend _ _).before fun _ => ?_
  have files_allot := allots_forM (allots_addFile root) files
  rw [Nat.mul_one] at files_allot
  refine files_allot.bind (n := 0) fun _ => (allots_rinode _).before fun _ => (allots_winode _ _).before fun _ => ?_
  intro s
  rw [ensures_bind, ensures_get]
  exact (allots_check _).before (fun _ => allots_wsect _ _) s

end Inodes

/-- An image that `mkfs` finishes is consistent exactly when there are at most `NINODES - 2` files and the root
directory does not fill its last block. -/
theorem main_consistent (files : List HostFile) (s : State) (ran : (main files).run start = .ok ((), s)) :
    Consistent sb s.img s.freeinode s.freeblock ↔
      files.length + 2 ≤ ninodes ∧ (files.length + 2) % 64 ≠ 0 := by
  constructor
  · intro consistent
    have count : s.freeinode = 1 + (1 + files.length) := (allots_main files start).ok ran
    have few : files.length + 2 ≤ ninodes := by
      by_contra many
      have last := (consistent.inums ninodes (by decide) (by omega)).1
      exact absurd last (by decide)
    exact ⟨few, fun full => ((main_spec files few).ok ran).hole full consistent⟩
  · rintro ⟨few, ragged⟩
    exact ((main_spec files few).ok ran).consistent few ragged

section Examples

/-- The name of one of the files, which is a letter and another letter. -/
def letters (i : Nat) : List Byte := [BitVec.ofNat 8 (i % 16 + 97), BitVec.ofNat 8 (i / 16 % 16 + 97)]

theorem letters_ne (i : Nat) {c : Byte} (low : c.toNat < 97) : c ∉ letters i := by
  have letter (k : Nat) (small : k < 16) : c ≠ BitVec.ofNat 8 (k + 97) := by
    intro same
    rw [same, BitVec.toNat_ofNat] at low
    omega
  have first := letter (i % 16) (Nat.mod_lt _ (by decide))
  have second := letter (i / 16 % 16) (Nat.mod_lt _ (by decide))
  simp [letters, first, second]

/-- A file with four bytes. -/
def namedFile (i : Nat) : HostFile where
  path := letters i
  plain := letters_ne i (by decide)
  reads := some [[97, 98, 99, 100]]
  sized := by decide

def namedFiles (n : Nat) : List HostFile := (List.range n).map namedFile

theorem namedFiles_length (n : Nat) : (namedFiles n).length = n := by
  rw [namedFiles, List.length_map, List.length_range]

/-- Each file needs one block. -/
theorem namedFiles_acceptable {n : Nat} (few : n + 2 ≤ ninodes) : Acceptable (namedFiles n) := by
  have bound : n + 2 ≤ 200 := few
  have root : (dataOf (namedFiles n) 1).length = (n + 2) * 16 := by
    show (rootBytes (namedFiles n)).length = _
    rw [rootBytes_length, namedFiles_length]
  have other (k : Nat) (file : k ≠ 1) : (dataOf (namedFiles n) k).length ≤ 4 := by
    rw [dataOf, if_neg file]
    split_ifs with low
    · rw [namedFiles, List.getElem?_map, Option.map_map]
      cases (List.range n)[k - 2]? with
      | none => exact Nat.zero_le _
      | some i => exact le_refl 4
    · exact Nat.zero_le _
  constructor
  · intro f inside
    rw [namedFiles, List.mem_map] at inside
    obtain ⟨i, _, rfl⟩ := inside
    have short : shortname (letters i) = letters i := by
      rw [shortname, if_neg]
      intro same
      have lengths := congrArg List.length same
      simp [letters, userDir] at lengths
    show slash ∉ shortname (letters i)
    rw [short]
    exact letters_ne i (by decide)
  · intro f inside
    rw [namedFiles, List.mem_map] at inside
    obtain ⟨i, _, rfl⟩ := inside
    simp [namedFile]
  · constructor
    · intro k _
      show _ ≤ 268 * 1024
      by_cases file : k = 1
      · rw [file, root]
        omega
      · have short := other k file
        omega
    · have blocks : needed (dataOf (namedFiles n)) ⊆ Finset.range 200 ×ˢ Finset.range 4 := by
        rintro ⟨k, m⟩ member
        rw [mem_needed, Occupied] at member
        have occupied := member.2
        have length : (dataOf (namedFiles n) k).length ≤ 3200 := by
          by_cases file : k = 1
          · rw [file, root]
            omega
          · have short := other k file
            omega
        rw [Finset.mem_product, Finset.mem_range, Finset.mem_range]
        refine ⟨member.1.1, ?_⟩
        split_ifs at occupied with last
        · have large : 12 * 1024 < (dataOf (namedFiles n) k).length := occupied
          omega
        · have inside : m * 1024 < (dataOf (namedFiles n) k).length := occupied
          omega
      have card := Finset.card_le_card blocks
      rw [Finset.card_product, Finset.card_range, Finset.card_range] at card
      show 46 + _ ≤ 2000
      omega

/-- Three files with four bytes each give a consistent image. -/
theorem three_files_consistent : ∃ s, (main (namedFiles 3)).run start = .ok ((), s) ∧
    Consistent sb s.img s.freeinode s.freeblock := by
  obtain ⟨s, ran, _⟩ := main_ok (by decide) (namedFiles_acceptable (by decide : 3 + 2 ≤ ninodes))
  exact ⟨s, ran, (main_consistent _ s ran).mpr (by decide)⟩

/-- Sixty-two files fill the first block of the root directory. -/
theorem full_root_inconsistent : ∃ s, (main (namedFiles 62)).run start = .ok ((), s) ∧
    ¬ Consistent sb s.img s.freeinode s.freeblock := by
  have few : (namedFiles 62).length + 2 ≤ ninodes := by
    rw [namedFiles_length]
    decide
  obtain ⟨s, ran, final⟩ := main_ok few (namedFiles_acceptable (by decide))
  refine ⟨s, ran, final.hole ?_⟩
  rw [namedFiles_length]

end Examples

end Xv6.Mkfs
