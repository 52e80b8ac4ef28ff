/-
This file gives the root directory of an image as the kernel reads it, and shows that the kernel finds the image tidy.
-/

import Xv6.Proof.BlockFs.NameMap

namespace Xv6.Mkfs

open Bytes OnDisk BlockFs

/-- The inode numbers and the names in the root directory. -/
def rootList (files : List HostFile) : List (BitVec 16 × List Byte) :=
  (1, dot) :: (1, dotdot) :: files.mapIdx fun i f => (BitVec.ofNat 16 (i + 2), f.stored)

section Entries

variable {files : List HostFile} {s : State}

theorem rootBytes_eq (files : List HostFile) : rootBytes files = (rootList files).flatMap fun e => direntBytes e.1 e.2 := by
  have entries : files.mapIdx entryOf =
      (files.mapIdx fun i f => (BitVec.ofNat 16 (i + 2), f.stored)).map fun e => direntBytes e.1 e.2 := by
    apply List.ext_getElem
    · simp
    · intro i _ _
      simp [entryOf]
  rw [rootBytes, rootList, List.flatMap_cons, List.flatMap_cons, List.flatMap_def, entries, List.append_assoc]

theorem rootList_length (files : List HostFile) : (rootList files).length = files.length + 2 := by
  rw [rootList, List.length_cons, List.length_cons, List.length_mapIdx]

theorem rootList_file {i : Nat} {f : HostFile} (file : files[i]? = some f) :
    (rootList files)[i + 2]? = some (BitVec.ofNat 16 (i + 2), f.stored) := by
  rw [rootList, List.getElem?_cons_succ, List.getElem?_cons_succ, List.getElem?_mapIdx, file]
  rfl

theorem stored_plain (f : HostFile) : 0 ∉ f.stored := by
  have short : 0 ∉ shortname f.path := by
    rw [shortname]
    split_ifs with user
    · exact fun zero => f.plain (List.mem_of_mem_drop zero)
    · exact f.plain
  show 0 ∉ if (shortname f.path).head? = some underscore then (shortname f.path).tail else shortname f.path
  split_ifs with under
  · exact fun zero => short (List.mem_of_mem_tail zero)
  · exact short

/-- Every entry has a number of an inode and a C string. -/
theorem rootList_valid (few : files.length + 2 ≤ ninodes) {e : BitVec 16 × List Byte} (member : e ∈ rootList files) :
    (e.1.toNat = 1 ∨ 2 ≤ e.1.toNat ∧ e.1.toNat < files.length + 2) ∧ 0 ∉ e.2 := by
  rw [rootList, List.mem_cons, List.mem_cons, List.mem_mapIdx] at member
  rcases member with rfl | rfl | ⟨i, inside, rfl⟩
  · exact ⟨.inl rfl, by decide⟩
  · exact ⟨.inl rfl, by decide⟩
  · have bound : files.length + 2 ≤ 200 := few
    have number : (BitVec.ofNat 16 (i + 2)).toNat = i + 2 := by
      rw [BitVec.toNat_ofNat]
      omega
    refine ⟨.inr ?_, stored_plain _⟩
    rw [number]
    omega

/-- Parts of one length in a list. -/
theorem slice_flatMap {α : Type} {f : α → List Byte} {m : Nat} (sized : ∀ x, (f x).length = m) (l : List α) {i : Nat}
    (inside : i < l.length) : ((l.flatMap f).drop (m * i)).take m = f l[i] := by
  induction l generalizing i with
  | nil => exact absurd inside (Nat.not_lt_zero i)
  | cons x l ih =>
      rw [List.flatMap_cons]
      cases i with
      | zero =>
          rw [Nat.mul_zero, List.drop_zero, List.take_left' (sized x)]
          rfl
      | succ i =>
          have place : m * (i + 1) = (f x).length + m * i := by rw [sized, Nat.mul_succ, Nat.add_comm]
          rw [place, List.drop_length_add_append, ih (Nat.lt_of_succ_lt_succ inside)]
          rfl

/-- The bytes of the root directory have blocks. -/
theorem Final.covered (final : Final files s) {k : Nat} (small : k < ninodes) :
    Covered sb s.img (dinode sb s.img) k (dataOf files k).length := by
  intro i inside
  obtain ⟨index, used, _⟩ := final.layout.bytes k i small inside
  exact ⟨index, (slotOf_needed final _).mpr used⟩

/-- The bytes behind the end of a file are zero. -/
theorem Final.tail_zero (final : Final files s) {k i : Nat} (index : i / bsize < maxfile) (beyond : (dataOf files k).length ≤ i) :
    cell sb s.img (dinode sb s.img) (k, i / bsize) (i % bsize) = 0 := by
  rw [cell]
  split_ifs with none
  · rfl
  · rw [slotOf_block _ none]
    exact final.layout.tails k i ((slotOf_needed final _).mp none) index beyond

theorem Final.root_size (final : Final files s) :
    (dinode sb s.img 1).size.toNat = ((files.length + 2) * 16 / 1024 + 1) * 1024 := by
  have size := final.root
  rw [roundedSize, rootBytes_length] at size
  exact size

/-- The entries of the root directory are those of the files, and the rest of it is free. -/
theorem Final.rootEntry (final : Final files s) (few : files.length + 2 ≤ ninodes) (i : Nat) :
    dirEntry sb s.img 1 i = (rootList files)[i]?.map fun e => (nameKey e.2, e.1) := by
  have bound : files.length + 2 ≤ 200 := few
  have size := final.root_size
  have length : (dataOf files 1).length = (files.length + 2) * 16 := rootBytes_length files
  rw [dirEntry]
  by_cases inside : i < (rootList files).length
  · have number : i < files.length + 2 := by rwa [rootList_length] at inside
    have before : direntSize * i < (dinode sb s.img 1).size.toNat := by
      rw [size]
      show 16 * i < _
      omega
    obtain ⟨place, plain⟩ := rootList_valid few (List.getElem_mem inside)
    have used : (rootList files)[i].1 ≠ 0 := by
      intro zero
      rw [zero] at place
      rcases place with one | ⟨two, _⟩
      · exact absurd one (by decide)
      · exact absurd two (by decide)
    have bytes : segment sb s.img (dinode sb s.img) 1 (direntSize * i) direntSize =
        direntBytes (rootList files)[i].1 (rootList files)[i].2 := by
      rw [final.segment_eq (by decide)]
      · show ((rootBytes files).drop _).take _ = _
        rw [rootBytes_eq]
        exact slice_flatMap (fun e => direntBytes_length _ _) _ inside
      · rw [length]
        show 16 * i + 16 ≤ _
        omega
    rw [if_pos before, bytes, decodeEntry_bytes used plain, List.getElem?_eq_getElem inside]
    rfl
  · have number : files.length + 2 ≤ i := by
      rw [rootList_length] at inside
      omega
    rw [List.getElem?_eq_none (Nat.not_lt.mp inside)]
    split_ifs with before
    · rw [size] at before
      have low : 16 * i < ((files.length + 2) * 16 / 1024 + 1) * 1024 := before
      have zeros : segment sb s.img (dinode sb s.img) 1 (direntSize * i) direntSize = List.replicate direntSize 0 := by
        rw [List.eq_replicate_iff]
        refine ⟨segment_length _ _, fun b member => ?_⟩
        rw [BlockFs.segment, List.mem_map] at member
        obtain ⟨j, within, rfl⟩ := member
        have high : j < 16 := List.mem_range.mp within
        apply final.tail_zero
        · show (16 * i + j) / 1024 < 268
          omega
        · rw [length]
          show _ ≤ 16 * i + j
          omega
      rw [zeros, decodeEntry_zero]
      rfl
    · rfl

/-- The root is the only directory. -/
theorem Final.only_root (final : Final files s) {k : Nat} (small : k < ninodes) (dir : (dinode sb s.img k).type = tDir) :
    k = 1 := by
  rw [final.type k small, typesOf] at dir
  by_contra other
  rw [if_neg other] at dir
  split_ifs at dir
  · exact absurd dir (by decide)
  · exact absurd dir (by decide)

/-- The kernel finds the image tidy if the root directory does not fill its last block. -/
theorem Final.tidy (final : Final files s) (few : files.length + 2 ≤ ninodes) (ragged : (files.length + 2) % 64 ≠ 0) :
    Tidy sb s.img := by
  refine ⟨final.sound few ragged, fun k small => ⟨final.whole few ragged small, fun dir => ?_⟩⟩
  obtain rfl := final.only_root small dir
  refine ⟨((files.length + 2) * 16 / 1024 + 1) * 64, ?_⟩
  rw [final.root_size]
  show _ = 16 * _
  omega

end Entries

end Xv6.Mkfs
