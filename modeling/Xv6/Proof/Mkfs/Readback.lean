/-
This file proves that the kernel finds the files of an image under their names and reads the bytes that `mkfs` was given.
-/

import Xv6.Proof.BlockCalls.Resolve

namespace Xv6.Mkfs

open Bytes OnDisk Program
open BlockFs (dirEntry nameKey nameKey_plain Covered segment lookupLoop_spec readi_segment)
open BlockCalls (Mounted Walking Searched pieces one taken TableFull)

/-- Files that fit: their names are names of the root directory, and they have inodes and blocks. -/
structure Fits (files : List HostFile) : Prop where
  few : files.length ≤ ninodes - 2
  opened : ∀ f ∈ files, f.reads ≠ none
  named : ∀ f ∈ files, f.stored ≠ [] ∧ slash ∉ f.stored ∧ f.stored ≠ dot ∧ f.stored ≠ dotdot
  distinct : (files.map fun f => f.stored.take dirsiz).Nodup
  small : ∀ f ∈ files, f.contents.length ≤ maxfile * bsize
  room : nmeta + (needed (dataOf files)).card ≤ fssize

section Names

variable {files : List HostFile}

theorem Fits.count (fits : Fits files) : files.length + 2 ≤ ninodes := by
  have few : files.length ≤ 198 := fits.few
  show files.length + 2 ≤ 200
  omega

theorem take_short {l short : List Byte} {n : Nat} (same : l.take n = short) (less : short.length < n) : l = short := by
  have length := congrArg List.length same
  rw [List.length_take] at length
  rw [List.take_of_length_le (by omega)] at same
  exact same

/-- The names in the root directory are distinct. -/
theorem Fits.nodup (fits : Fits files) : ((rootList files).map fun e => e.2.take dirsiz).Nodup := by
  have stored : (files.mapIdx fun i f => (BitVec.ofNat 16 (i + 2), f.stored)).map (fun e => e.2.take dirsiz) =
      files.map fun f => f.stored.take dirsiz := by
    apply List.ext_getElem
    · simp
    · intro i _ _
      simp
  have other {short : List Byte} (less : short.length < dirsiz) (reserved : ∀ f ∈ files, f.stored ≠ short) :
      short ∉ files.map fun f => f.stored.take dirsiz := by
    rw [List.mem_map]
    rintro ⟨f, inside, same⟩
    exact reserved f inside (take_short same less)
  rw [rootList, List.map_cons, List.map_cons, stored, List.nodup_cons, List.nodup_cons]
  refine ⟨?_, other (by decide) fun f inside => (fits.named f inside).2.2.2, fits.distinct⟩
  rw [List.mem_cons, not_or]
  exact ⟨by decide, other (by decide) fun f inside => (fits.named f inside).2.2.1⟩

theorem Fits.acceptable (fits : Fits files) : Acceptable files := by
  refine ⟨fun f inside => ?_, fits.opened, fun k _ => ?_, fits.room⟩
  · intro slashed
    have plain := (fits.named f inside).2.1
    have tail : f.stored = if (shortname f.path).head? = some underscore then (shortname f.path).tail
      else shortname f.path := rfl
    rw [tail] at plain
    split_ifs at plain with under
    · obtain ⟨rest, short⟩ := List.head?_eq_some_iff.mp under
      rw [short] at slashed plain
      rcases List.mem_cons.mp slashed with same | later
      · exact absurd same (by decide)
      · exact plain later
    · exact plain slashed
  · rw [dataOf]
    split_ifs with root low
    · have few : files.length ≤ 198 := fits.few
      rw [rootBytes_length]
      show (files.length + 2) * 16 ≤ 268 * 1024
      omega
    · cases file : files[k - 2]? with
      | none => exact Nat.zero_le _
      | some f => exact fits.small f (List.mem_of_getElem? file)
    · exact Nat.zero_le _

end Names

section Search

variable {files : List HostFile} {v : State} {i : Nat} {f : HostFile}

/-- The search of the root for the name of a file. It ends before a hole at the end of the directory. -/
theorem Final.searched (final : Final files v) (fits : Fits files) (file : files[i]? = some f) {vol : BlockFs.Volume}
    (image : vol.img = v.img) : Searched sb vol 1 (f.stored.take dirsiz) (some (i + 2)) := by
  have few : files.length ≤ 198 := fits.few
  have inside := (List.getElem?_eq_some_iff.mp file).1
  have size := final.root_size
  have plain : 0 ∉ f.stored.take dirsiz := fun zero => stored_plain f (List.mem_of_mem_take zero)
  have key (e : BitVec 16 × List Byte) (member : e ∈ rootList files) : nameKey e.2 = e.2.take dirsiz :=
    nameKey_plain (rootList_valid fits.count member).2
  have mine : nameKey (f.stored.take dirsiz) = f.stored.take dirsiz := by
    rw [nameKey_plain plain, List.take_take, Nat.min_self]
  have entry : dirEntry sb vol.img 1 (i + 2) = some (nameKey (f.stored.take dirsiz), BitVec.ofNat 16 (i + 2)) := by
    rw [image, final.rootEntry fits.count, rootList_file file, mine]
    show some (nameKey f.stored, BitVec.ofNat 16 (i + 2)) = _
    rw [nameKey_plain (stored_plain f)]
  have covered : Covered sb vol.img (dinode sb vol.img) 1 (direntSize * (files.length + 2)) := by
    rw [image]
    have all := final.covered (by decide : 1 < ninodes)
    have length : (dataOf files 1).length = (files.length + 2) * 16 := rootBytes_length files
    rwa [length, Nat.mul_comm] at all
  rw [Searched, BlockFs.dirlookup, if_neg (not_not.mpr (by rw [image, final.type 1 (by decide)]; rfl))]
  rw [← image] at size
  refine (lookupLoop_spec (by decide) covered ?_ (by omega) _ _ 0 ?_
    (.inr ⟨i + 2, _, Nat.zero_le _, by omega, entry⟩)).mono (fun r t after => ?_) (fun _ never => never)
  · rw [size]
    show 16 * _ ≤ _
    omega
  · rw [size]
    show _ < 0 + (_ / 16 + 1)
    omega
  · obtain ⟨state, node, ⟨j, inum, result, there, _⟩ | ⟨_, absent⟩⟩ := after
    · refine ⟨state, node, ?_⟩
      rw [image, final.rootEntry fits.count, Option.map_eq_some_iff] at there
      obtain ⟨e, found, same⟩ := there
      obtain ⟨names, numbers⟩ := Prod.mk.inj same
      have place : j < ((rootList files).map fun e => e.2.take dirsiz).length := by
        rw [List.length_map]
        exact (List.getElem?_eq_some_iff.mp found).1
      have equal : j = i + 2 := by
        refine (List.getElem?_inj place fits.nodup).mp ?_
        rw [List.getElem?_map, List.getElem?_map, found, rootList_file file]
        rw [key e (List.mem_of_getElem? found), mine] at names
        exact congrArg some names
      rw [equal, rootList_file file] at found
      rw [result, ← numbers, ← Option.some.inj found]
      show some (BitVec.ofNat 16 (i + 2)).toNat = some (i + 2)
      rw [BitVec.toNat_ofNat, Nat.mod_eq_of_lt (by omega)]
    · exact absurd entry (absent _ _ (Nat.zero_le _))

end Search

section Readback

/-- A caller of the kernel finds a path, locks its inode and reads the whole range of the file. -/
def readPath (cwd : Nat) (path : Path) : BlockCalls.M (Option (Uint × Option (List Byte))) := do
  match ← BlockCalls.namei sb cwd path with
  | none => return none
  | some ip =>
      BlockCalls.ilock sb ip
      let s ← get
      let bytes ← BlockCalls.withInode ip fun din => BlockFs.readKernel sb din 0 din.size
      return some ((s.copy ip).size, bytes)

/-- The kernel has the image as its disk and runs no other call. The valid copies in the inode table are those of the
disk. -/
structure Attached (s : Mounted) (img : Blocks) : Prop where
  image : s.vol.img = img
  copies : ∀ k, s.ref k ≠ 0 → s.valid k = true → s.copy k = dinode sb img k
  free : ∀ k, s.locked k = false

variable {files : List HostFile} {v : State} {i : Nat} {f : HostFile} {s : Mounted}

/-- `namei` walks through the root only. -/
theorem Final.namei_file (final : Final files v) (fits : Fits files) (file : files[i]? = some f) (attached : Attached s v.img)
    (cwd : Nat) :
    Ensures (BlockCalls.namei sb cwd (slash :: f.stored)) s (fun r t => r = some (i + 2) ∧ Walking sb s (one (i + 2)) none t)
      (TableFull s) := by
  obtain ⟨nonempty, plain, _⟩ := fits.named f (List.mem_of_getElem? file)
  have names : elements (slash :: f.stored) = [f.stored.take dirsiz] := by
    rw [BlockCalls.elements_eq, BlockCalls.pieces_slash, BlockCalls.pieces_last nonempty plain]
  have dir : (dinode sb s.vol.img 1).type = tDir := by
    rw [attached.image, final.type 1 (by decide)]
    rfl
  have linked : (dinode sb s.vol.img 1).nlink ≠ 0 := by
    rw [attached.image, final.links 1 (by decide) (by rw [typesOf, if_pos rfl]; decide)]
    decide
  have begins : Walking sb s (fun _ => 0) none s := by
    refine Walking.start (fun k held valid => ?_) attached.free
    rw [attached.image]
    exact attached.copies k held valid
  rw [BlockCalls.namei, ensures_bind, BlockCalls.namex, if_pos (List.head?_cons ..), ensures_bind]
  refine (begins.get 1).mono (fun _ t walking => ?_) (fun _ stopped => ⟨stopped.1, stopped.2.trans (Nat.le_succ _)⟩)
  have at_root : Walking sb s (one 1) none t := walking
  show Ensures (BlockCalls.namexLoop sb false 1 [] (elements (slash :: f.stored))) t _ _
  rw [names, BlockCalls.namexLoop, ensures_bind]
  refine (at_root.acquire (by decide) (by rw [dir]; decide)).mono (fun _ t locked => ?_) (fun _ stopped => stopped)
  have number : t.ref 1 = s.ref 1 + 1 := locked.refs 1
  rw [ensures_bind, ensures_get, locked.copies 1 (by omega) (locked.loaded 1 rfl).1, if_neg (not_not.mpr dir),
    if_neg (by simp), ensures_bind]
  refine (locked.look (final.searched fits file attached.image)).mono (fun r t after => ?_)
    (fun _ stopped => ⟨stopped.1, stopped.2.trans locked.inUse⟩)
  obtain ⟨result, looked⟩ := after
  cases r with
  | none => cases result
  | some found =>
      obtain ⟨next, off⟩ := found
      have equal : next = i + 2 := Option.some.inj result
      subst equal
      rw [ensures_bind]
      refine (looked.unlockput (.inl linked)).mono (fun _ t walking => ?_) (fun _ stopped => stopped)
      exact ⟨rfl, walking⟩

theorem Fits.file_small (fits : Fits files) (file : files[i]? = some f) : i + 2 < ninodes :=
  Nat.lt_of_lt_of_le (Nat.add_lt_add_right (List.getElem?_eq_some_iff.mp file).1 2) fits.count

theorem dataOf_file (file : files[i]? = some f) : dataOf files (i + 2) = f.contents := by
  rw [dataOf, if_neg (by omega), if_pos (by omega), Nat.add_sub_cancel, file]
  rfl

theorem Final.file_size (final : Final files v) (fits : Fits files) (file : files[i]? = some f) :
    (dinode sb v.img (i + 2)).size.toNat = f.contents.length := by
  rw [final.size _ (fits.file_small file) (by omega), dataOf_file file]

theorem Final.contents_read (final : Final files v) (fits : Fits files) (file : files[i]? = some f) {vol : BlockFs.Volume}
    (image : vol.img = v.img) {stop : BlockFs.Panic → Prop} :
    Ensures (BlockFs.readKernel sb (dinode sb vol.img (i + 2)) 0 (dinode sb vol.img (i + 2)).size) vol
      (fun r _ => r.1 = some f.contents) stop := by
  have small := fits.file_small file
  have data := dataOf_file file
  have size := final.file_size fits file
  have bound : f.contents.length ≤ 268 * 1024 := fits.small f (List.mem_of_getElem? file)
  have covered := final.covered small
  rw [← image] at covered size
  refine (readi_segment covered small (fun _ => true) (Nat.zero_le _) ?_ ?_).mono (fun r t after => ?_) (fun _ stopped => stopped)
  · rw [size]
    show 0 + f.contents.length < 2 ^ 32
    omega
  · rw [size, data]
    show 0 + min _ (_ - 0) ≤ _
    omega
  · obtain ⟨_, _, bytes | ⟨_, _, failed⟩⟩ := after
    · rw [bytes, size]
      show some (segment sb vol.img (dinode sb vol.img) (i + 2) 0 (min _ (_ - 0))) = _
      rw [Nat.sub_zero, Nat.min_self, image, final.segment_eq small (by rw [data]; omega), data, List.drop_zero, List.take_length]
    · cases failed

/-- The kernel reads every file of an image under its name. -/
theorem kernel_reads_files (files : List HostFile) (fits : Fits files) :
    ∃ v, (main files).run start = .ok ((), v) ∧ ∀ s, Attached s v.img → ∀ (i : Nat) (f : HostFile), files[i]? = some f → ∀ cwd,
      Ensures (readPath cwd (slash :: f.stored)) s
        (fun r _ => r = some (BitVec.ofNat 32 f.contents.length, some f.contents)) (TableFull s) := by
  obtain ⟨v, ran, final⟩ := main_ok fits.count fits.acceptable
  refine ⟨v, ran, fun s attached i f file cwd => ?_⟩
  have inside := (List.getElem?_eq_some_iff.mp file).1
  have typed : (dinode sb s.vol.img (i + 2)).type ≠ 0 := by
    rw [attached.image, final.type _ (fits.file_small file), typesOf, if_neg (by omega), if_pos (by omega)]
    decide
  have size : (dinode sb s.vol.img (i + 2)).size = BitVec.ofNat 32 f.contents.length := by
    have bound : f.contents.length ≤ 268 * 1024 := fits.small f (List.mem_of_getElem? file)
    apply BitVec.eq_of_toNat_eq
    rw [attached.image, final.file_size fits file, BitVec.toNat_ofNat, Nat.mod_eq_of_lt (by omega)]
  rw [readPath, ensures_bind]
  refine (final.namei_file fits file attached cwd).mono (fun r t after => ?_) (fun _ stopped => stopped)
  obtain ⟨rfl, walking⟩ := after
  rw [ensures_bind]
  refine (walking.acquire (by rw [BlockCalls.one_self]; decide) typed).mono (fun _ t locked => ?_) (fun _ stopped => stopped)
  have number := locked.refs (i + 2)
  rw [BlockCalls.one_self] at number
  have copy := locked.copies (i + 2) (by omega) (locked.loaded (i + 2) rfl).1
  simp only [BlockCalls.withInode, ensures_bind, ensures_get, BlockCalls.ensures_onVolume, ensures_modify, ensures_pure, copy]
  rw [locked.volume]
  refine (final.contents_read fits file attached.image).mono (fun r _ bytes => ?_) (fun _ stopped => stopped)
  rw [size, bytes]

theorem wordFile_fits : Fits [wordFile] := by
  refine ⟨by decide, by decide, ?_, by decide, by decide, wordFile_acceptable.fit.room⟩
  intro f member
  rw [List.mem_singleton.mp member]
  decide

/-- The file `aa` is read back after the boot. -/
theorem kernel_reads_word : ∃ v, (main [wordFile]).run start = .ok ((), v) ∧
    ∀ cwd, ∃ t, (readPath cwd [slash, 97, 97]).run (BlockCalls.booted v.img) = .ok (some (4, some [97, 98, 99, 100]), t) := by
  obtain ⟨v, ran, reads⟩ := kernel_reads_files [wordFile] wordFile_fits
  refine ⟨v, ran, fun cwd => ?_⟩
  have attached : Attached (BlockCalls.booted v.img) v.img := ⟨rfl, fun _ _ valid => (nomatch valid), fun _ => rfl⟩
  obtain ⟨r, t, returned, result⟩ := (reads _ attached 0 wordFile rfl cwd).total (BlockCalls.booted_room v.img)
  exact ⟨t, returned.trans (by rw [result]; rfl)⟩

end Readback

end Xv6.Mkfs
