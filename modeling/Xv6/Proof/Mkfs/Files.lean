/-
This file proves what `mkfs` writes: the root directory with one entry for each file, the files behind it, and the
free map.
-/

import Xv6.Proof.Mkfs.Append

namespace Xv6.Mkfs

open Bytes OnDisk Program

/-- The image between two calls of `ialloc` and `iappend`. -/
structure Sound (s : State) (types : Nat → CShort) (data : Nat → List Byte) : Prop where
  layout : Layout (fun k => (dinode sb s.img k).addrs) s.img s.freeblock (needed data) data
  fit : Fit data
  type : ∀ k, k < ninodes → (dinode sb s.img k).type = types k
  links : ∀ k, k < ninodes → types k ≠ 0 → (dinode sb s.img k).nlink = 1
  size : ∀ k, k < ninodes → (dinode sb s.img k).size.toNat = (data k).length
  super : DiskSuperblock.ofBytes (s.img 1) = sb

section Inodes

variable {s t : State} {k : Nat} {stop : Stop → Prop}

theorem iblock_lt (small : k < ninodes) : sb.iblock k < nmeta - 1 ∧ 1 < sb.iblock k := by
  have bound : k < 200 := small
  rw [iblock_eq]
  show k / 16 + 32 < 45 ∧ 1 < k / 16 + 32
  omega

theorem ensures_rinode (small : k < ninodes) {post : Dinode → State → Prop} :
    Ensures (rinode k) s post stop ↔ post (dinode sb s.img k) s := by
  have inside : sb.iblock k < fssize := Nat.lt_of_lt_of_le (iblock_lt small).1 (by decide)
  simp only [rinode, ensures_bind, ensures_rsect, ensures_pure, inside, not_true_eq_false, false_implies, and_true,
    true_implies]
  rfl

theorem ensures_winode (small : k < ninodes) (d : Dinode) {post : Unit → State → Prop} :
    Ensures (winode k d) s post stop ↔ post () { s with img := written sb s.img k d } := by
  have inside : sb.iblock k < fssize := Nat.lt_of_lt_of_le (iblock_lt small).1 (by decide)
  simp only [winode, ensures_bind, ensures_rsect, ensures_wsect, inside, not_true_eq_false, false_implies, and_true,
    true_implies]
  rfl

theorem written_data (small : k < ninodes) (img : Blocks) (d : Dinode) {b : Nat} (high : nmeta ≤ b) :
    written sb img k d b = img b :=
  filled_other (Nat.ne_of_gt (Nat.lt_of_lt_of_le (Nat.lt_of_lt_of_le (iblock_lt small).1 (by decide)) high))

theorem written_super (small : k < ninodes) (img : Blocks) (d : Dinode) : written sb img k d 1 = img 1 :=
  filled_other (Nat.ne_of_lt (iblock_lt small).2)

/-- The inodes are in the blocks before the data. -/
theorem Frame.dinode (frame : Frame s t) (small : k < ninodes) : OnDisk.dinode sb t.img k = OnDisk.dinode sb s.img k := by
  rw [OnDisk.dinode, OnDisk.dinode, frame.img _ (Nat.lt_of_lt_of_le (iblock_lt small).1 (by decide))]

end Inodes

section Calls

variable {s : State} {types : Nat → CShort} {data : Nat → List Byte} {k : Nat}

theorem iappend_spec (sound : Sound s types data) (small : k < ninodes) (p : List Byte) :
    Ensures (iappend k p) s
      (fun _ t => Sound t types (extended data k p) ∧ t.freeinode = s.freeinode) fun _ => ¬ Fit (extended data k p) := by
  have layout : Layout (Function.update (fun j => (dinode sb s.img j).addrs) k (dinode sb s.img k).addrs) s.img
      s.freeblock (needed data) data := by
    rw [Function.update_eq_self]
    exact sound.layout
  rw [iappend, ensures_bind, ensures_rinode small, ensures_bind]
  refine (appendLoop_spec p.length (Nat.le_refl _) layout small (sound.size k small) sound.fit).mono
    (fun result t appended => ?_) (fun _ stopped => stopped)
  rw [ensures_winode small]
  have nodes (j : Nat) (inside : j < ninodes) :
      dinode sb (written sb t.img k { result.1 with size := BitVec.ofNat 32 result.2 }) j =
        if j = k then { result.1 with size := BitVec.ofNat 32 result.2 } else dinode sb s.img j := by
    rw [dinode_written, appended.frame.dinode inside]
  refine ⟨⟨?_, appended.fit, ?_, ?_, ?_, ?_⟩, appended.frame.freeinode⟩
  · refine appended.layout.congr (fun b high => written_data small _ _ high) (fun j m inside _ => ?_)
    rw [nodes j inside]
    by_cases mine : j = k
    · rw [if_pos mine, mine, Function.update_self]
    · rw [if_neg mine, Function.update_of_ne mine]
  · intro j inside
    rw [nodes j inside]
    split_ifs with mine
    · rw [mine, ← sound.type k small, appended.addrs]
    · exact sound.type j inside
  · intro j inside used
    rw [nodes j inside]
    split_ifs with mine
    · rw [mine] at used
      rw [← sound.links k small used, appended.addrs]
    · exact sound.links j inside used
  · intro j inside
    rw [nodes j inside]
    split_ifs with mine
    · have bound : (extended data k p k).length ≤ 268 * 1024 := appended.fit.small k small
      rw [extended_self, List.length_append] at bound
      rw [mine, extended_self, List.length_append, appended.size, sound.size k small, BitVec.toNat_ofNat]
      exact Nat.mod_eq_of_lt (by omega)
    · rw [extended, Function.update_of_ne mine]
      exact sound.size j inside
  · show DiskSuperblock.ofBytes (written sb t.img k { result.1 with size := BitVec.ofNat 32 result.2 } 1) = sb
    rw [written_super small, appended.frame.img 1 (by decide)]
    exact sound.super

/-- A new inode has no bytes. -/
theorem ialloc_spec (sound : Sound s types data) (small : s.freeinode < ninodes) (empty : data s.freeinode = [])
    (type : CShort) {stop : Stop → Prop} :
    Ensures (ialloc type) s (fun r t => r = s.freeinode ∧ t.freeinode = s.freeinode + 1 ∧
      Sound t (Function.update types s.freeinode type) data) stop := by
  have nodes (j : Nat) : dinode sb (written sb s.img s.freeinode { Dinode.zero with type := type, nlink := 1 }) j =
      if j = s.freeinode then { Dinode.zero with type := type, nlink := 1 } else dinode sb s.img j :=
    dinode_written _ _ _ _ _
  simp only [ialloc, ensures_bind, ensures_get, ensures_set, ensures_winode small, ensures_pure]
  refine ⟨trivial, trivial, ?_, sound.fit, ?_, ?_, ?_, ?_⟩
  · refine sound.layout.congr (fun b high => written_data small _ _ high) (fun j m inside high => ?_)
    rw [nodes]
    split_ifs with mine
    · have unused : (s.freeinode, m) ∉ needed data := by
        rw [mem_needed, empty]
        intro used
        have occupied : Occupied 0 m := used.2
        unfold Occupied at occupied
        split_ifs at occupied <;> omega
      have none : slotBlock s.img (dinode sb s.img s.freeinode).addrs m = 0 := by
        by_contra named
        exact unused ((sound.layout.present s.freeinode m small high).mp named)
      rw [mine, none]
      exact slotBlock_zero
    · rfl
  · intro j inside
    rw [nodes]
    by_cases mine : j = s.freeinode
    · rw [if_pos mine, mine, Function.update_self]
    · rw [if_neg mine, Function.update_of_ne mine]
      exact sound.type j inside
  · intro j inside used
    rw [nodes]
    by_cases mine : j = s.freeinode
    · rw [if_pos mine]
    · rw [Function.update_of_ne mine] at used
      rw [if_neg mine]
      exact sound.links j inside used
  · intro j inside
    rw [nodes]
    split_ifs with mine
    · rw [mine, empty]
      rfl
    · exact sound.size j inside
  · show DiskSuperblock.ofBytes (written sb s.img s.freeinode { Dinode.zero with type := type, nlink := 1 } 1) = sb
    rw [written_super small]
    exact sound.super

theorem appendAll_spec (small : k < ninodes) (chunks : List (List Byte)) (sound : Sound s types data) :
    Ensures (chunks.forM (iappend k)) s
      (fun _ t => Sound t types (extended data k chunks.flatten) ∧ t.freeinode = s.freeinode)
      fun _ => ¬ Fit (extended data k chunks.flatten) := by
  induction chunks generalizing s data with
  | nil =>
      rw [List.flatten_nil, extended_nil]
      exact ⟨sound, rfl⟩
  | cons chunk chunks ih =>
      have all : extended (extended data k chunk) k chunks.flatten = extended data k (chunk :: chunks).flatten := by
        rw [extended_extended, List.flatten_cons]
      show Ensures (iappend k chunk >>= fun _ => chunks.forM (iappend k)) s _ _
      rw [ensures_bind]
      refine (iappend_spec sound small chunk).mono (fun _ t after => ?_) (fun _ stopped full => ?_)
      · have rest := ih after.1
        rw [all] at rest
        exact rest.mono (fun _ u last => ⟨last.1, last.2.trans after.2⟩) (fun _ stopped => stopped)
      · apply stopped
        refine full.mono fun j => ?_
        have part : (extended data k ((chunk :: chunks).flatten.take chunk.length) j).length ≤
            (extended data k (chunk :: chunks).flatten j).length := extended_length chunk.length j
        rwa [List.flatten_cons, List.take_left] at part

end Calls

section Tree

/-- The entry of a file in the root directory. -/
def entryOf (i : Nat) (f : HostFile) : List Byte := direntBytes (BitVec.ofNat 16 (i + 2)) f.stored

/-- The bytes of the root directory. -/
def rootBytes (files : List HostFile) : List Byte :=
  direntBytes 1 dot ++ direntBytes 1 dotdot ++ (files.mapIdx entryOf).flatten

/-- The bytes of each inode. -/
def dataOf (files : List HostFile) (k : Nat) : List Byte :=
  if k = 1 then rootBytes files
  else if 2 ≤ k then (files[k - 2]?.map HostFile.contents).getD []
  else []

/-- The type of each inode. -/
def typesOf (files : List HostFile) (k : Nat) : CShort :=
  if k = 1 then tDir else if 2 ≤ k ∧ k < files.length + 2 then tFile else 0

/-- The files can be opened, their names have no slash, and their bytes fit into the image. -/
structure Acceptable (files : List HostFile) : Prop where
  names : ∀ f ∈ files, slash ∉ shortname f.path
  opened : ∀ f ∈ files, f.reads ≠ none
  fit : Fit (dataOf files)

variable {files : List HostFile} {f : HostFile}

theorem rootBytes_append (files : List HostFile) (f : HostFile) :
    rootBytes (files ++ [f]) = rootBytes files ++ entryOf files.length f := by
  rw [rootBytes, rootBytes, List.mapIdx_append, List.flatten_append, ← List.append_assoc]
  simp

theorem dataOf_append (files : List HostFile) (f : HostFile) :
    dataOf (files ++ [f]) =
      extended (extended (dataOf files) 1 (entryOf files.length f)) (files.length + 2) f.contents := by
  funext k
  by_cases root : k = 1
  · have other : (1 : Nat) ≠ files.length + 2 := by omega
    rw [root, extended, Function.update_of_ne other, extended_self]
    exact rootBytes_append files f
  by_cases new : k = files.length + 2
  · have other : files.length + 2 ≠ 1 := by omega
    rw [new, extended_self, extended, Function.update_of_ne other]
    simp [dataOf]
  · rw [extended, Function.update_of_ne new, extended, Function.update_of_ne root, dataOf, dataOf, if_neg root, if_neg root]
    split_ifs with low
    · rw [List.getElem?_append]
      split_ifs with inside
      · rfl
      · have beyond : [f][k - 2 - files.length]? = none := List.getElem?_eq_none (by simp; omega)
        have past : files[k - 2]? = none := List.getElem?_eq_none (Nat.not_lt.mp inside)
        rw [beyond, past]
    · rfl

theorem typesOf_append (files : List HostFile) (f : HostFile) :
    typesOf (files ++ [f]) = Function.update (typesOf files) (files.length + 2) tFile := by
  funext k
  by_cases new : k = files.length + 2
  · have other : files.length + 2 ≠ 1 := by omega
    rw [new, Function.update_self, typesOf, if_neg other, if_pos]
    rw [List.length_append]
    exact ⟨by omega, by simp⟩
  · rw [Function.update_of_ne new, typesOf, typesOf, List.length_append, List.length_singleton]
    congr 2
    exact propext (by omega)

theorem dataOf_length (files more : List HostFile) (k : Nat) :
    (dataOf files k).length ≤ (dataOf (files ++ more) k).length := by
  unfold dataOf
  split_ifs with root low
  · rw [rootBytes, rootBytes, List.mapIdx_append, List.flatten_append, ← List.append_assoc]
    exact (List.prefix_append _ _).length_le
  · rw [List.getElem?_append]
    split_ifs with inside
    · exact Nat.le_refl _
    · rw [List.getElem?_eq_none (Nat.not_lt.mp inside)]
      exact Nat.zero_le _
  · exact Nat.le_refl _

/-- Files that are accepted together are accepted from the first one on. -/
theorem Acceptable.take {more : List HostFile} (accepted : Acceptable (files ++ more)) : Acceptable files where
  names f inside := accepted.names f (List.mem_append_left _ inside)
  opened f inside := accepted.opened f (List.mem_append_left _ inside)
  fit := accepted.fit.mono (dataOf_length files more)

end Tree

section Main

variable {s : State} {files : List HostFile}

theorem addFile_spec (f : HostFile) (sound : Sound s (typesOf files) (dataOf files))
    (counter : s.freeinode = files.length + 2) (room : files.length + 2 < ninodes) :
    Ensures (addFile 1 f) s
      (fun _ t => Sound t (typesOf (files ++ [f])) (dataOf (files ++ [f])) ∧ t.freeinode = (files ++ [f]).length + 2)
      fun _ => ¬ Acceptable (files ++ [f]) := by
  have inside : f ∈ files ++ [f] := List.mem_append_right _ (List.mem_singleton_self f)
  have empty : dataOf files s.freeinode = [] := by
    rw [counter, dataOf, if_neg (by omega), if_pos (by omega)]
    simp
  rw [addFile, ensures_bind, ensures_check]
  refine ⟨fun _ => ?_, fun slashed accepted => slashed (by simpa using accepted.names f inside)⟩
  cases reads : f.reads with
  | none => exact fun accepted => accepted.opened f inside reads
  | some chunks =>
      have contents : f.contents = chunks.flatten := by
        rw [HostFile.contents, reads]
        rfl
      rw [dataOf_append, typesOf_append, contents]
      simp only [ensures_bind]
      refine (ialloc_spec sound (by rw [counter]; exact room) empty tFile).mono (fun inum t after => ?_) fun _ stopped => stopped
      obtain ⟨rfl, counter', sound'⟩ := after
      have mine : extended (dataOf files) 1 (direntBytes (BitVec.ofNat 16 s.freeinode) f.stored) =
          extended (dataOf files) 1 (entryOf files.length f) := by rw [counter, entryOf]
      refine (iappend_spec sound' (by decide) _).mono (fun _ u after => ?_) (fun _ stopped accepted => stopped ?_)
      · have small : s.freeinode < ninodes := by
          rw [counter]
          exact room
        rw [mine] at after
        refine (appendAll_spec small chunks after.1).mono (fun _ v last => ?_) (fun _ stopped accepted => stopped ?_)
        · rw [counter] at last
          rw [List.length_append, List.length_singleton]
          exact ⟨last.1, by omega⟩
        · have fit := accepted.fit
          rwa [dataOf_append, contents, ← counter] at fit
      · rw [mine]
        have fit := accepted.fit
        rw [dataOf_append] at fit
        have whole := fit.mono (extended_length 0)
        rwa [List.take_zero, extended_nil] at whole

theorem addFiles_spec (more : List HostFile) (sound : Sound s (typesOf files) (dataOf files))
    (counter : s.freeinode = files.length + 2) (room : (files ++ more).length + 2 ≤ ninodes) :
    Ensures (more.forM (addFile 1)) s
      (fun _ t => Sound t (typesOf (files ++ more)) (dataOf (files ++ more)) ∧ t.freeinode = (files ++ more).length + 2)
      fun _ => ¬ Acceptable (files ++ more) := by
  induction more generalizing s files with
  | nil =>
      rw [List.append_nil]
      exact ⟨sound, counter⟩
  | cons f more ih =>
      have split : files ++ f :: more = files ++ [f] ++ more := by rw [List.append_assoc, List.singleton_append]
      rw [split] at room ⊢
      have next : files.length + 2 < ninodes := by
        rw [List.length_append, List.length_append, List.length_singleton] at room
        omega
      show Ensures (addFile 1 f >>= fun _ => more.forM (addFile 1)) s _ _
      rw [ensures_bind]
      refine (addFile_spec f sound counter next).mono (fun _ t after => ?_) (fun _ stopped accepted => ?_)
      · exact ih after.1 after.2 room
      · exact stopped accepted.take

/-- The size of the root directory after `mkfs` has rounded it. -/
def roundedSize (files : List HostFile) : Nat := ((rootBytes files).length / bsize + 1) * bsize

/-- The image at the end. -/
structure Final (files : List HostFile) (s : State) : Prop where
  layout : Layout (fun k => (dinode sb s.img k).addrs) s.img s.freeblock (needed (dataOf files)) (dataOf files)
  fit : Fit (dataOf files)
  type : ∀ k, k < ninodes → (dinode sb s.img k).type = typesOf files k
  size : ∀ k, k < ninodes → k ≠ 1 → (dinode sb s.img k).size.toNat = (dataOf files k).length
  root : (dinode sb s.img 1).size.toNat = roundedSize files
  super : DiskSuperblock.ofBytes (s.img 1) = sb
  bitmap : s.img sb.bmapstart.toNat = markUsed s.freeblock
  freeinode : s.freeinode = files.length + 2
  links : ∀ k, k < ninodes → typesOf files k ≠ 0 → (dinode sb s.img k).nlink = 1

/-- The state after the superblock is written. -/
def opened : State := { start with img := Function.update start.img 1 (overlay 0 superblockSize sb.byte fun _ => 0) }

theorem opened_dinode (k : Nat) : dinode sb opened.img k = Dinode.zero := by
  have block : opened.img (sb.iblock k) = fun _ => 0 := by
    have other : sb.iblock k ≠ 1 := by
      rw [iblock_eq]
      omega
    exact Function.update_of_ne other (overlay 0 superblockSize sb.byte fun _ => 0) start.img
  rw [dinode, block]
  apply dinode_eq
  all_goals intros
  all_goals exact load_zero fun _ _ => rfl

theorem needed_nil : needed (fun _ => []) = ∅ := by
  ext ⟨k, n⟩
  rw [mem_needed]
  have free : ¬ Occupied 0 n := by
    unfold Occupied
    split_ifs with last
    · exact Nat.not_lt_zero _
    · exact Nat.not_lt_zero _
  simp [free]

theorem opened_sound : Sound opened (fun _ => 0) (fun _ => []) := by
  have slots (k n : Nat) : slotBlock opened.img (dinode sb opened.img k).addrs n = 0 := by
    rw [opened_dinode]
    exact slotBlock_zero
  refine ⟨⟨?_, ?_, ?_, ?_, ?_, ?_, ?_, ?_⟩, ⟨?_, ?_⟩, ?_, fun _ _ used => absurd rfl used, ?_, ?_⟩
  · rw [needed_nil]
    intro x member
    exact absurd member (Finset.notMem_empty x)
  · intro k n _ _
    rw [slots, needed_nil]
    simp
  · intro k n member
    rw [needed_nil] at member
    exact absurd member (Finset.notMem_empty _)
  · intro k n j m member
    rw [needed_nil] at member
    exact absurd member (Finset.notMem_empty _)
  · intro k i _ inside
    exact absurd inside (Nat.not_lt_zero i)
  · intro k i member
    rw [needed_nil] at member
    exact absurd member (Finset.notMem_empty _)
  · intro b i high _
    have data : b ≠ 1 := by
      have above : 46 ≤ b := high
      omega
    show Function.update start.img 1 _ b i = 0
    rw [Function.update_of_ne data]
    rfl
  · rw [needed_nil]
    rfl
  · intro k _
    exact Nat.zero_le _
  · rw [needed_nil]
    decide
  · intro k _
    rw [opened_dinode]
    rfl
  · intro k _
    rw [opened_dinode]
    rfl
  · show DiskSuperblock.ofBytes (Function.update start.img 1 _ 1) = sb
    rw [Function.update_self]
    exact ofBytes_byte _

theorem typesOf_nil : typesOf [] = Function.update (fun _ => 0) 1 tDir := by
  funext k
  by_cases root : k = 1
  · rw [root, Function.update_self]
    rfl
  · rw [Function.update_of_ne root, typesOf, if_neg root, if_neg]
    intro inside
    have bound : k < 2 := inside.2
    omega

theorem dataOf_nil : dataOf [] = extended (fun _ => []) 1 (direntBytes 1 dot ++ direntBytes 1 dotdot) := by
  funext k
  by_cases root : k = 1
  · rw [root, extended_self]
    rfl
  · rw [extended, Function.update_of_ne root, dataOf, if_neg root]
    simp

/-- The part of `main` that makes the root directory. -/
def makeRoot : M Nat := do
  let root ← ialloc tDir
  check (root = rootino.val)
  iappend root (direntBytes (BitVec.ofNat 16 root) dot)
  iappend root (direntBytes (BitVec.ofNat 16 root) dotdot)
  return root

/-- The part of `main` that rounds the size of the root directory and writes the free map. -/
def finish (root : Nat) : M Unit := do
  let din ← rinode root
  let off := (din.size / BitVec.ofNat 32 bsize + 1) * BitVec.ofNat 32 bsize
  winode root { din with size := off }
  let s ← get
  balloc s.freeblock

theorem main_eq (files : List HostFile) : main files = (do
    wsect 1 (overlay 0 superblockSize sb.byte fun _ => 0)
    let root ← makeRoot
    files.forM (addFile root)
    finish root) := by
  simp only [main, makeRoot, finish, bind_assoc, pure_bind]

theorem makeRoot_spec : Ensures makeRoot opened
    (fun root t => root = 1 ∧ Sound t (typesOf []) (dataOf []) ∧ t.freeinode = 2) fun _ => ¬ Fit (dataOf []) := by
  simp only [makeRoot, ensures_bind]
  refine (ialloc_spec opened_sound (by decide) rfl tDir).mono (fun root t after => ?_) fun _ stopped => stopped
  obtain ⟨first, counter, sound⟩ := after
  have one : root = 1 := first
  subst one
  rw [ensures_check]
  refine ⟨fun _ => ?_, fun wrong => absurd (by decide) wrong⟩
  have types : Function.update (fun _ => 0) opened.freeinode tDir = typesOf [] := typesOf_nil.symm
  rw [types] at sound
  have whole : extended (extended (fun _ => []) 1 (direntBytes 1 dot)) 1 (direntBytes 1 dotdot) = dataOf [] := by
    rw [extended_extended, dataOf_nil]
  refine (iappend_spec sound (by decide) _).mono (fun _ u after => ?_) fun _ stopped fit => stopped ?_
  · refine (iappend_spec after.1 (by decide) _).mono (fun _ v last => ?_) fun _ stopped fit => stopped ?_
    · rw [ensures_pure]
      refine ⟨rfl, ?_, ?_⟩
      · rw [← whole]
        exact last.1
      · rw [last.2, after.2, counter]
        rfl
    · rw [← whole] at fit
      exact fit
  · rw [dataOf_nil] at fit
    have part := fit.mono (extended_length (direntBytes 1 dot).length)
    rwa [List.take_left] at part

theorem rootBytes_length (files : List HostFile) : (rootBytes files).length = (files.length + 2) * direntSize := by
  have entries (f : Nat → HostFile → List Byte) (sized : ∀ i g, (f i g).length = direntSize) :
      (files.mapIdx f).flatten.length = files.length * direntSize := by
    induction files generalizing f with
    | nil => rw [List.mapIdx_nil, List.flatten_nil, List.length_nil, List.length_nil, Nat.zero_mul]
    | cons g files ih =>
        rw [List.mapIdx_cons, List.flatten_cons, List.length_append, sized, ih _ (fun i g => sized (i + 1) g),
          List.length_cons, Nat.succ_mul, Nat.add_comm]
  rw [rootBytes, List.length_append, List.length_append, direntBytes_length, direntBytes_length,
    entries entryOf fun _ _ => direntBytes_length _ _, Nat.add_mul]
  omega

/-- The state after the root directory and the free map are written. -/
def closed (s : State) (d : Dinode) : State :=
  { s with img := Function.update (written sb s.img 1 d) sb.bmapstart.toNat (markUsed s.freeblock) }

theorem closed_img {b : Nat} (other : b ≠ sb.bmapstart.toNat) (s : State) (d : Dinode) :
    (closed s d).img b = written sb s.img 1 d b := by
  show Function.update (written sb s.img 1 d) sb.bmapstart.toNat (markUsed s.freeblock) b = _
  rw [Function.update_of_ne other]

theorem closed_bitmap (s : State) (d : Dinode) : (closed s d).img sb.bmapstart.toNat = markUsed s.freeblock := by
  show Function.update (written sb s.img 1 d) sb.bmapstart.toNat (markUsed s.freeblock) sb.bmapstart.toNat = _
  rw [Function.update_self]

theorem closed_dinode {k : Nat} (small : k < ninodes) (s : State) (d : Dinode) :
    dinode sb (closed s d).img k = if k = 1 then d else dinode sb s.img k := by
  rw [← dinode_written, dinode, closed_img (Nat.ne_of_lt (iblock_lt small).1), dinode]

theorem closed_data {b : Nat} (high : nmeta ≤ b) (s : State) (d : Dinode) : (closed s d).img b = s.img b := by
  rw [closed_img (Nat.ne_of_gt (Nat.lt_of_lt_of_le (by decide) high)), written_data (by decide) _ _ high]

theorem finish_spec {stop : Stop → Prop} (sound : Sound s (typesOf files) (dataOf files))
    (counter : s.freeinode = files.length + 2) : Ensures (finish 1) s (fun _ t => Final files t) stop := by
  have small : 1 < ninodes := by decide
  have below : s.freeblock < bsize * 8 := by
    have room := sound.fit.room
    rw [← sound.layout.count] at room
    exact Nat.lt_of_le_of_lt room (by decide)
  simp only [finish, ensures_bind, ensures_rinode small, ensures_winode small, ensures_get, balloc, ensures_check,
    decide_eq_true_eq, below, true_implies, not_true_eq_false, false_implies, and_true, ensures_wsect]
  generalize blocks : (dinode sb s.img 1).size / BitVec.ofNat 32 bsize + 1 = count
  show Final files (closed s { dinode sb s.img 1 with size := count * BitVec.ofNat 32 bsize })
  constructor
  · refine sound.layout.congr (fun b high => closed_data high _ _) (fun j m inside _ => ?_)
    rw [closed_dinode inside]
    split_ifs with root
    · rw [root]
    · rfl
  · exact sound.fit
  · intro j inside
    rw [closed_dinode inside]
    split_ifs with root
    · rw [root]
      exact sound.type 1 small
    · exact sound.type j inside
  · intro j inside other
    rw [closed_dinode inside, if_neg other]
    exact sound.size j inside
  · have size : (dinode sb s.img 1).size.toNat = (rootBytes files).length := sound.size 1 small
    have bound : (rootBytes files).length ≤ 268 * 1024 := sound.fit.small 1 small
    rw [closed_dinode small, if_pos rfl]
    show (count * BitVec.ofNat 32 bsize).toNat = _
    rw [← blocks, roundedSize, BitVec.toNat_mul, BitVec.toNat_add, BitVec.toNat_udiv, size]
    show ((rootBytes files).length / 1024 + 1) % 2 ^ 32 * 1024 % 2 ^ 32 = ((rootBytes files).length / 1024 + 1) * 1024
    omega
  · rw [closed_img (by decide), written_super small]
    exact sound.super
  · exact closed_bitmap s _
  · exact counter
  · intro j inside used
    rw [closed_dinode inside]
    split_ifs with root
    · rw [root] at used
      exact sound.links 1 small used
    · exact sound.links j inside used

theorem main_spec (files : List HostFile) (few : files.length + 2 ≤ ninodes) :
    Ensures (main files) start (fun _ t => Final files t) fun _ => ¬ Acceptable files := by
  rw [main_eq, ensures_bind, ensures_wsect, ensures_bind]
  refine makeRoot_spec.mono (fun root t after => ?_) (fun _ stopped accepted => ?_)
  · obtain ⟨rfl, sound, counter⟩ := after
    rw [ensures_bind]
    refine (addFiles_spec files sound counter few).mono (fun _ u after => ?_) fun _ stopped => stopped
    exact finish_spec after.1 after.2
  · exact stopped (accepted.fit.mono (dataOf_length [] files))

/-- The image of acceptable files is written to its end. -/
theorem main_ok (few : files.length + 2 ≤ ninodes) (accepted : Acceptable files) :
    ∃ t, (main files).run start = .ok ((), t) ∧ Final files t := by
  have ensures := main_spec files few
  cases ran : (main files).run start with
  | error e => exact absurd accepted (ensures.error ran)
  | ok result => exact ⟨result.2, rfl, ensures.ok ran⟩

end Main

end Xv6.Mkfs
