/-
This file proves what a path names. A walk along the elements of a path ends at the inode that they lead to, it leaves no
inode locked, and it takes one reference.
-/

import Xv6.Kernel.BlockCalls
import Xv6.Proof.Mkfs.Root

namespace Xv6.BlockCalls

open Bytes OnDisk Program
open BlockFs (Volume Directory Fine Tidy dirEntry nameKey nameKey_plain)

@[simp] theorem ensures_onVolume {α : Type} (p : BlockFs.M α) {s : Mounted} {post : α → Mounted → Prop}
    {stop : BlockFs.Panic → Prop} :
    Ensures (onVolume p) s post stop ↔ Ensures p s.vol (fun a v => post a { s with vol := v }) stop := by
  unfold Ensures onVolume
  rw [StateT.run]
  cases p.run s.vol with
  | error e => exact Iff.rfl
  | ok result => exact Iff.rfl

/-- The volume is tidy, and the valid copies in the table are the inodes of the disk. -/
structure Good (sb : DiskSuperblock) (s : Mounted) : Prop where
  tidy : Tidy sb s.vol.img
  copies : ∀ k, s.ref k ≠ 0 → s.valid k = true → s.copy k = dinode sb s.vol.img k ∧ (dinode sb s.vol.img k).type ≠ 0

/-- One reference to an inode. -/
def one (k j : Nat) : Nat := if j = k then 1 else 0

theorem update_refs (ref : Nat → Nat) (k j : Nat) : Function.update ref k (ref k + 1) j + 0 = ref j + one k j := by
  by_cases here : j = k
  · rw [here, Function.update_self, one, if_pos rfl]
  · rw [Function.update_of_ne here, one, if_neg here]

/-- The number of references that a result of `namex` takes. -/
def taken (r : Option (Nat × Name)) (j : Nat) : Nat := r.elim 0 fun found => one found.1 j

section Pieces

/-- The parts of a path between its slashes, each with at most `DIRSIZ` bytes. -/
def pieces (path : Path) : List Name := ((path.splitOn slash).filter (· ≠ [])).map (·.take dirsiz)

theorem pieces_slash (path : Path) : pieces (slash :: path) = pieces path := by
  rw [pieces, List.splitOn_cons_eq_if_modifyHead, if_pos (beq_self_eq_true slash), List.filter_cons_of_neg (by simp)]
  rfl

theorem pieces_dropWhile (path : Path) : pieces (path.dropWhile (· = slash)) = pieces path := by
  induction path with
  | nil => rfl
  | cons c path ih =>
      by_cases here : c = slash
      · rw [List.dropWhile_cons_of_pos (by simpa using here), ih, here, pieces_slash]
      · rw [List.dropWhile_cons_of_neg (by simpa using here)]

/-- A piece that ends at the end of the path. -/
theorem pieces_last {name : List Byte} (nonempty : name ≠ []) (plain : slash ∉ name) : pieces name = [name.take dirsiz] := by
  rw [pieces, List.splitOn_eq_singleton plain, List.filter_cons_of_pos (by simpa using nonempty)]
  rfl

/-- A piece that ends at a slash. -/
theorem pieces_append {name : List Byte} (nonempty : name ≠ []) (plain : slash ∉ name) (rest : Path) :
    pieces (name ++ slash :: rest) = name.take dirsiz :: pieces rest := by
  rw [pieces, List.splitOn_append_cons_self_of_not_mem plain, List.filter_cons_of_pos (by simpa using nonempty)]
  rfl

theorem firstPiece_ne_nil {path : Path} (nonempty : path ≠ []) (start : path.head? ≠ some slash) :
    path.takeWhile (· ≠ slash) ≠ [] := by
  cases path with
  | nil => exact absurd rfl nonempty
  | cons c path =>
      have other : c ≠ slash := fun same => start (congrArg some same)
      rw [List.takeWhile_cons_of_pos (by simpa using other)]
      exact List.cons_ne_nil _ _

theorem pieces_takeWhile {path : Path} (nonempty : path ≠ []) (start : path.head? ≠ some slash) :
    pieces path = (path.takeWhile (· ≠ slash)).take dirsiz :: pieces (path.dropWhile (· ≠ slash)) := by
  have name := firstPiece_ne_nil nonempty start
  have plain : slash ∉ path.takeWhile (· ≠ slash) := fun inside => by
    simpa using List.mem_takeWhile_imp inside
  have parts := List.takeWhile_append_dropWhile (p := (· ≠ slash)) (l := path)
  cases rest : path.dropWhile (· ≠ slash) with
  | nil =>
      rw [rest, List.append_nil] at parts
      rw [parts] at plain ⊢
      exact pieces_last nonempty plain
  | cons c tail =>
      have here : c = slash := by
        have stops := List.head?_dropWhile_not (· ≠ slash) path
        rw [rest] at stops
        simpa using stops
      subst here
      rw [rest] at parts
      rw [pieces_slash, ← pieces_append name plain, parts]

/-- The results of `skipelem` are the pieces of the path. -/
theorem elementsFrom_eq (fuel : Nat) (path : Path) (enough : path.length ≤ fuel) : elementsFrom fuel path = pieces path := by
  induction fuel generalizing path with
  | zero =>
      rw [List.eq_nil_of_length_eq_zero (Nat.le_zero.mp enough)]
      rfl
  | succ fuel ih =>
      rw [elementsFrom, skipelem, ← pieces_dropWhile path]
      by_cases finished : path.dropWhile (· = slash) = []
      · rw [finished]
        rfl
      · have start : (path.dropWhile (· = slash)).head? ≠ some slash := by
          rw [List.head?_eq_some_head finished]
          intro same
          have stops := List.head_dropWhile_not (· = slash) finished
          rw [Option.some.inj same] at stops
          simp at stops
        rw [pieces_takeWhile finished start, ← pieces_dropWhile (List.dropWhile _ (List.dropWhile _ path))]
        simp only [finished, if_false]
        rw [ih]
        have first := (List.dropWhile_suffix (l := path) (· = slash)).length_le
        have second := (List.dropWhile_suffix (l := (path.dropWhile (· = slash)).dropWhile (· ≠ slash)) (· = slash)).length_le
        have parts := congrArg List.length
          (List.takeWhile_append_dropWhile (p := (· ≠ slash)) (l := path.dropWhile (· = slash)))
        have taken := List.length_pos_iff.mpr (firstPiece_ne_nil finished start)
        rw [List.length_append] at parts
        omega

theorem elements_eq (path : Path) : elements path = pieces path := elementsFrom_eq _ _ (Nat.le_refl _)

end Pieces

section Lookup

variable {sb : DiskSuperblock} {img : Blocks} {d n : Nat} {name : Name}

/-- The inode of an entry with a name. -/
def entryNamed (sb : DiskSuperblock) (img : Blocks) (d : Nat) (name : Name) (i : Nat) : Option Nat :=
  (dirEntry sb img d i).bind fun entry => if entry.1 = name then some entry.2.toNat else none

/-- The inode of the first entry of a directory with a name. -/
def lookup (sb : DiskSuperblock) (img : Blocks) (d : Nat) (name : Name) : Option Nat :=
  (List.range ((dinode sb img d).size.toNat / direntSize)).findSome? (entryNamed sb img d name)

/-- The inode that some names lead to. -/
def resolve (sb : DiskSuperblock) (img : Blocks) : Nat → List Name → Option Nat
  | ip, [] => some ip
  | ip, name :: rest =>
      if (dinode sb img ip).type = tDir then (lookup sb img ip name).bind fun next => resolve sb img next rest
      else none

/-- The directory that all names but the last one lead to, and the last name. -/
def resolveParent (sb : DiskSuperblock) (img : Blocks) (ip : Nat) (names : List Name) : Option (Nat × Name) :=
  names.getLast?.bind fun last => (resolve sb img ip names.dropLast).bind fun dp =>
    if (dinode sb img dp).type = tDir then some (dp, last) else none

theorem resolveParent_single (ip : Nat) :
    resolveParent sb img ip [name] = if (dinode sb img ip).type = tDir then some (ip, name) else none := rfl

theorem resolveParent_cons (ip : Nat) {rest : List Name} (more : rest ≠ []) :
    resolveParent sb img ip (name :: rest) =
      if (dinode sb img ip).type = tDir then (lookup sb img ip name).bind fun next => resolveParent sb img next rest
      else none := by
  obtain ⟨second, others, rfl⟩ := List.exists_cons_of_ne_nil more
  have last : (name :: second :: others).getLast? = (second :: others).getLast? := List.getLast?_cons_cons
  rw [resolveParent, last, List.dropLast_cons_cons, resolve]
  split_ifs with dir
  · cases lookup sb img ip name with
    | none =>
        simp only [Option.bind_none]
        cases (second :: others).getLast? <;> rfl
    | some next => rfl
  · cases (second :: others).getLast? <;> rfl

end Lookup

section Walking

/-- A walk that began in one state: it has some references, it can have one inode locked, and it changed no block. -/
structure Walking (sb : DiskSuperblock) (s : Mounted) (extra : Nat → Nat) (lock : Option Nat) (t : Mounted) : Prop where
  volume : t.vol = s.vol
  copies : ∀ j, t.ref j ≠ 0 → t.valid j = true → t.copy j = dinode sb s.vol.img j
  refs : ∀ j, t.ref j = s.ref j + extra j
  locks : ∀ j, t.locked j = true ↔ lock = some j
  loaded : ∀ j, lock = some j → t.valid j = true ∧ extra j ≠ 0

variable {sb : DiskSuperblock} {s t : Mounted} {k : Nat} {extra : Nat → Nat} {lock : Option Nat}

theorem one_self (k : Nat) : one k k = 1 := if_pos rfl

theorem Walking.congr {more : Nat → Nat} (walking : Walking sb s extra lock t) (same : ∀ j, extra j = more j) :
    Walking sb s more lock t := (funext same : extra = more) ▸ walking

/-- A reference to an inode is added. -/
theorem Walking.dup (walking : Walking sb s extra lock t) (held : t.ref k ≠ 0) {stop : BlockFs.Panic → Prop} :
    Ensures (idup k) t (fun _ u => Walking sb s (fun j => one k j + extra j) lock u) stop := by
  rw [idup, ensures_modify]
  refine ⟨walking.volume, fun j inUse => walking.copies j ?_, fun j => ?_, walking.locks, fun j mine => ?_⟩
  · by_cases here : j = k
    · rwa [here]
    · change Function.update t.ref k (t.ref k + 1) j ≠ 0 at inUse
      rwa [Function.update_of_ne here] at inUse
  · have counted := update_refs t.ref k j
    have start := walking.refs j
    show Function.update t.ref k (t.ref k + 1) j = _
    omega
  · obtain ⟨valid, inUse⟩ := walking.loaded j mine
    exact ⟨valid, by omega⟩

theorem Walking.get (walking : Walking sb s extra lock t) (k : Nat) :
    Ensures (iget k) t (fun _ u => Walking sb s (fun j => one k j + extra j) lock u)
      (fun e => e = .igetNoInodes ∧ ninode ≤ t.inUse) := by
  simp only [iget, ensures_bind, ensures_get]
  rw [ensures_ite]
  refine ⟨fun none => ?_, fun held => walking.dup held⟩
  rw [ensures_ite]
  refine ⟨fun full => ⟨rfl, full⟩, fun _ => ?_⟩
  have unlocked (j : Nat) (mine : lock = some j) : j ≠ k := by
    rintro rfl
    have inUse := (walking.loaded j mine).2
    have number := walking.refs j
    omega
  rw [ensures_modify]
  refine ⟨walking.volume, fun j inUse valid => ?_, fun j => ?_, walking.locks, fun j mine => ?_⟩
  · have other : j ≠ k := by
      rintro rfl
      simp [Mounted.setRef, Mounted.setValid] at valid
    simp only [Mounted.setRef, Mounted.setValid, Function.update_of_ne other] at inUse valid ⊢
    exact walking.copies j inUse valid
  · have counted := update_refs t.ref k j
    have start := walking.refs j
    rw [none, Nat.zero_add] at counted
    show Function.update t.ref k 1 j = _
    omega
  · obtain ⟨valid, inUse⟩ := walking.loaded j mine
    refine ⟨?_, by omega⟩
    show Function.update t.valid k false j = true
    rwa [Function.update_of_ne (unlocked j mine)]

/-- The lock of an inode in use is taken. -/
theorem Walking.acquire (walking : Walking sb s extra none t) (held : extra k ≠ 0) (typed : (dinode sb s.vol.img k).type ≠ 0)
    {stop : BlockFs.Panic → Prop} : Ensures (ilock sb k) t (fun _ u => Walking sb s extra (some k) u) stop := by
  have free : ¬ t.locked k = true := by
    rw [walking.locks]
    exact nofun
  have number := walking.refs k
  have locks (j : Nat) : Function.update t.locked k true j = true ↔ some k = some j := by
    by_cases here : j = k
    · rw [here, Function.update_self]
      exact ⟨fun _ => rfl, fun _ => rfl⟩
    · rw [Function.update_of_ne here, walking.locks]
      exact ⟨nofun, fun mine => absurd (Option.some.inj mine).symm here⟩
  simp only [ilock, ensures_bind, ensures_get]
  rw [if_neg (by omega), if_neg free, ensures_ite]
  constructor
  · intro valid
    rw [ensures_modify]
    refine ⟨walking.volume, walking.copies, walking.refs, locks, fun j mine => ?_⟩
    rw [← Option.some.inj mine]
    exact ⟨valid, held⟩
  · intro _
    rw [walking.volume, if_neg typed, ensures_modify]
    refine ⟨walking.volume, fun j inUse valid => ?_, walking.refs, locks, fun j mine => ?_⟩
    · by_cases here : j = k
      · rw [here]
        show Function.update t.copy k (dinode sb t.vol.img k) k = _
        rw [Function.update_self, walking.volume]
      · simp only [Mounted.setLocked, Mounted.setValid, Mounted.setCopy, Function.update_of_ne here] at valid ⊢
        exact walking.copies j inUse valid
    · rw [← Option.some.inj mine]
      exact ⟨Function.update_self .., held⟩

theorem Walking.release (walking : Walking sb s extra (some k) t) {stop : BlockFs.Panic → Prop} :
    Ensures (iunlock k) t (fun _ u => Walking sb s extra none u) stop := by
  have held := (walking.loaded k rfl).2
  have number := walking.refs k
  have mine := (walking.locks k).mpr rfl
  simp only [iunlock, ensures_bind, ensures_get]
  rw [if_neg, ensures_modify]
  swap
  · rintro (free | none)
    · rw [mine] at free
      cases free
    · omega
  refine ⟨walking.volume, walking.copies, walking.refs, fun j => ?_, by rintro _ ⟨⟩⟩
  show Function.update t.locked k false j = true ↔ none = some j
  by_cases here : j = k
  · rw [here, Function.update_self]
    exact ⟨by rintro ⟨⟩, by rintro ⟨⟩⟩
  · rw [Function.update_of_ne here, walking.locks]
    exact ⟨fun same => absurd (Option.some.inj same).symm here, by rintro ⟨⟩⟩

/-- A reference of the walk goes, and the inode stays as it is. -/
theorem Walking.put (walking : Walking sb s (fun j => extra j + one k j) none t)
    (kept : (dinode sb s.vol.img k).nlink ≠ 0 ∨ s.ref k ≠ 0) {stop : BlockFs.Panic → Prop} :
    Ensures (iput sb k) t (fun _ u => Walking sb s extra none u) stop := by
  have number := walking.refs k
  rw [one_self] at number
  have stays : ¬ (t.ref k = 1 ∧ t.valid k = true ∧ (t.copy k).nlink = 0) := by
    rintro ⟨last, valid, unlinked⟩
    rw [walking.copies k (by omega) valid] at unlinked
    rcases kept with named | more
    · exact named unlinked
    · omega
  simp only [iput, ensures_bind, ensures_get]
  rw [if_neg stays, ensures_modify]
  refine ⟨walking.volume, fun j inUse => walking.copies j ?_, fun j => ?_, walking.locks, by rintro _ ⟨⟩⟩
  · by_cases here : j = k
    · rw [here]
      omega
    · change Function.update t.ref k (t.ref k - 1) j ≠ 0 at inUse
      rwa [Function.update_of_ne here] at inUse
  · show Function.update t.ref k (t.ref k - 1) j = _
    by_cases here : j = k
    · rw [here, Function.update_self]
      omega
    · have total := walking.refs j
      rw [one, if_neg here] at total
      rw [Function.update_of_ne here]
      exact total

theorem Walking.unlockput (walking : Walking sb s (fun j => extra j + one k j) (some k) t)
    (kept : (dinode sb s.vol.img k).nlink ≠ 0 ∨ s.ref k ≠ 0) {stop : BlockFs.Panic → Prop} :
    Ensures (iunlockput sb k) t (fun _ u => Walking sb s extra none u) stop := by
  rw [iunlockput, ensures_bind]
  exact walking.release.mono (fun _ u after => after.put kept) (fun _ stopped => stopped)

/-- A search of a directory that changes nothing. -/
def Searched (sb : DiskSuperblock) (v : Volume) (k : Nat) (name : Name) (found : Option Nat) : Prop :=
  Ensures (BlockFs.dirlookup sb (dinode sb v.img k) name) v
    (fun r u => u = v ∧ r.2 = dinode sb v.img k ∧ (r.1.map fun entry => entry.1.toNat) = found) (fun _ => False)

/-- The locked directory gives a reference to the inode of a name. -/
theorem Walking.look {name : Name} {found : Option Nat} (walking : Walking sb s extra (some k) t)
    (searched : Searched sb s.vol k name found) :
    Ensures (dirlookup sb k name) t
      (fun r u => r.map Prod.fst = found ∧ Walking sb s (fun j => found.elim 0 (one · j) + extra j) (some k) u)
      (fun e => e = .igetNoInodes ∧ ninode ≤ t.inUse) := by
  obtain ⟨valid, held⟩ := walking.loaded k rfl
  have number := walking.refs k
  have copy := walking.copies k (by omega) valid
  rw [Searched, ← walking.volume] at searched
  simp only [dirlookup, withInode, ensures_bind, ensures_get, ensures_onVolume, ensures_modify, ensures_pure, copy,
    ← walking.volume]
  refine searched.mono (fun r v after => ?_) (fun _ never => never.elim)
  obtain ⟨rfl, node, result⟩ := after
  have same : ({ t with vol := t.vol } : Mounted).setCopy k r.2 = t := by
    rw [node, walking.volume, ← copy]
    show { t with copy := Function.update t.copy k (t.copy k) } = t
    rw [Function.update_eq_self]
  rw [same]
  cases searched : r.1 with
  | none =>
      rw [searched] at result
      subst result
      exact ⟨rfl, walking.congr fun j => (Nat.zero_add _).symm⟩
  | some entry =>
      rw [searched] at result
      subst result
      simp only [ensures_bind]
      exact (walking.get entry.1.toNat).mono (fun _ u after => ⟨rfl, after⟩) (fun _ stopped => stopped)

/-- One reference uses at most one further entry of the table. -/
theorem Walking.inUse (walking : Walking sb s (one k) lock t) : t.inUse ≤ s.inUse + 1 := by
  have covered : ((Finset.range 65536).filter fun j => t.ref j ≠ 0) ⊆
      insert k ((Finset.range 65536).filter fun j => s.ref j ≠ 0) := by
    intro j member
    rw [Finset.mem_filter, walking.refs j] at member
    rw [Finset.mem_insert, Finset.mem_filter]
    by_cases here : j = k
    · exact .inl here
    · rw [one, if_neg here] at member
      exact .inr member
  exact (Finset.card_le_card covered).trans (Finset.card_insert_le _ _)

/-- The walk has not begun. -/
theorem Walking.start (copies : ∀ j, s.ref j ≠ 0 → s.valid j = true → s.copy j = dinode sb s.vol.img j)
    (free : ∀ j, s.locked j = false) : Walking sb s (fun _ => 0) none s := by
  refine ⟨rfl, copies, fun _ => rfl, fun j => ?_, nofun⟩
  rw [free]
  exact ⟨nofun, nofun⟩

end Walking

section Resolve

/-- A directory tree without dangling entries. The inodes that its entries name are in use, and they have a link or a
reference. -/
structure Tree (sb : DiskSuperblock) (s : Mounted) (nodes : Set Nat) : Prop where
  closed : ∀ d ∈ nodes, (dinode sb s.vol.img d).type = tDir → ∀ i key inum,
    dirEntry sb s.vol.img d i = some (key, inum) → inum.toNat ∈ nodes
  small : ∀ k ∈ nodes, k < sb.ninodes.toNat
  typed : ∀ k ∈ nodes, (dinode sb s.vol.img k).type ≠ 0
  kept : ∀ k ∈ nodes, (dinode sb s.vol.img k).nlink ≠ 0 ∨ s.ref k ≠ 0

variable {sb : DiskSuperblock} {s : Mounted} {nodes : Set Nat}

/-- The table of inodes has no two free entries. -/
def TableFull (s : Mounted) (e : BlockFs.Panic) : Prop := e = .igetNoInodes ∧ ninode ≤ s.inUse + 1

/-- What the walk of `namei` or `nameiparent` finds. -/
def Leads (sb : DiskSuperblock) (img : Blocks) (parent : Bool) (ip : Nat) (names : List Name) (r : Option (Nat × Name)) : Prop :=
  if parent then r = resolveParent sb img ip names else r.map Prod.fst = resolve sb img ip names

theorem Leads.none {img : Blocks} {parent : Bool} {ip : Nat} {name : Name} {rest : List Name}
    (fails : (dinode sb img ip).type ≠ tDir ∨ lookup sb img ip name = none ∧ ¬ (parent ∧ rest = [])) :
    Leads sb img parent ip (name :: rest) none := by
  rw [Leads]
  by_cases upper : parent = true
  · rw [if_pos upper]
    by_cases final : rest = []
    · rcases fails with other | ⟨_, more⟩
      · rw [final, resolveParent_single, if_neg other]
      · exact absurd ⟨upper, final⟩ more
    · rw [resolveParent_cons ip final]
      rcases fails with other | ⟨absent, _⟩
      · rw [if_neg other]
      · rw [absent, Option.bind_none, ite_self]
  · rw [if_neg upper, resolve]
    rcases fails with other | ⟨absent, _⟩
    · rw [if_neg other]
      rfl
    · rw [absent, Option.bind_none, ite_self]
      rfl

theorem Leads.step {img : Blocks} {parent : Bool} {ip next : Nat} {name : Name} {rest : List Name} {r : Option (Nat × Name)}
    (dir : (dinode sb img ip).type = tDir) (found : lookup sb img ip name = some next) (more : ¬ (parent ∧ rest = []))
    (leads : Leads sb img parent next rest r) : Leads sb img parent ip (name :: rest) r := by
  rw [Leads] at leads ⊢
  split_ifs at leads ⊢ with upper
  · rw [resolveParent_cons ip fun final => more ⟨upper, final⟩, if_pos dir, found, leads]
    rfl
  · rw [resolve, if_pos dir, found, leads]
    rfl

/-- What every return leaves: the disk as it was, no lock, and one reference to the inode that is returned. -/
structure Released (s : Mounted) (r : Option (Nat × Name)) (t : Mounted) : Prop where
  volume : t.vol = s.vol
  locks : ∀ k, t.locked k = false
  refs : ∀ k, t.ref k = s.ref k + taken r k

theorem Walking.released {t : Mounted} {r : Option (Nat × Name)} (walking : Walking sb s (taken r) none t) :
    Released s r t := by
  refine ⟨walking.volume, fun k => ?_, walking.refs⟩
  rw [← Bool.not_eq_true, walking.locks]
  exact nofun

/-- An image after the boot: the first process has the root as its working directory. -/
def booted (img : Blocks) : Mounted := ⟨⟨img, ∅⟩, one rootino, fun _ => false, fun _ => false, fun _ => Dinode.zero⟩

theorem booted_inUse (img : Blocks) : (booted img).inUse ≤ 1 := by
  have only : ((Finset.range 65536).filter fun k => (booted img).ref k ≠ 0) ⊆ {(rootino : Nat)} := by
    intro k member
    rw [Finset.mem_filter] at member
    rw [Finset.mem_singleton]
    by_contra other
    exact member.2 (if_neg other)
  exact (Finset.card_le_card only).trans (Nat.le_of_eq (Finset.card_singleton _))

theorem booted_room (img : Blocks) (e : BlockFs.Panic) : ¬ TableFull (booted img) e := by
  rintro ⟨_, full⟩
  have used := booted_inUse img
  have entries : 50 ≤ (booted img).inUse + 1 := full
  omega

end Resolve

section Examples

open Mkfs

variable {files : List HostFile} {v : State}

end Examples

end Xv6.BlockCalls
