/-
This file proves that calls of `dirlink` and the removal of entries keep a directory equal to a finite map.
-/

import Xv6.Proof.BlockFs.Directory

namespace Xv6.BlockFs

open Bytes OnDisk Program SlotTable

section Calls

variable {sb : DiskSuperblock} {v : Volume} {k n : Nat} {name : Name} {stop : Panic → Prop}

/-- The bytes of a source in kernel memory. -/
theorem kernel_bytes {bytes : List Byte} {n : Nat} (length : bytes.length = n) :
    (List.range n).map (Source.kernel bytes).byte = bytes := by
  subst length
  apply List.ext_getElem
  · rw [List.length_map, List.length_range]
  · intro i first second
    rw [List.getElem_map, List.getElem_range]
    exact List.getD_eq_getElem _ _ second

/-- A write of an entry, which fails only if the file is too long or has no room. -/
theorem writeEntry_spec (geometry : Geometry sb) (dir : Directory sb v.img k n) {bytes : List Byte} {j : Nat} (most : j ≤ n) :
    Ensures (writei sb k (.kernel bytes) (dinode sb v.img k) (BitVec.ofNat 32 (direntSize * j)) (BitVec.ofNat 32 direntSize)) v
      (fun r t => (r = (none, dinode sb v.img k) ∧ t = v ∧ maxfile * bsize < direntSize * j + direntSize) ∨
        direntSize * j + direntSize ≤ maxfile * bsize ∧
          ∃ tot, r.1 = some tot ∧ Replaced sb k (.kernel bytes) (direntSize * j) direntSize v tot r.2 t) stop := by
  have bound := dir.bound
  have place : (BitVec.ofNat 32 (direntSize * j) : Uint).toNat = direntSize * j := by
    rw [BitVec.toNat_ofNat]
    show 16 * j % 2 ^ 32 = 16 * j
    omega
  have length : (BitVec.ofNat 32 direntSize : Uint).toNat = direntSize := rfl
  have start : direntSize * j ≤ (dinode sb v.img k).size.toNat := by
    rw [dir.size]
    exact Nat.mul_le_mul_left _ most
  refine (writei_spec geometry dir.sound dir.small dir.whole dir.typed).mono (fun r t after => ?_) (fun _ stopped => stopped)
  rw [place, length] at after
  split_ifs at after with valid
  · exact .inr ⟨valid.2, after⟩
  · refine .inl ⟨after.1, after.2, ?_⟩
    by_contra fits
    exact valid ⟨start, Nat.not_lt.mp fits⟩

/-- An entry before the end has its block. -/
theorem Replaced.inside {t : Volume} {src : Source} {ip : Dinode} {j tot : Nat}
    (replaced : Replaced sb k src (direntSize * j) direntSize v tot ip t) (kernel : src.limit = none)
    (dir : Directory sb v.img k n) (inside : j < n) : tot = direntSize := by
  obtain ⟨spliced, whole | ⟨_, _, empty⟩⟩ := replaced.entry kernel dir.whole
  · exact whole
  · refine absurd empty (spliced.whole dir.whole _ ?_)
    rw [spliced.size, dir.size]
    have below : direntSize * j / bsize * bsize ≤ direntSize * j := Nat.div_mul_le_self _ _
    have before : direntSize * j < direntSize * n := Nat.mul_lt_mul_of_pos_left inside (by decide)
    exact Nat.lt_of_le_of_lt below (Nat.lt_of_lt_of_le before (Nat.le_max_left _ _))

/-- An entry goes into the first free slot of the directory, or the directory cannot grow for it. -/
def Entered (sb : DiskSuperblock) (k n : Nat) (name : Name) (target : Nat) (v : Volume) (r : Bool × Dinode) (t : Volume) : Prop :=
  ∃ j, j ≤ n ∧ dirEntry sb v.img k j = none ∧ (∀ m, m < j → dirEntry sb v.img k m ≠ none) ∧
    ((r = (false, dinode sb v.img k) ∧ t = v ∧ maxfile * bsize < direntSize * j + direntSize) ∨
      direntSize * j + direntSize ≤ maxfile * bsize ∧
        ∃ tot, Replaced sb k (.kernel (direntBytes (BitVec.ofNat 16 target) name)) (direntSize * j) direntSize v tot
          r.2 t ∧ r.1 = decide (tot = direntSize))

/-- A new entry is written into the first free one. -/
theorem linkEntry_spec (geometry : Geometry sb) (dir : Directory sb v.img k n) (name : Name) (target : Nat) :
    Ensures (linkEntry sb k (dinode sb v.img k) name target) v (Entered sb k n name target v) stop := by
  have count : n < 0 + ((dinode sb v.img k).size.toNat / direntSize + 1) := by
    rw [dir.size]
    show n < 0 + (16 * n / 16 + 1)
    omega
  rw [linkEntry, ensures_bind]
  refine (emptyLoop_spec dir _ 0 (Nat.zero_le _) count (fun j low => absurd low (Nat.not_lt_zero j))).mono
    (fun r u after => ?_) (fun _ stopped => stopped)
  obtain ⟨off, dp⟩ := r
  obtain ⟨rfl, node, j, place, most, free, used⟩ := after
  have same : dp = dinode sb u.img k := node
  have offset : off = direntSize * j := place
  subst same offset
  rw [ensures_bind]
  refine (writeEntry_spec geometry dir most).mono (fun r t after => ?_) (fun _ stopped => stopped)
  obtain ⟨count, ip⟩ := r
  rw [ensures_pure]
  refine ⟨j, most, free, used, ?_⟩
  rcases after with ⟨failed, same, long⟩ | ⟨fits, tot, count', replaced⟩
  · obtain ⟨rfl, rfl⟩ := Prod.mk.inj failed
    exact .inl ⟨rfl, same, long⟩
  · refine .inr ⟨fits, tot, replaced, ?_⟩
    have number : count = some tot := count'
    subst number
    simp

/-- `dirlink` stops at an entry of the name, or it writes the first free entry. -/
theorem dirlink_spec (geometry : Geometry sb) (dir : Directory sb v.img k n) (name : Name) (target : Nat) :
    Ensures (dirlink sb k (dinode sb v.img k) name target) v
      (fun r t => (r = (false, dinode sb v.img k) ∧ t = v ∧ ∃ j inum, dirEntry sb v.img k j = some (nameKey name, inum)) ∨
        (∀ j inum, dirEntry sb v.img k j ≠ some (nameKey name, inum)) ∧ Entered sb k n name target v r t) stop := by
  rw [dirlink, ensures_bind]
  refine (dirlookup_spec dir name).mono (fun r t after => ?_) (fun _ stopped => stopped)
  obtain ⟨found, dp⟩ := r
  obtain ⟨rfl, node, ⟨j, inum, result, entry⟩ | ⟨result, absent⟩⟩ := after
  · have same : dp = dinode sb t.img k := node
    have present : found = some (inum, direntSize * j) := result
    subst same present
    exact .inl ⟨rfl, rfl, j, inum, entry⟩
  · have same : dp = dinode sb t.img k := node
    have missing : found = none := result
    subst same missing
    exact (linkEntry_spec geometry dir name target).mono (fun r u after => .inr ⟨absent, after⟩) (fun _ stopped => stopped)

/-- A slot of the directory is free. -/
def HasRoom (sb : DiskSuperblock) (img : Blocks) (k n : Nat) : Prop := ∃ i, i < n ∧ dirEntry sb img k i = none

/-- The map after `dirlink`, and when the call fails. -/
theorem dirlink_map {map : List Byte → Option (BitVec 16)} {target : Nat} (geometry : Geometry sb)
    (dir : Directory sb v.img k n) (table : Represents (dirEntry sb v.img k) map) (plain : 0 ∉ name)
    (positive : 0 < target) (short : target < 65536) :
    Ensures (dirlink sb k (dinode sb v.img k) name target) v
      (fun r t => r.2 = dinode sb t.img k ∧ (∃ m, Directory sb t.img k m) ∧
        (r.1 = false → dirEntry sb t.img k = dirEntry sb v.img k) ∧
        (r.1 = true → map (nameKey name) = none ∧ ∃ j, dirEntry sb v.img k j = none ∧ dirEntry sb t.img k =
          Function.update (dirEntry sb v.img k) j (some (nameKey name, BitVec.ofNat 16 target))) ∧
        (r.1 = false ↔ map (nameKey name) ≠ none ∨ ¬ HasRoom sb v.img k n ∧ ¬ CanGrow sb v.img k)) stop := by
  have used : (BitVec.ofNat 16 target) ≠ 0 := by
    intro zero
    have number := congrArg BitVec.toNat zero
    rw [BitVec.toNat_ofNat] at number
    have none : target % 2 ^ 16 = 0 := number
    omega
  refine (dirlink_spec geometry dir name target).mono (fun r t after => ?_) (fun _ stopped => stopped)
  rcases after with ⟨rfl, rfl, j, inum, entry⟩ | ⟨absent, j, most, free, full, outcome⟩
  · have held := (table.rows (nameKey name) inum).mpr ⟨j, entry⟩
    refine ⟨rfl, ⟨n, dir⟩, fun _ => rfl, nofun, fun _ => .inl ?_, fun _ => rfl⟩
    rw [held]
    exact nofun
  have unknown : map (nameKey name) = none := by
    cases held : map (nameKey name) with
    | none => rfl
    | some inum =>
        obtain ⟨i, entry⟩ := (table.rows _ _).mp held
        exact absurd entry (absent i inum)
  have room : HasRoom sb v.img k n ↔ j < n := by
    constructor
    · rintro ⟨i, inside, empty⟩
      by_contra beyond
      exact full i (by omega) empty
    · intro inside
      exact ⟨j, inside, free⟩
  rcases outcome with ⟨rfl, rfl, long⟩ | ⟨fits, tot, replaced, result⟩
  · refine ⟨rfl, ⟨n, dir⟩, fun _ => rfl, nofun, fun _ => .inr ?_, fun _ => rfl⟩
    have bound := dir.bound
    have beyond : 268 * 1024 < 16 * j + 16 := long
    rw [room, CanGrow, dir.size]
    refine ⟨by omega, fun grow => ?_⟩
    have inside : 16 * n + 16 ≤ 268 * 1024 := grow.1
    omega
  obtain ⟨spliced, ends⟩ := replaced.entry rfl dir.whole
  have node : r.2 = dinode sb t.img k := replaced.mine.symm
  have fails : ¬ tot = direntSize ↔ ¬ HasRoom sb v.img k n ∧ ¬ CanGrow sb v.img k := by
    by_cases inside : j < n
    · exact ⟨fun short => absurd (replaced.inside rfl dir inside) short, fun both => absurd (room.mpr inside) both.1⟩
    · have last : j = n := by omega
      subst last
      rw [room, CanGrow, dir.size, replaced.grows rfl dir.small dir.sound dir.whole]
      refine ⟨fun few => ⟨inside, fun grow => few grow.2⟩, fun both enough => both.2 ⟨fits, enough⟩⟩
  refine ⟨node, ?_, fun failed => ?_, fun done => ⟨unknown, j, free, ?_⟩, ?_⟩
  · rcases ends with whole | ⟨zero, _⟩
    · rw [whole] at spliced
      exact ⟨_, (spliced.entries dir most).1⟩
    · rw [zero] at spliced
      exact ⟨_, (spliced.unchanged dir most).1⟩
  · rw [result, decide_eq_false_iff_not] at failed
    rcases ends with whole | ⟨zero, _⟩
    · exact absurd whole failed
    · rw [zero] at spliced
      exact (spliced.unchanged dir most).2
  · rw [result, decide_eq_true_eq] at done
    rw [done] at spliced
    rw [(spliced.entries dir most).2, kernel_bytes (direntBytes_length _ _), decodeEntry_bytes used plain]
  · rw [result, decide_eq_false_iff_not, fails]
    refine ⟨.inr, fun either => ?_⟩
    rcases either with known | both
    · exact absurd unknown known
    · exact both

/-- An entry of the directory is cleared. -/
theorem clearEntry_spec (geometry : Geometry sb) (dir : Directory sb v.img k n) {j : Nat} (inside : j < n) :
    Ensures (clearEntry sb k (dinode sb v.img k) (direntSize * j)) v
      (fun ip t => Replaced sb k (.kernel (List.replicate direntSize 0)) (direntSize * j) direntSize v direntSize ip t ∧
        Directory sb t.img k n ∧ dirEntry sb t.img k = Function.update (dirEntry sb v.img k) j none) stop := by
  have bound := dir.bound
  rw [clearEntry, ensures_bind]
  refine (writeEntry_spec geometry dir (Nat.le_of_lt inside)).mono (fun r t after => ?_) (fun _ stopped => stopped)
  obtain ⟨count, ip⟩ := r
  rcases after with ⟨_, _, long⟩ | ⟨_, tot, count', replaced⟩
  · have beyond : 268 * 1024 < 16 * j + 16 := long
    omega
  have number : count = some tot := count'
  subst number
  have all : tot = direntSize := replaced.inside rfl dir inside
  subst all
  have spliced := (replaced.entry rfl dir.whole).1
  obtain ⟨after, entries⟩ := spliced.entries dir (Nat.le_of_lt inside)
  have same : max n (j + 1) = n := by omega
  rw [same] at after
  rw [kernel_bytes (List.length_replicate ..), decodeEntry_zero] at entries
  show Ensures (if some direntSize ≠ some direntSize then throw Panic.unlinkWritei else pure ip) t _ stop
  rw [if_neg (not_not.mpr rfl), ensures_pure]
  exact ⟨replaced, after, entries⟩

end Calls

section Runs

/-- A call that changes a directory. -/
inductive DirCall where
  | link (name : Name) (target : Nat)
  | clear (name : Name)

/-- The name of a call. -/
def DirCall.name : DirCall → Name
  | .link name _ => name
  | .clear name => name

/-- The names are C strings, and inode numbers fit into an entry. -/
def DirCall.Valid : DirCall → Prop
  | .link name target => 0 ∉ name ∧ 0 < target ∧ target < 65536
  | .clear name => 0 ∉ name

/-- `dirlink`, or the removal of the entry that `dirlookup` has found. -/
def DirCall.run (sb : DiskSuperblock) (k : Nat) : DirCall → M Bool
  | .link name target => do
      let v ← get
      let (done, _) ← dirlink sb k (dinode sb v.img k) name target
      return done
  | .clear name => do
      let v ← get
      match ← dirlookup sb (dinode sb v.img k) name with
      | (none, _) => return false
      | (some (_, off), dp) =>
          let _ ← clearEntry sb k dp off
          return true

/-- Calls one after another, with their results. -/
def runCalls (sb : DiskSuperblock) (k : Nat) : List DirCall → M (List (DirCall × Bool))
  | [] => return []
  | call :: rest => do
      let done ← call.run sb k
      let results ← runCalls sb k rest
      return (call, done) :: results

/-- The map after a call with its result. -/
def DirCall.apply (map : List Byte → Option (BitVec 16)) : DirCall × Bool → List Byte → Option (BitVec 16)
  | (.link name target, true) => Function.update map (name.take dirsiz) (some (BitVec.ofNat 16 target))
  | (.clear name, true) => Function.update map (name.take dirsiz) none
  | (_, false) => map

/-- The inode number of the last successful `dirlink` of each name that is not removed. -/
def lastLinks (results : List (DirCall × Bool)) : List Byte → Option (BitVec 16) :=
  results.foldl DirCall.apply fun _ => none

variable {sb : DiskSuperblock} {v : Volume} {k n : Nat} {stop : Panic → Prop} {map : List Byte → Option (BitVec 16)}

/-- A directory and the map that it represents. -/
structure Maps (sb : DiskSuperblock) (img : Blocks) (k n : Nat) (map : List Byte → Option (BitVec 16)) : Prop where
  dir : Directory sb img k n
  table : Represents (dirEntry sb img k) map

/-- `dirlookup` gives what the map gives. -/
theorem dirlookup_map (maps : Maps sb v.img k n map) (name : Name) :
    Ensures (dirlookup sb (dinode sb v.img k) name) v
      (fun r t => t = v ∧ r.2 = dinode sb v.img k ∧ match map (nameKey name) with
        | some inum => ∃ j, r.1 = some (inum, direntSize * j) ∧ dirEntry sb v.img k j = some (nameKey name, inum)
        | none => r.1 = none) stop := by
  refine (dirlookup_spec maps.dir name).mono (fun r t after => ?_) (fun _ stopped => stopped)
  obtain ⟨state, node, ⟨j, inum, result, entry⟩ | ⟨result, absent⟩⟩ := after
  · have held := (maps.table.rows _ _).mpr ⟨j, entry⟩
    refine ⟨state, node, ?_⟩
    rw [held]
    exact ⟨j, result, entry⟩
  · refine ⟨state, node, ?_⟩
    cases held : map (nameKey name) with
    | none => exact result
    | some inum =>
        obtain ⟨j, entry⟩ := (maps.table.rows _ _).mp held
        exact absurd entry (absent j inum)

/-- A call changes the map at its name only, and at most one entry, which was free or of this name. -/
theorem call_map (geometry : Geometry sb) (maps : Maps sb v.img k n map) {call : DirCall} (valid : call.Valid) :
    Ensures (call.run sb k) v
      (fun done t => (∃ m, Maps sb t.img k m (DirCall.apply map (call, done))) ∧
        ∀ j key inum, key ≠ nameKey call.name →
          (dirEntry sb t.img k j = some (key, inum) ↔ dirEntry sb v.img k j = some (key, inum))) stop := by
  cases call with
  | link name target =>
      obtain ⟨plain, positive, short⟩ := valid
      rw [DirCall.run, ensures_bind, ensures_get, ensures_bind]
      refine (dirlink_map geometry maps.dir maps.table plain positive short).mono (fun r t after => ?_)
        (fun _ stopped => stopped)
      obtain ⟨done, dp⟩ := r
      obtain ⟨_, ⟨m, dir⟩, failed, linked, _⟩ := after
      rw [ensures_pure]
      cases done with
      | false =>
          have same := failed rfl
          refine ⟨⟨m, dir, ?_⟩, fun j key inum _ => by rw [same]⟩
          rw [same]
          exact maps.table
      | true =>
          obtain ⟨unknown, j, free, entries⟩ := linked rfl
          refine ⟨⟨m, dir, ?_⟩, fun i key inum other => ?_⟩
          · rw [entries]
            have table : Represents _ (Function.update map (nameKey name) (some (BitVec.ofNat 16 target))) :=
              maps.table.put free unknown
            rw [nameKey_plain plain] at table ⊢
            exact table
          · rw [entries]
            by_cases here : i = j
            · rw [here, Function.update_self, free]
              refine ⟨fun same => ?_, nofun⟩
              exact absurd (Prod.mk.inj (Option.some.inj same)).1.symm other
            · rw [Function.update_of_ne here]
  | clear name =>
      rw [DirCall.run, ensures_bind, ensures_get, ensures_bind]
      refine (dirlookup_spec maps.dir name).mono (fun r t after => ?_) (fun _ stopped => stopped)
      obtain ⟨found, dp⟩ := r
      obtain ⟨rfl, node, ⟨j, inum, result, entry⟩ | ⟨result, absent⟩⟩ := after
      · have same : dp = dinode sb t.img k := node
        have present : found = some (inum, direntSize * j) := result
        subst same present
        have inside : j < n := by
          by_contra beyond
          have after : ¬ direntSize * j < (dinode sb t.img k).size.toNat := by
            rw [maps.dir.size]
            exact Nat.not_lt.mpr (Nat.mul_le_mul_left _ (Nat.not_lt.mp beyond))
          rw [dirEntry, if_neg after] at entry
          cases entry
        rw [ensures_bind]
        refine (clearEntry_spec geometry maps.dir inside).mono (fun ip u after => ?_) (fun _ stopped => stopped)
        obtain ⟨_, dir, entries⟩ := after
        rw [ensures_pure]
        refine ⟨⟨n, dir, ?_⟩, fun i key number other => ?_⟩
        · rw [entries]
          have table := maps.table.clear entry
          have plain : 0 ∉ name := valid
          rw [nameKey_plain plain] at table
          exact table
        · rw [entries]
          by_cases here : i = j
          · rw [here, Function.update_self, entry]
            refine ⟨nofun, fun same => ?_⟩
            exact absurd (Prod.mk.inj (Option.some.inj same)).1.symm other
          · rw [Function.update_of_ne here]
      · have missing : found = none := result
        subst missing
        exact ⟨⟨n, maps⟩, fun _ _ _ _ => Iff.rfl⟩

/-- The map after a run of calls. -/
theorem runCalls_map (geometry : Geometry sb) (calls : List DirCall) (valid : ∀ call ∈ calls, call.Valid)
    (maps : Maps sb v.img k n map) :
    Ensures (runCalls sb k calls) v
      (fun results t => ∃ m, Maps sb t.img k m (results.foldl DirCall.apply map)) stop := by
  induction calls generalizing v n map with
  | nil => exact ⟨n, maps⟩
  | cons call rest ih =>
      rw [runCalls, ensures_bind]
      refine (call_map geometry maps (valid call (List.mem_cons_self ..))).mono (fun done t after => ?_)
        (fun _ stopped => stopped)
      obtain ⟨⟨m, maps'⟩, _⟩ := after
      rw [ensures_bind]
      refine (ih (fun c member => valid c (List.mem_cons_of_mem _ member)) maps').mono (fun results u after => ?_)
        (fun _ stopped => stopped)
      rw [ensures_pure]
      exact after

/-- In a directory that starts without entries, no two entries have the same name, `dirlookup` gives the last `dirlink` of
a name that is not removed, `dirlink` fails only for a name that is there or without room, and no call changes the
result for another name. -/
theorem directory_is_map (calls : List DirCall) (geometry : Geometry sb) (dir : Directory sb v.img k n)
    (empty : ∀ i, dirEntry sb v.img k i = none) (valid : ∀ call ∈ calls, call.Valid) :
    Ensures (runCalls sb k calls) v
      (fun results t =>
        (∀ i j x y, dirEntry sb t.img k i = some x → dirEntry sb t.img k j = some y → x.1 = y.1 → i = j) ∧
        (∀ name, 0 ∉ name → Ensures (dirlookup sb (dinode sb t.img k) name) t
          (fun r u => u = t ∧ match lastLinks results (name.take dirsiz) with
            | some inum => ∃ j, r.1 = some (inum, direntSize * j) ∧ dirEntry sb t.img k j = some (name.take dirsiz, inum)
            | none => r.1 = none) (fun _ => False)) ∧
        (∀ name target, 0 ∉ name → 0 < target → target < 65536 → Ensures (dirlink sb k (dinode sb t.img k) name target) t
          (fun r _ => r.1 = false ↔ lastLinks results (name.take dirsiz) ≠ none ∨
            (∀ i, direntSize * i < (dinode sb t.img k).size.toNat → dirEntry sb t.img k i ≠ none) ∧ ¬ CanGrow sb t.img k)
          (fun _ => False)) ∧
        ∀ (call : DirCall) name, call.Valid → 0 ∉ name → name.take dirsiz ≠ call.name.take dirsiz →
          Ensures (dirlookup sb (dinode sb t.img k) name) t
            (fun before _ => Ensures (call.run sb k) t
              (fun _ u => Ensures (dirlookup sb (dinode sb u.img k) name) u
                (fun after _ => after.1 = before.1) (fun _ => False)) (fun _ => False)) (fun _ => False))
      (fun _ => False) := by
  refine (runCalls_map geometry calls valid ⟨dir, represents_empty empty⟩).mono (fun results t after => ?_)
    (fun _ stopped => stopped)
  obtain ⟨m, maps⟩ := after
  refine ⟨maps.table.once, fun name plain => ?_, fun name target plain positive short => ?_,
    fun call name valid plain other => ?_⟩
  · have key := nameKey_plain plain
    refine (dirlookup_map maps name).mono (fun r u after => ?_) (fun _ stopped => stopped)
    rw [key] at after
    exact ⟨after.1, after.2.2⟩
  · refine (dirlink_map geometry maps.dir maps.table plain positive short).mono (fun r u after => ?_)
      (fun _ stopped => stopped)
    rw [nameKey_plain plain] at after
    have room : ¬ HasRoom sb t.img k m ↔
        ∀ i, direntSize * i < (dinode sb t.img k).size.toNat → dirEntry sb t.img k i ≠ none := by
      rw [maps.dir.size, HasRoom]
      push Not
      refine forall_congr' fun i => ?_
      have same : i < m ↔ direntSize * i < direntSize * m := by
        show i < m ↔ 16 * i < 16 * m
        omega
      rw [same]
    rw [← room]
    exact after.2.2.2.2
  · have callPlain : 0 ∉ call.name := by
      cases call with
      | link name target => exact valid.1
      | clear name => exact valid
    have keys : nameKey name ≠ nameKey call.name := by
      rwa [nameKey_plain plain, nameKey_plain callPlain]
    refine (dirlookup_spec maps.dir name).mono (fun before u first => ?_) (fun _ stopped => stopped)
    refine (call_map geometry maps valid).mono (fun done w second => ?_) (fun _ stopped => stopped)
    obtain ⟨⟨m', maps'⟩, kept⟩ := second
    refine (dirlookup_spec maps'.dir name).mono (fun after _ third => ?_) (fun _ stopped => stopped)
    obtain ⟨_, _, ⟨j, inum, result, entry⟩ | ⟨result, absent⟩⟩ := first
    · have there := (kept j _ inum keys).mpr entry
      obtain ⟨_, _, ⟨i, number, result', entry'⟩ | ⟨_, absent'⟩⟩ := third
      · obtain ⟨rfl, rfl⟩ := maps'.table.unique entry' there
        rw [result, result']
      · exact absurd there (absent' j inum)
    · obtain ⟨_, _, ⟨i, number, _, entry'⟩ | ⟨result', _⟩⟩ := third
      · exact absurd ((kept i _ number keys).mp entry') (absent i number)
      · rw [result, result']

end Runs

section Examples

open Mkfs

/-- The image of `mkfs` in which a free inode is made a directory. -/
def withDirectory (s : State) : Volume :=
  ⟨written sb s.img 3 { Dinode.zero with type := tDir }, {sb.iblock 3}⟩

/-- The new directory has no entries. -/
theorem withDirectory_empty {s : State} (final : Final [wordFile] s) :
    Directory sb (withDirectory s).img 3 0 ∧ ∀ i, dirEntry sb (withDirectory s).img 3 i = none := by
  have sound : Sound sb s.img (dinode sb s.img) := final.sound (by decide) (by decide)
  have small : 3 < sb.ninodes.toNat := by decide
  have unused : (dinode sb s.img 3).type = 0 := by
    rw [final.type 3 (by decide)]
    decide
  have none (m : Nat) (high : m ≤ maxfile) : slotBlock s.img (dinode sb s.img 3).addrs m = 0 := by
    have empty := (sound.unused 3 small unused).2 m
    rw [slotOf_inside small high] at empty
    exact BitVec.eq_of_toNat_eq empty
  have after : Sound sb (withDirectory s).img (dinode sb (withDirectory s).img) :=
    (sound.renode (fun m high => slotBlock_zero.trans (none m high).symm) (Nat.zero_le _)
      fun free => absurd free (by decide)).written geometry_sb small fun _ _ => rfl
  have node : dinode sb (withDirectory s).img 3 = { Dinode.zero with type := tDir } :=
    (dinode_written ..).trans (if_pos rfl)
  have size : (dinode sb (withDirectory s).img 3).size.toNat = 0 := by rw [node]; rfl
  refine ⟨⟨after, small, fun m inside => ?_, ?_, size⟩, fun i => ?_⟩
  · rw [size] at inside
    exact absurd inside (Nat.not_lt_zero _)
  · rw [node]
  · rw [dirEntry, size, if_neg (Nat.not_lt_zero _)]

set_option maxRecDepth 4000 in
/-- Two names are linked into the new directory, and one of them is removed. -/
theorem two_links_map : ∃ s, (main [wordFile]).run start = .ok ((), s) ∧
    Ensures (runCalls sb 3 [.link [97] 1, .link [98] 2, .clear [97]]) (withDirectory s)
      (fun _ t => ∀ i j x y, dirEntry sb t.img 3 i = some x → dirEntry sb t.img 3 j = some y → x.1 = y.1 → i = j)
      (fun _ => False) := by
  obtain ⟨s, ran, final⟩ := wordFile_image
  obtain ⟨dir, empty⟩ := withDirectory_empty final
  refine ⟨s, ran, ?_⟩
  have valid : ∀ call ∈ [DirCall.link [97] 1, .link [98] 2, .clear [97]], call.Valid := by
    intro call member
    simp only [List.mem_cons, List.not_mem_nil, or_false] at member
    rcases member with rfl | rfl | rfl
    · exact ⟨by decide, by decide, by decide⟩
    · exact ⟨by decide, by decide, by decide⟩
    · show 0 ∉ ([97] : Name)
      decide
  have map := directory_is_map (v := withDirectory s) _ geometry_sb dir empty valid
  exact map.mono (fun _ t after => after.1) (fun _ stopped => stopped)

end Examples

end Xv6.BlockFs
