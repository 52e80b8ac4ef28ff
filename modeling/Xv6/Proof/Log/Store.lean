/-
This file relates the buffer cache to the disk. Outside recovery every buffer of a home block shows
the current state, and during recovery every buffer shows the disk.
-/

import Xv6.Kernel.LogSystem
import Xv6.Lib.RedoLog

namespace Xv6.Log
open RedoLog

/-- The header holds what was stored in it. -/
theorem readHead_fillHead (lh : List Nat) (block : Block) (fits : lh.length + 1 ≤ bsize / 4) :
    readHead (fillHead lh block) = lh := by
  have count : wordAt (fillHead lh block) 0 = lh.length := by simp [wordAt, fillHead, bsize]
  apply List.ext_getElem
  · simp [readHead, count]
  · intro i left right
    have inside : i + 1 < bsize / 4 := by omega
    have entry : wordAt (fillHead lh block) (i + 1) = lh[i] := by
      simp [wordAt, fillHead, dif_pos inside, List.getElem?_eq_getElem right]
    simpa [readHead] using entry

/-- The log area of the file system as an area of the redo log. -/
def redoArea (sb : Superblock) : Area Nat Block where
  header := sb.logstart
  slot := sb.logBlock
  room := min logsize (sb.nlog - 1)
  decode := readHead
  encode := fillHead
  slot_injective := fun i j same => by
    simp only [Superblock.logBlock] at same
    omega
  slot_ne_header := fun k => by
    simp only [Superblock.logBlock]
    omega
  decode_encode := fun lh block fits => readHead_fillHead lh block (by
    have bound := Nat.le_trans fits (Nat.min_le_left _ _)
    simp only [logsize, maxopblocks, bsize] at bound ⊢
    omega)

/-- A home block lies outside the part of the log area that the log uses. -/
theorem home_area {sb : Superblock} {b : Nat} (home : sb.Home b) : (redoArea sb).Home b := by
  have header := sb.header
  refine ⟨fun same => ?_, fun k inside same => ?_⟩
  · change b = sb.logstart at same
    rcases home with before | after <;> omega
  · change b = sb.logstart + k + 1 at same
    have bound : k < sb.nlog - 1 := Nat.lt_of_lt_of_le inside (Nat.min_le_right _ _)
    rcases home with before | after <;> omega

/-- The header block is not a home block. -/
theorem header_not_home (sb : Superblock) : ¬ (redoArea sb).Home sb.logstart :=
  fun home => home.1 rfl

/-- A log block is not a home block. -/
theorem logBlock_not_home {sb : Superblock} {k : Nat} (inside : k < (redoArea sb).room) :
    ¬ (redoArea sb).Home (sb.logBlock k) :=
  fun home => home.2 k inside rfl

section Fetch

variable (s : Store) (b : Nat)

@[simp] theorem fetch_disk : (s.fetch b).disk = s.disk := rfl

@[simp] theorem fetch_pins : (s.fetch b).pins = s.pins := rfl

@[simp] theorem bread_fetch (a : Nat) : (s.fetch b).bread a = s.bread a := by
  by_cases same : a = b
  · simp [Store.bread, Store.fetch, same]
  · simp [Store.bread, Store.fetch, same]

end Fetch

/-- Every buffer shows the disk and no buffer is pinned. -/
structure Clean (s : Store) : Prop where
  same : ∀ b data, s.cache b = some data → data = s.disk b
  pins : ∀ b, s.pins b = 0

section Clean

variable {s : Store}

theorem Clean.bread (clean : Clean s) (b : Nat) : s.bread b = s.disk b := by
  unfold Store.bread
  cases cached : s.cache b with
  | none => rfl
  | some data => exact clean.same b data cached

theorem Clean.fetch (clean : Clean s) (b : Nat) : Clean (s.fetch b) := by
  refine ⟨fun a data cached => ?_, clean.pins⟩
  by_cases same : a = b
  · subst same
    simp only [Store.fetch, Function.update_self, Option.some.injEq] at cached
    exact cached ▸ clean.bread a
  · exact clean.same a data (by simpa [Store.fetch, same] using cached)

theorem Clean.bwrite (clean : Clean s) (b : Nat) (block : Block) : Clean (s.bwrite b block) := by
  refine ⟨fun a data cached => ?_, clean.pins⟩
  by_cases same : a = b
  · subst same
    simp only [Store.bwrite, Function.update_self, Option.some.injEq] at cached ⊢
    exact cached.symm
  · simp only [Store.bwrite, Function.update_of_ne same] at cached ⊢
    exact clean.same a data cached

theorem Clean.evict (clean : Clean s) (b : Nat) :
    Clean { s with cache := Function.update s.cache b none } := by
  refine ⟨fun a data cached => ?_, clean.pins⟩
  by_cases same : a = b
  · simp [same] at cached
  · exact clean.same a data (by simpa [same] using cached)

/-- The cache is empty after a crash. -/
theorem clean_crash (s : Store) : Clean s.crash :=
  ⟨fun _ _ cached => (nomatch cached), fun _ => rfl⟩

/-- One iteration of the recovery loop copies a log block to its home. -/
theorem Clean.installTrans (clean : Clean s) (sb : Superblock) {lh : List Nat} {tail : Nat}
    (inside : tail < lh.length) :
    Clean (installTrans sb lh true tail s) ∧
      (installTrans sb lh true tail s).disk =
        Function.update s.disk (lh.get ⟨tail, inside⟩) (s.disk (sb.logBlock tail)) := by
  have entry : lh[tail]? = some (lh.get ⟨tail, inside⟩) := List.getElem?_eq_getElem inside
  have step : Xv6.installTrans sb lh true tail s =
      (s.fetch (sb.logBlock tail)).bwrite (lh.get ⟨tail, inside⟩) (s.disk (sb.logBlock tail)) := by
    simp only [Xv6.installTrans, entry, bread_fetch, clean.bread, if_true]
  rw [step]
  exact ⟨(clean.fetch _).bwrite _ _, rfl⟩

end Clean

/-- Every buffer of a home block shows the state. The listed blocks are pinned, and every other home
block has the same contents on disk. -/
structure Coherent (sb : Superblock) (s : Store) (state : Nat → Block) (pinned : List Nat) : Prop where
  home : ∀ b, (redoArea sb).Home b → ∀ data, s.cache b = some data → data = state b
  log : ∀ b, ¬ (redoArea sb).Home b → ∀ data, s.cache b = some data → data = s.disk b
  held : ∀ b ∈ pinned, (s.cache b).isSome
  pins : ∀ b, s.pins b = if b ∈ pinned then 1 else 0
  settled : ∀ b, (redoArea sb).Home b → b ∉ pinned → s.disk b = state b

section Coherent

variable {sb : Superblock} {s : Store} {state : Nat → Block} {pinned : List Nat}

/-- A clean store is coherent with the disk once every home block is settled. -/
theorem Clean.coherent (clean : Clean s)
    (settled : ∀ b, (redoArea sb).Home b → s.disk b = state b) : Coherent sb s state [] where
  home := fun b home data cached => (clean.same b data cached).trans (settled b home)
  log := fun b _ data cached => clean.same b data cached
  held := fun _ impossible => absurd impossible List.not_mem_nil
  pins := fun b => by simp [clean.pins b]
  settled := fun b home _ => settled b home

theorem Coherent.bread_home (coherent : Coherent sb s state pinned) {b : Nat}
    (home : (redoArea sb).Home b) : s.bread b = state b := by
  unfold Store.bread
  cases cached : s.cache b with
  | none =>
      have free : b ∉ pinned := fun member => by simpa [cached] using coherent.held b member
      exact coherent.settled b home free
  | some data => exact coherent.home b home data cached

theorem Coherent.bread_log (coherent : Coherent sb s state pinned) {b : Nat}
    (log : ¬ (redoArea sb).Home b) : s.bread b = s.disk b := by
  unfold Store.bread
  cases cached : s.cache b with
  | none => rfl
  | some data => exact coherent.log b log data cached

/-- Reading a block keeps the store coherent. -/
theorem Coherent.fetch (coherent : Coherent sb s state pinned) (b : Nat) :
    Coherent sb (s.fetch b) state pinned := by
  refine ⟨fun a home data cached => ?_, fun a log data cached => ?_, fun a member => ?_,
    coherent.pins, coherent.settled⟩
  · by_cases same : a = b
    · subst same
      simp only [Store.fetch, Function.update_self, Option.some.injEq] at cached
      exact cached ▸ coherent.bread_home home
    · exact coherent.home a home data (by simpa [Store.fetch, same] using cached)
  · by_cases same : a = b
    · subst same
      simp only [Store.fetch, Function.update_self, Option.some.injEq] at cached
      exact cached ▸ coherent.bread_log log
    · exact coherent.log a log data (by simpa [Store.fetch, same] using cached)
  · by_cases same : a = b
    · simp [Store.fetch, same]
    · simpa [Store.fetch, same] using coherent.held a member

/-- A buffer without a pin may leave the cache. -/
theorem Coherent.evict (coherent : Coherent sb s state pinned) {b : Nat} (free : s.pins b = 0) :
    Coherent sb { s with cache := Function.update s.cache b none } state pinned := by
  have unpinned : b ∉ pinned := fun member => by
    have pins := coherent.pins b
    rw [if_pos member, free] at pins
    omega
  refine ⟨fun a home data cached => ?_, fun a log data cached => ?_, fun a member => ?_,
    coherent.pins, coherent.settled⟩
  · by_cases same : a = b
    · simp [same] at cached
    · exact coherent.home a home data (by simpa [same] using cached)
  · by_cases same : a = b
    · simp [same] at cached
    · exact coherent.log a log data (by simpa [same] using cached)
  · have different : a ≠ b := fun same => unpinned (same ▸ member)
    simpa [different] using coherent.held a member

/-- A write into the log area keeps the store coherent. -/
theorem Coherent.bwrite_log (coherent : Coherent sb s state pinned) {b : Nat}
    (log : ¬ (redoArea sb).Home b) (block : Block) :
    Coherent sb (s.bwrite b block) state pinned := by
  have different {a : Nat} (home : (redoArea sb).Home a) : a ≠ b := fun same => log (same ▸ home)
  refine ⟨fun a home data cached => ?_, fun a notHome data cached => ?_, fun a member => ?_,
    coherent.pins, fun a home free => ?_⟩
  · exact coherent.home a home data (by simpa [Store.bwrite, different home] using cached)
  · by_cases same : a = b
    · subst same
      simp only [Store.bwrite, Function.update_self, Option.some.injEq] at cached ⊢
      exact cached.symm
    · simp only [Store.bwrite, Function.update_of_ne same] at cached ⊢
      exact coherent.log a notHome data cached
  · by_cases same : a = b
    · simp [Store.bwrite, same]
    · simpa [Store.bwrite, same] using coherent.held a member
  · simpa [Store.bwrite, different home] using coherent.settled a home free

/-- The header write keeps the store coherent and changes the header only. -/
theorem Coherent.writeHead (coherent : Coherent sb s state pinned) (lh : List Nat) :
    Coherent sb (writeHead sb lh s) state pinned :=
  coherent.bwrite_log (header_not_home sb) _

theorem writeHead_disk (sb : Superblock) (lh : List Nat) (s : Store) :
    (writeHead sb lh s).disk =
      Function.update s.disk sb.logstart (fillHead lh (s.bread sb.logstart)) :=
  rfl

/-- One iteration of `write_log` copies the state of a logged block into its slot. -/
theorem Coherent.writeLog (coherent : Coherent sb s state pinned) {lh : List Nat} {tail : Nat}
    (inside : tail < lh.length) (room : tail < (redoArea sb).room)
    (home : (redoArea sb).Home (lh.get ⟨tail, inside⟩)) :
    Coherent sb (writeLog sb lh tail s) state pinned ∧
      (writeLog sb lh tail s).disk =
        Function.update s.disk (sb.logBlock tail) (state (lh.get ⟨tail, inside⟩)) := by
  have entry : lh[tail]? = some (lh.get ⟨tail, inside⟩) := List.getElem?_eq_getElem inside
  have step : Xv6.writeLog sb lh tail s =
      ((s.fetch (sb.logBlock tail)).fetch (lh.get ⟨tail, inside⟩)).bwrite (sb.logBlock tail)
        (state (lh.get ⟨tail, inside⟩)) := by
    simp only [Xv6.writeLog, entry, bread_fetch, coherent.bread_home home]
  rw [step]
  exact ⟨((coherent.fetch _).fetch _).bwrite_log (logBlock_not_home room) _, rfl⟩

/-- One iteration of `install_trans` settles a pinned block and takes its pin away. -/
theorem Coherent.installTrans {lh rest : List Nat} {tail : Nat} (inside : tail < lh.length)
    (coherent : Coherent sb s state (lh.get ⟨tail, inside⟩ :: rest))
    (fresh : lh.get ⟨tail, inside⟩ ∉ rest) (room : tail < (redoArea sb).room)
    (home : (redoArea sb).Home (lh.get ⟨tail, inside⟩))
    (logged : s.disk (sb.logBlock tail) = state (lh.get ⟨tail, inside⟩)) :
    Coherent sb (installTrans sb lh false tail s) state rest ∧
      (installTrans sb lh false tail s).disk =
        Function.update s.disk (lh.get ⟨tail, inside⟩) (s.disk (sb.logBlock tail)) := by
  generalize member : lh.get ⟨tail, inside⟩ = b at *
  have entry : lh[tail]? = some b := (List.getElem?_eq_getElem inside).trans (congrArg some member)
  have step : Xv6.installTrans sb lh false tail s =
      ((s.fetch (sb.logBlock tail)).bwrite b (state b)).bunpin b := by
    simp only [Xv6.installTrans, entry, bread_fetch, coherent.bread_log (logBlock_not_home room),
      logged, Bool.false_eq_true, if_false]
  have fetched := coherent.fetch (sb.logBlock tail)
  rw [step, logged]
  refine ⟨⟨fun a inHome data cached => ?_, fun a notHome data cached => ?_, fun a pinned => ?_,
    fun a => ?_, fun a inHome free => ?_⟩, rfl⟩
  · by_cases same : a = b
    · subst same
      simp only [Store.bunpin, Store.bwrite, Function.update_self, Option.some.injEq] at cached
      exact cached.symm
    · exact fetched.home a inHome data (by simpa [Store.bunpin, Store.bwrite, same] using cached)
  · have different : a ≠ b := fun same => notHome (same ▸ home)
    simp only [Store.bunpin, Store.bwrite, Function.update_of_ne different] at cached ⊢
    exact fetched.log a notHome data cached
  · have different : a ≠ b := fun same => fresh (same ▸ pinned)
    simpa [Store.bunpin, Store.bwrite, different] using
      fetched.held a (List.mem_cons_of_mem _ pinned)
  · have pins := coherent.pins a
    by_cases same : a = b
    · subst same
      simp [Store.bunpin, Store.bwrite, pins, fresh]
    · simpa [Store.bunpin, Store.bwrite, same] using pins
  · by_cases same : a = b
    · simp [Store.bunpin, Store.bwrite, same]
    · simpa [Store.bunpin, Store.bwrite, same] using
        coherent.settled a inHome (by simp [same, free])

/-- A block that an operation fills again stays pinned. -/
theorem Coherent.absorb (coherent : Coherent sb s state pinned) {b : Nat}
    (home : (redoArea sb).Home b) (data : Block) (logged : b ∈ pinned) :
    Coherent sb { s with cache := Function.update s.cache b (some data) }
      (Function.update state b data) pinned := by
  refine ⟨fun a inHome block cached => ?_, fun a notHome block cached => ?_, fun a member => ?_,
    coherent.pins, fun a inHome free => ?_⟩
  · by_cases same : a = b
    · subst same
      simp only [Function.update_self, Option.some.injEq] at cached ⊢
      exact cached.symm
    · simp only [Function.update_of_ne same] at cached ⊢
      exact coherent.home a inHome block cached
  · have different : a ≠ b := fun same => notHome (same ▸ home)
    exact coherent.log a notHome block (by simpa [different] using cached)
  · by_cases same : a = b
    · simp [same]
    · simpa [same] using coherent.held a member
  · have different : a ≠ b := fun same => free (same ▸ logged)
    simpa [different] using coherent.settled a inHome free

/-- A block that an operation logs for the first time gets a pin. -/
theorem Coherent.log_new (coherent : Coherent sb s state pinned) {b : Nat}
    (home : (redoArea sb).Home b) (data : Block) (new : b ∉ pinned) :
    Coherent sb (Store.bpin { s with cache := Function.update s.cache b (some data) } b)
      (Function.update state b data) (pinned ++ [b]) := by
  refine ⟨fun a inHome block cached => ?_, fun a notHome block cached => ?_, fun a member => ?_,
    fun a => ?_, fun a inHome free => ?_⟩
  · by_cases same : a = b
    · subst same
      simp only [Store.bpin, Function.update_self, Option.some.injEq] at cached ⊢
      exact cached.symm
    · simp only [Store.bpin, Function.update_of_ne same] at cached ⊢
      exact coherent.home a inHome block cached
  · have different : a ≠ b := fun same => notHome (same ▸ home)
    exact coherent.log a notHome block (by simpa [Store.bpin, different] using cached)
  · by_cases same : a = b
    · simp [Store.bpin, same]
    · simpa [Store.bpin, same] using coherent.held a (by simpa [same] using member)
  · have pins := coherent.pins a
    by_cases same : a = b
    · subst same
      simpa [Store.bpin, new] using pins
    · simpa [Store.bpin, same] using pins
  · have different : a ≠ b := fun same => free (by simp [same])
    simpa [Store.bpin, different] using
      coherent.settled a inHome fun member => free (List.mem_append_left _ member)

end Coherent

end Xv6.Log
