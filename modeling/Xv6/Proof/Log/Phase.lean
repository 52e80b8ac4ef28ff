/-
This file gives the invariant of the log machine. It says, for each position of the commit or of
recovery, how the disk, the cache and the history agree.
-/

import Xv6.Proof.Log.Store

namespace Xv6.Log
open RedoLog

/-- The writes of a transaction. -/
def writes (updates : List Update) : List (Nat × Block) :=
  updates.map fun update => (update.blockno, update.data)

/-- The home blocks after the transactions, in order. -/
def committedState (disk : Nat → Block) (committed : List (List Update)) : Nat → Block :=
  committed.foldl (fun state updates => applyAll state (writes updates)) disk

theorem committedState_append (disk : Nat → Block) (committed : List (List Update))
    (updates : List Update) :
    committedState disk (committed ++ [updates]) =
      applyAll (committedState disk committed) (writes updates) := by
  simp [committedState]

/-- While the transaction is open, the header in memory lists exactly its blocks. -/
structure Open (sb : Superblock) (store : Store) (lh : List Nat) (state : Nat → Block)
    (current : List Update) : Prop where
  nodup : lh.Nodup
  members : ∀ b, b ∈ lh ↔ ∃ update ∈ current, update.blockno = b
  home : ∀ b ∈ lh, (redoArea sb).Home b
  fits : lh.length ≤ (redoArea sb).room
  coherent : Coherent sb store (applyAll state (writes current)) lh

/-- The first slots of the log hold the new blocks. -/
def Copied (sb : Superblock) (store : Store) (lh : List Nat) (state : Nat → Block) (count : Nat) :
    Prop :=
  ∀ k (inside : k < lh.length), k < count →
    store.disk (sb.logBlock k) = state (lh.get ⟨k, inside⟩)

/-- The agreement at each position, for the given header on disk. -/
def Phase (sb : Superblock) (s : LogState) (state : Nat → Block) (current : List Update)
    (addrs : List Nat) : Prop :=
  match s.pc with
  | .idle => addrs = [] ∧ Open sb s.store s.lh state current
  | .finish => addrs = [] ∧ Open sb s.store s.lh state current
  | .writeLog tail =>
      addrs = [] ∧ Open sb s.store s.lh state current ∧
        Copied sb s.store s.lh (applyAll state (writes current)) tail
  | .writeHead =>
      addrs = [] ∧ Open sb s.store s.lh state current ∧
        Copied sb s.store s.lh (applyAll state (writes current)) s.lh.length
  | .install false tail =>
      addrs = s.lh ∧ current = [] ∧ s.lh.Nodup ∧ Coherent sb s.store state (s.lh.drop tail) ∧
        RedoLog.Installed s.store.disk s.lh state tail
  | .erase false =>
      addrs = s.lh ∧ current = [] ∧ Coherent sb s.store state [] ∧
        RedoLog.Installed s.store.disk s.lh state s.lh.length
  | .install true tail =>
      addrs = s.lh ∧ current = [] ∧ Clean s.store ∧ RedoLog.Installed s.store.disk s.lh state tail
  | .erase true =>
      addrs = s.lh ∧ current = [] ∧ Clean s.store ∧
        RedoLog.Installed s.store.disk s.lh state s.lh.length
  | .down => current = [] ∧ s.lh = [] ∧ Clean s.store

/-- The disk stands for the given state, and the rest of the machine agrees with it. -/
def Agrees (sb : Superblock) (s : LogState) (state : Nat → Block) (current : List Update) : Prop :=
  ∃ addrs, Stable (redoArea sb) s.store.disk addrs state ∧ Phase sb s state current addrs

section Advance

variable {sb : Superblock} {s : LogState} {state : Nat → Block} {current : List Update}

/-- An empty transaction is open over a settled store. -/
theorem open_empty {store : Store} (coherent : Coherent sb store state []) :
    Open sb store [] state [] where
  nodup := List.nodup_nil
  members := by simp
  home := by simp
  fits := Nat.zero_le _
  coherent := coherent

/-- `write_log` keeps the agreement. -/
theorem agrees_writeLog {tail : Nat} (position : s.pc = .writeLog tail)
    (agrees : Agrees sb s state current) : Agrees sb (s.advance sb) state current := by
  obtain ⟨addrs, stable, phase⟩ := agrees
  simp only [Phase, position] at phase
  obtain ⟨rfl, opened, copied⟩ := phase
  simp only [LogState.advance, position]
  split_ifs with inside
  · have room : tail < (redoArea sb).room := Nat.lt_of_lt_of_le inside opened.fits
    obtain ⟨coherent, disk⟩ := opened.coherent.writeLog inside room
      (opened.home _ (List.get_mem _ _))
    refine ⟨[], ?_, rfl, ⟨opened.nodup, opened.members, opened.home, opened.fits, coherent⟩,
      fun k bound before => ?_⟩
    · rw [disk]
      exact stable.write_slot room _
    · rw [disk]
      by_cases same : k = tail
      · subst same
        rw [Function.update_self]
      · have different : sb.logBlock k ≠ sb.logBlock tail :=
          fun equal => same ((redoArea sb).slot_injective equal)
        rw [Function.update_of_ne different]
        exact copied k bound (by omega)
  · have all : s.lh.length ≤ tail := Nat.le_of_not_lt inside
    exact ⟨[], stable, rfl, opened, fun k bound _ => copied k bound (Nat.lt_of_lt_of_le bound all)⟩

/-- The header write turns the open transaction into a committed one. -/
theorem agrees_writeHead (position : s.pc = .writeHead) (agrees : Agrees sb s state current) :
    Agrees sb (s.advance sb) (applyAll state (writes current)) [] := by
  obtain ⟨addrs, stable, phase⟩ := agrees
  simp only [Phase, position] at phase
  obtain ⟨rfl, opened, copied⟩ := phase
  have unchanged (a : Nat) (_ : (redoArea sb).Home a) (absent : a ∉ s.lh) :
      applyAll state (writes current) a = state a := by
    refine applyAll_other fun write member same => absent ?_
    obtain ⟨update, inside, rfl⟩ := List.mem_map.mp member
    exact (opened.members a).mpr ⟨update, inside, same⟩
  simp only [LogState.advance, position]
  refine ⟨s.lh, ?_, rfl, rfl, opened.nodup, opened.coherent.writeHead s.lh,
    fun _ _ impossible => absurd impossible (Nat.not_lt_zero _)⟩
  exact stable.commit opened.fits opened.home (fun k inside => copied k inside inside) unchanged _

/-- `install_trans` keeps the agreement during a commit. -/
theorem agrees_install {tail : Nat} (position : s.pc = .install false tail)
    (agrees : Agrees sb s state current) : Agrees sb (s.advance sb) state current := by
  obtain ⟨addrs, stable, phase⟩ := agrees
  simp only [Phase, position] at phase
  obtain ⟨rfl, rfl, nodup, coherent, installed⟩ := phase
  simp only [LogState.advance, position]
  split_ifs with inside
  · have room : tail < (redoArea sb).room := Nat.lt_of_lt_of_le inside stable.fits
    have split : s.lh.drop tail = s.lh.get ⟨tail, inside⟩ :: s.lh.drop (tail + 1) :=
      List.drop_eq_getElem_cons inside
    have distinct := nodup.sublist (List.drop_sublist tail s.lh)
    rw [split] at coherent distinct
    obtain ⟨after, disk⟩ := coherent.installTrans inside (List.nodup_cons.mp distinct).1 room
      (stable.home _ (List.get_mem _ _)) (stable.logged tail inside)
    refine ⟨s.lh, ?_, rfl, rfl, nodup, after, ?_⟩
    · rw [disk]
      exact stable.install inside
    · rw [disk]
      exact stable.installed_succ inside installed
  · have all : s.lh.length ≤ tail := Nat.le_of_not_lt inside
    rw [List.drop_of_length_le all] at coherent
    exact ⟨s.lh, stable, rfl, rfl, coherent,
      fun k bound _ => installed k bound (Nat.lt_of_lt_of_le bound all)⟩

/-- `install_trans` keeps the agreement during recovery. -/
theorem agrees_recover {tail : Nat} (position : s.pc = .install true tail)
    (agrees : Agrees sb s state current) : Agrees sb (s.advance sb) state current := by
  obtain ⟨addrs, stable, phase⟩ := agrees
  simp only [Phase, position] at phase
  obtain ⟨rfl, rfl, clean, installed⟩ := phase
  simp only [LogState.advance, position]
  split_ifs with inside
  · obtain ⟨after, disk⟩ := clean.installTrans sb inside
    refine ⟨s.lh, ?_, rfl, rfl, after, ?_⟩
    · rw [disk]
      exact stable.install inside
    · rw [disk]
      exact stable.installed_succ inside installed
  · have all : s.lh.length ≤ tail := Nat.le_of_not_lt inside
    exact ⟨s.lh, stable, rfl, rfl, clean,
      fun k bound _ => installed k bound (Nat.lt_of_lt_of_le bound all)⟩

/-- Erasing the header keeps the agreement. -/
theorem agrees_erase {recovering : Bool} (position : s.pc = .erase recovering)
    (agrees : Agrees sb s state current) : Agrees sb (s.advance sb) state current := by
  obtain ⟨addrs, stable, phase⟩ := agrees
  cases recovering with
  | false =>
      simp only [Phase, position] at phase
      obtain ⟨rfl, rfl, coherent, installed⟩ := phase
      simp only [LogState.advance, position]
      exact ⟨[], stable.erase installed _, rfl, open_empty (coherent.writeHead [])⟩
  | true =>
      simp only [Phase, position] at phase
      obtain ⟨rfl, rfl, clean, installed⟩ := phase
      simp only [LogState.advance, position]
      refine ⟨[], stable.erase installed _, rfl, open_empty ?_⟩
      exact (clean.coherent fun b home => stable.home_eq installed home).writeHead []

/-- Reading the header after a crash keeps the agreement. -/
theorem agrees_boot (position : s.pc = .down) (agrees : Agrees sb s state current) :
    Agrees sb (s.advance sb) state current := by
  obtain ⟨addrs, stable, phase⟩ := agrees
  simp only [Phase, position] at phase
  obtain ⟨rfl, _, clean⟩ := phase
  have head : readHead ((s.store.fetch sb.logstart).bread sb.logstart) = addrs := by
    rw [bread_fetch, clean.bread]
    exact stable.header
  simp only [LogState.advance, position]
  exact ⟨addrs, stable, head.symm, rfl, clean.fetch _,
    fun _ _ impossible => absurd impossible (Nat.not_lt_zero _)⟩

/-- Every step of the commit and of recovery, but for the header write, keeps the agreement. -/
theorem agrees_advance (other : s.pc ≠ .writeHead) (agrees : Agrees sb s state current) :
    Agrees sb (s.advance sb) state current := by
  cases position : s.pc with
  | idle => simpa [LogState.advance, position] using agrees
  | writeLog tail => exact agrees_writeLog position agrees
  | writeHead => exact absurd position other
  | install recovering tail =>
      cases recovering with
      | false => exact agrees_install position agrees
      | true => exact agrees_recover position agrees
  | erase recovering => exact agrees_erase position agrees
  | finish =>
      obtain ⟨addrs, stable, phase⟩ := agrees
      simp only [Phase, position] at phase
      simp only [LogState.advance, position]
      exact ⟨addrs, stable, phase⟩
  | down => exact agrees_boot position agrees

end Advance

end Xv6.Log
