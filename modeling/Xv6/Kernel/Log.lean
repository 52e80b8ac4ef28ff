/-
This file gives the redo log of the file system and the part of the buffer cache that it uses.
Every function here does at most one disk write, except for `recoverFromLog`.
-/

import Xv6.Kernel.Param
import Xv6.Lib.Run

namespace Xv6

/-- A disk block holds 32-bit words. The header keeps its count in word zero and its block numbers
in the words after it. -/
abbrev Block := Fin (bsize / 4) → Nat

/-- The fields of the superblock that place the log. The log has at least its header block. -/
structure Superblock where
  logstart : Nat
  nlog : Nat
  header : 0 < nlog

/-- `mkfs` puts the log after the boot block and the superblock. -/
def mkfsSuperblock : Superblock := ⟨2, logsize, by decide⟩

/-- A home block lies outside the log area. -/
def Superblock.Home (sb : Superblock) (b : Nat) : Prop :=
  b < sb.logstart ∨ sb.logstart + sb.nlog ≤ b

instance (sb : Superblock) (b : Nat) : Decidable (sb.Home b) := inferInstanceAs (Decidable (_ ∨ _))

/-- The log block that belongs to one entry of the header. -/
def Superblock.logBlock (sb : Superblock) (tail : Nat) : Nat := sb.logstart + tail + 1

def wordAt (block : Block) (i : Nat) : Nat :=
  if inside : i < bsize / 4 then block ⟨i, inside⟩ else 0

/-- `read_head` copies the count and that many block numbers. -/
def readHead (block : Block) : List Nat :=
  (List.range (wordAt block 0)).map fun i => wordAt block (i + 1)

/-- `write_head` fills the count and the block numbers and keeps the other words. -/
def fillHead (lh : List Nat) (block : Block) : Block := fun i =>
  if i.val = 0 then lh.length else (lh[i.val - 1]?).getD (block i)

/-- The disk and the buffer cache. A pin is a reference that keeps a buffer in the cache. -/
structure Store where
  disk : Nat → Block
  cache : Nat → Option Block
  pins : Nat → Nat

/-- The block that `bread` returns. -/
def Store.bread (s : Store) (b : Nat) : Block := (s.cache b).getD (s.disk b)

/-- The store after `bread` and `brelse`. -/
def Store.fetch (s : Store) (b : Nat) : Store :=
  { s with cache := Function.update s.cache b (some (s.bread b)) }

/-- `bwrite` of a buffer that has just been filled. -/
def Store.bwrite (s : Store) (b : Nat) (data : Block) : Store :=
  { s with disk := Function.update s.disk b data, cache := Function.update s.cache b (some data) }

def Store.bpin (s : Store) (b : Nat) : Store :=
  { s with pins := Function.update s.pins b (s.pins b + 1) }

def Store.bunpin (s : Store) (b : Nat) : Store :=
  { s with pins := Function.update s.pins b (s.pins b - 1) }

/-- A crash keeps only the disk. -/
def Store.crash (s : Store) : Store := ⟨s.disk, fun _ => none, fun _ => 0⟩

section Steps

variable (sb : Superblock) (lh : List Nat)

/-- One iteration of `write_log`. -/
def writeLog (tail : Nat) (s : Store) : Store :=
  match lh[tail]? with
  | some b =>
      let fetched := (s.fetch (sb.logBlock tail)).fetch b
      fetched.bwrite (sb.logBlock tail) (fetched.bread b)
  | none => s

/-- `write_head` writes the header in memory to disk. -/
def writeHead (s : Store) : Store :=
  s.bwrite sb.logstart (fillHead lh (s.bread sb.logstart))

/-- One iteration of `install_trans`. -/
def installTrans (recovering : Bool) (tail : Nat) (s : Store) : Store :=
  match lh[tail]? with
  | some b =>
      let fetched := s.fetch (sb.logBlock tail)
      let written := fetched.bwrite b (fetched.bread (sb.logBlock tail))
      if recovering then written else written.bunpin b
  | none => s

end Steps

/-- `recover_from_log` installs the transaction in the log and erases the header. -/
def recoverFromLog (sb : Superblock) (s : Store) : Store :=
  let fetched := s.fetch sb.logstart
  let lh := readHead (fetched.bread sb.logstart)
  let installed := (List.range lh.length).foldl
    (fun store tail => installTrans sb lh true tail store) fetched
  writeHead sb [] installed

/-- The position of the thread that runs `commit` or `recover_from_log`. -/
inductive LogPc where
  | idle
  | writeLog (tail : Nat)
  | writeHead
  | install (recovering : Bool) (tail : Nat)
  | erase (recovering : Bool)
  | finish
  | down
  deriving DecidableEq

/-- The record `log`, the store, and the position of the commit. -/
structure LogState where
  store : Store
  outstanding : Nat
  committing : Bool
  lh : List Nat
  pc : LogPc

inductive LogPanic where
  | tooBig
  | outsideOfTrans
  | committing
  deriving DecidableEq

/-- `begin_op` gives `none` while it has to sleep. -/
def LogState.beginOp (s : LogState) : Option LogState :=
  if s.committing then none
  else if logsize < s.lh.length + (s.outstanding + 1) * maxopblocks then none
  else some { s with outstanding := s.outstanding + 1 }

/-- `log_write` of a buffer that its caller has filled. A block that is in the log is absorbed. -/
def LogState.logWrite (sb : Superblock) (b : Nat) (data : Block) (s : LogState) :
    Except LogPanic LogState :=
  let filled := { s.store with cache := Function.update s.store.cache b (some data) }
  if logsize ≤ s.lh.length ∨ sb.nlog - 1 ≤ s.lh.length then .error .tooBig
  else if s.outstanding < 1 then .error .outsideOfTrans
  else if b ∈ s.lh then .ok { s with store := filled }
  else .ok { s with store := filled.bpin b, lh := s.lh ++ [b] }

/-- `end_op` starts the commit when no other operation is left. -/
def LogState.endOp (s : LogState) : Except LogPanic LogState :=
  let left := { s with outstanding := s.outstanding - 1 }
  if s.committing then .error .committing
  else if left.outstanding = 0 then
    .ok { left with committing := true, pc := if 0 < s.lh.length then .writeLog 0 else .finish }
  else .ok left

/-- The next step of `commit`, of the end of `end_op`, or of `initlog` after a crash. -/
def LogState.advance (sb : Superblock) (s : LogState) : LogState :=
  match s.pc with
  | .idle => s
  | .writeLog tail =>
      if tail < s.lh.length then
        { s with store := writeLog sb s.lh tail s.store, pc := .writeLog (tail + 1) }
      else { s with pc := .writeHead }
  | .writeHead => { s with store := writeHead sb s.lh s.store, pc := .install false 0 }
  | .install recovering tail =>
      if tail < s.lh.length then
        { s with store := installTrans sb s.lh recovering tail s.store
                 pc := .install recovering (tail + 1) }
      else { s with pc := .erase recovering }
  | .erase recovering =>
      { s with store := writeHead sb [] s.store, lh := []
               pc := if recovering then .idle else .finish }
  | .finish => { s with committing := false, pc := .idle }
  | .down =>
      let fetched := s.store.fetch sb.logstart
      { s with store := fetched, lh := readHead (fetched.bread sb.logstart), pc := .install true 0 }

/-- A crash loses everything but the disk. -/
def LogState.crash (s : LogState) : LogState := ⟨s.store.crash, 0, false, [], .down⟩

/-- The kernel is down or runs `recover_from_log`. -/
def LogPc.recovering : LogPc → Bool
  | .install recovering _ => recovering
  | .erase recovering => recovering
  | .down => true
  | _ => false

/-- File-system calls start only after `initlog` has returned. -/
def LogState.Ready (s : LogState) : Prop := s.pc.recovering = false

instance (s : LogState) : Decidable s.Ready := inferInstanceAs (Decidable (_ = _))

end Xv6
