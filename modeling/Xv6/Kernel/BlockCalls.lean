/-
This file gives path resolution on the blocks of the disk. The inode table holds copies of inodes, by the number of the
inode on the only disk. A call runs without another one between its steps.
-/

import Xv6.Kernel.BlockFs
import Xv6.Kernel.Inode

namespace Xv6.BlockCalls

open Bytes OnDisk
open BlockFs (Volume Source)

/-- The volume and the inode table. -/
structure Mounted where
  vol : Volume
  ref : Nat → Nat
  valid : Nat → Bool
  locked : Nat → Bool
  copy : Nat → Dinode

abbrev M := Program Mounted BlockFs.Panic

namespace Mounted

variable (s : Mounted)

def setRef (k ref : Nat) : Mounted := { s with ref := Function.update s.ref k ref }

def setValid (k : Nat) (valid : Bool) : Mounted := { s with valid := Function.update s.valid k valid }

def setLocked (k : Nat) (locked : Bool) : Mounted := { s with locked := Function.update s.locked k locked }

def setCopy (k : Nat) (ip : Dinode) : Mounted := { s with copy := Function.update s.copy k ip }

/-- The number of entries of the table that are in use. Inode numbers have 16 bits. -/
def inUse : Nat := ((Finset.range 65536).filter fun k => s.ref k ≠ 0).card

end Mounted

/-- A function that works on the volume only. -/
def onVolume {α : Type} (p : BlockFs.M α) : M α := fun s =>
  match p.run s.vol with
  | .ok (a, v) => .ok (a, { s with vol := v })
  | .error e => .error e

variable (sb : DiskSuperblock)

section Inodes

/-- `iget` of an inode of the only disk. A new entry is not valid. -/
def iget (k : Nat) : M Unit := do
  let s ← get
  if s.ref k = 0 then
    if ninode ≤ s.inUse then throw .igetNoInodes
    else modify fun s => (s.setValid k false).setRef k 1
  else modify fun s => s.setRef k (s.ref k + 1)

def idup (k : Nat) : M Unit := modify fun s => s.setRef k (s.ref k + 1)

def ilock (k : Nat) : M Unit := do
  let s ← get
  if s.ref k < 1 then throw .ilock
  else if s.locked k = true then throw .asleep
  else if s.valid k = true then modify fun s => s.setLocked k true
  else if (dinode sb s.vol.img k).type = 0 then throw .ilockNoType
  else modify fun s => ((s.setCopy k (dinode sb s.vol.img k)).setValid k true).setLocked k true

def iunlock (k : Nat) : M Unit := do
  let s ← get
  if s.locked k = false ∨ s.ref k < 1 then throw .iunlock
  else modify fun s => s.setLocked k false

/-- A function that works on the copy of an inode and returns the new copy. -/
def withInode {α : Type} (k : Nat) (p : Dinode → BlockFs.M (α × Dinode)) : M α := do
  let s ← get
  let (a, ip) ← onVolume (p (s.copy k))
  modify fun s => s.setCopy k ip
  return a

/-- A change of some fields of an inode and its `iupdate`. -/
def change (k : Nat) (f : Dinode → Dinode) : M Unit :=
  withInode k fun ip => do
    BlockFs.iupdate sb k (f ip)
    return ((), f ip)

def itrunc (k : Nat) : M Unit :=
  withInode k fun ip => do
    let ip ← BlockFs.itrunc sb k ip
    return ((), ip)

def iput (k : Nat) : M Unit := do
  let s ← get
  if s.ref k = 1 ∧ s.valid k = true ∧ (s.copy k).nlink = 0 then
    if s.locked k = true then throw .asleep
    else
      itrunc sb k
      change sb k fun ip => { ip with type := 0 }
      modify fun s => (s.setValid k false).setRef k (s.ref k - 1)
  else modify fun s => s.setRef k (s.ref k - 1)

def iunlockput (k : Nat) : M Unit := do
  iunlock k
  iput sb k

end Inodes

section Directories

/-- `dirlookup`, with the offset of the entry. -/
def dirlookup (dp : Nat) (name : Name) : M (Option (Nat × Nat)) := do
  match ← withInode dp fun ip => BlockFs.dirlookup sb ip name with
  | none => return none
  | some (inum, off) =>
      iget inum.toNat
      return some (inum.toNat, off)

/-- The loop of `namex` over the elements of the path. -/
def namexLoop (parent : Bool) : Nat → Name → List Name → M (Option (Nat × Name))
  | ip, last, [] =>
      if parent then do
        iput sb ip
        return none
      else return some (ip, last)
  | ip, _, name :: rest => do
      ilock sb ip
      let s ← get
      if (s.copy ip).type ≠ tDir then
        iunlockput sb ip
        return none
      else if parent ∧ rest = [] then
        iunlock ip
        return some (ip, name)
      else
        match ← dirlookup sb ip name with
        | none =>
            iunlockput sb ip
            return none
        | some (next, _) =>
            iunlockput sb ip
            namexLoop parent next name rest

def namex (cwd : Nat) (path : Path) (parent : Bool) : M (Option (Nat × Name)) := do
  if path.head? = some slash then
    iget rootino
    namexLoop sb parent rootino [] (elements path)
  else
    idup cwd
    namexLoop sb parent cwd [] (elements path)

def namei (cwd : Nat) (path : Path) : M (Option Nat) := do
  let found ← namex sb cwd path false
  return found.map Prod.fst

end Directories

end Xv6.BlockCalls
