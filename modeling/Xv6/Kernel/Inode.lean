/-
This file gives the inode table. Any processes call `iget`, `idup`, `ilock`, `iunlock`, `iput`, `iupdate` and
`ialloc`. A step is one critical section of `itable.lock`, one operation of an inode's sleep lock or one access
to an inode on the disk.
-/

import Xv6.Kernel.Param
import Xv6.Lib.Run

namespace Xv6

/-- The inode table has this many entries. -/
abbrev ninode : Nat := 50

/-- The file table has this many entries. -/
abbrev nfile : Nat := 100

abbrev ndirect : Nat := 12

/-- The C type `short`, read through `BitVec.toInt`. -/
abbrev CShort := BitVec 16

/-- The device and the number of an inode. -/
abbrev InodeKey := Uint × Uint

/-- An inode on the disk. -/
structure Dinode where
  type : CShort
  major : CShort
  minor : CShort
  nlink : CShort
  size : Uint
  addrs : Fin (ndirect + 1) → Uint
  deriving DecidableEq

/-- What `memset` leaves. -/
def Dinode.zero : Dinode := ⟨0, 0, 0, 0, 0, fun _ => 0⟩

abbrev InodeIndex := Fin ninode

/-- A place for a reference: the current directory of a process, an open file, or one of four variables in a
call of a process. -/
abbrev Reference := Fin (nproc + nfile + 4 * nproc)

instance neZero_references : NeZero (nproc + nfile + 4 * nproc) := ⟨by decide⟩

/-- An entry of the table. Its sleep lock names the process that holds it and the reference that the process
uses. The entry is dirty while its holder has changes that it has not written with `iupdate`. -/
structure Inode where
  key : InodeKey
  ref : Nat
  lock : Option (Slot × Reference)
  valid : Bool
  copy : Dinode
  dirty : Bool

/-- The parts of `ilock` and `iput`. The lock of a new inode is the one that `create` takes after `ialloc`. -/
inductive InodePhase where
  | lock (new : Bool)
  | load (new : Bool)
  | put
  | trunc
  | erase
  | release
  | drop
  deriving DecidableEq

/-- The next part of the call that a process is in. -/
inductive InodePc where
  | idle
  | alloc (dev : Uint) (inum : Nat) (type : CShort) (r : Reference)
  | get (key : InodeKey) (r : Reference)
  | call (phase : InodePhase) (r : Reference) (e : InodeIndex)
  deriving DecidableEq

inductive InodePanic where
  | iget
  | ilockNoType
  deriving DecidableEq

/-- The table, the inodes on the disk, the entry of each reference and the position of each process. -/
structure Itable where
  inode : InodeIndex → Inode
  disk : InodeKey → Dinode
  held : Reference → Option InodeIndex
  pc : Slot → InodePc
  panic : Option InodePanic

inductive InodeEvent where
  | lookup (t : Slot) (key : InodeKey) (r : Reference)
  | alloc (t : Slot) (dev : Uint) (type : CShort) (r : Reference)
  | dup (t : Slot) (r r' : Reference)
  | lock (t : Slot) (r : Reference)
  | modify (t : Slot) (r : Reference) (copy : Dinode)
  | update (t : Slot) (r : Reference)
  | unlock (t : Slot) (r : Reference)
  | put (t : Slot) (r : Reference)
  | step (t : Slot)

/-- The reference that a position uses. -/
def InodePc.reference : InodePc → Option Reference
  | .idle => none
  | .alloc _ _ _ r | .get _ r | .call _ r _ => some r

/-- The phase belongs to `iput`. -/
def InodePhase.puts : InodePhase → Bool
  | .lock _ | .load _ => false
  | _ => true

/-- The reference that a position gives back. -/
def InodePc.puts : InodePc → Option Reference
  | .call phase r _ => if phase.puts then some r else none
  | _ => none

namespace Itable

/-- The table is empty. -/
def boot (disk : InodeKey → Dinode) : Itable :=
  { inode := fun _ => ⟨(0, 0), 0, none, false, .zero, false⟩, disk := disk, held := fun _ => none,
    pc := fun _ => .idle, panic := none }

variable (s : Itable)

def goto (t : Slot) (pc : InodePc) : Itable := { s with pc := Function.update s.pc t pc }

def setInode (e : InodeIndex) (ip : Inode) : Itable := { s with inode := Function.update s.inode e ip }

def setDisk (key : InodeKey) (dip : Dinode) : Itable := { s with disk := Function.update s.disk key dip }

def setHeld (r : Reference) (e : Option InodeIndex) : Itable := { s with held := Function.update s.held r e }

/-- The entry of the inode, if the table has it. -/
def found (key : InodeKey) : Option InodeIndex :=
  (List.finRange ninode).find? fun e => 0 < (s.inode e).ref ∧ (s.inode e).key = key

/-- The first free entry. -/
def empty : Option InodeIndex := (List.finRange ninode).find? fun e => (s.inode e).ref = 0

/-- `iget`, with the reference that it returns. -/
def iget (t : Slot) (key : InodeKey) (r : Reference) (pc : InodeIndex → InodePc) : Itable :=
  match s.found key with
  | some e =>
      ((s.setInode e { s.inode e with ref := (s.inode e).ref + 1 }).setHeld r (some e)).goto t (pc e)
  | none =>
      match s.empty with
      | some e =>
          ((s.setInode e { s.inode e with key := key, ref := 1, valid := false }).setHeld r (some e)).goto t
            (pc e)
      | none => { s with panic := some .iget }

/-- The end of `iput`. -/
def unref (t : Slot) (r : Reference) (e : InodeIndex) : Itable :=
  ((s.setInode e { s.inode e with ref := (s.inode e).ref - 1 }).setHeld r none).goto t .idle

/-- The reference is used by a call or by a holder of a sleep lock. -/
def inUse (r : Reference) : Prop :=
  (∃ t, (s.pc t).reference = some r) ∨ ∃ e t, (s.inode e).lock = some (t, r)

instance (r : Reference) : Decidable (s.inUse r) := inferInstanceAs (Decidable (_ ∨ _))

/-- The reference is given back by a call of `iput`. -/
def putting (r : Reference) : Prop := ∃ t, (s.pc t).puts = some r

instance (r : Reference) : Decidable (s.putting r) := inferInstanceAs (Decidable (∃ _, _))

/-- A directory entry names the inode, so it has a link, or the process has the inode locked (`.`). -/
def Named (t : Slot) (key : InodeKey) : Prop :=
  ((s.disk key).type ≠ 0 ∧ (s.disk key).nlink ≠ 0) ∨
    ∃ e r, (s.inode e).lock = some (t, r) ∧ (s.inode e).key = key

instance (t : Slot) (key : InodeKey) : Decidable (s.Named t key) := inferInstanceAs (Decidable (_ ∨ _))

/-- The next part of a call. -/
def step (ninodes : Nat) (t : Slot) : Option Itable :=
  match s.pc t with
  | .idle => none
  | .alloc dev inum type r =>
      if inum < ninodes then
        let key := (dev, BitVec.ofNat 32 inum)
        if (s.disk key).type = 0 then
          some ((s.setDisk key { Dinode.zero with type := type }).goto t (.get key r))
        else some (s.goto t (.alloc dev (inum + 1) type r))
      else some (s.goto t .idle)
  | .get key r => some (s.iget t key r fun e => .call (.lock true) r e)
  | .call (.lock new) r e =>
      if (s.inode e).lock = none then
        some ((s.setInode e { s.inode e with lock := some (t, r) }).goto t (.call (.load new) r e))
      else none
  | .call (.load _) _ e =>
      if (s.inode e).valid then some (s.goto t .idle)
      else
        let dip := s.disk (s.inode e).key
        let s := (s.setInode e { s.inode e with copy := dip, valid := true }).goto t .idle
        if dip.type = 0 then some { s with panic := some .ilockNoType } else some s
  | .call .put r e =>
      if (s.inode e).ref = 1 ∧ (s.inode e).valid ∧ (s.inode e).copy.nlink = 0 then
        if (s.inode e).lock = none then
          some ((s.setInode e { s.inode e with lock := some (t, r) }).goto t (.call .trunc r e))
        else none
      else some (s.unref t r e)
  | .call .trunc r e =>
      let copy := { (s.inode e).copy with size := 0, addrs := fun _ => 0 }
      some (((s.setInode e { s.inode e with copy := copy }).setDisk (s.inode e).key copy).goto t
        (.call .erase r e))
  | .call .erase r e =>
      let copy := { (s.inode e).copy with type := 0 }
      some (((s.setInode e { s.inode e with copy := copy }).setDisk (s.inode e).key copy).goto t
        (.call .release r e))
  | .call .release r e =>
      some ((s.setInode e { s.inode e with valid := false, lock := none }).goto t (.call .drop r e))
  | .call .drop r e => some (s.unref t r e)

/-- The calls as the file system makes them. A process looks up an inode that a directory entry names, it
changes an inode that it has locked, it writes the changes before it unlocks the inode, and it gives back a
reference that no call uses. -/
def next (ninodes : Nat) : InodeEvent → Option Itable
  | .lookup t key r =>
      if s.panic = none ∧ s.pc t = .idle ∧ s.held r = none ∧ ¬ s.inUse r ∧ s.Named t key then
        some (s.iget t key r fun _ => .idle)
      else none
  | .alloc t dev type r =>
      if s.panic = none ∧ s.pc t = .idle ∧ s.held r = none ∧ ¬ s.inUse r ∧ type ≠ 0 then
        some (s.goto t (.alloc dev 1 type r))
      else none
  | .dup t r r' =>
      match s.held r with
      | none => none
      | some e =>
          if s.panic = none ∧ s.pc t = .idle ∧ ¬ s.inUse r ∧ s.held r' = none ∧ ¬ s.inUse r' then
            some ((s.setInode e { s.inode e with ref := (s.inode e).ref + 1 }).setHeld r' (some e))
          else none
  | .lock t r =>
      match s.held r with
      | none => none
      | some e =>
          if s.panic = none ∧ s.pc t = .idle ∧ ¬ s.putting r then
            some (s.goto t (.call (.lock false) r e))
          else none
  | .modify t r copy =>
      match s.held r with
      | none => none
      | some e =>
          if s.panic = none ∧ s.pc t = .idle ∧ (s.inode e).lock = some (t, r) ∧ copy.type ≠ 0 then
            some (s.setInode e { s.inode e with copy := copy, dirty := true })
          else none
  | .update t r =>
      match s.held r with
      | none => none
      | some e =>
          if s.panic = none ∧ s.pc t = .idle ∧ (s.inode e).lock = some (t, r) then
            some ((s.setInode e { s.inode e with dirty := false }).setDisk (s.inode e).key (s.inode e).copy)
          else none
  | .unlock t r =>
      match s.held r with
      | none => none
      | some e =>
          if s.panic = none ∧ s.pc t = .idle ∧ (s.inode e).lock = some (t, r) ∧ (s.inode e).dirty = false then
            some (s.setInode e { s.inode e with lock := none })
          else none
  | .put t r =>
      match s.held r with
      | none => none
      | some e =>
          if s.panic = none ∧ s.pc t = .idle ∧ ¬ s.inUse r then some (s.goto t (.call .put r e)) else none
  | .step t => if s.panic = none then s.step ninodes t else none

/-- One step of the processes on the inode table. -/
def Step (ninodes : Nat) (event : InodeEvent) (u : Itable) : Prop := s.next ninodes event = some u

end Itable

end Xv6
