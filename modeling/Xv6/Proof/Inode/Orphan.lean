/-
This file shows what the inode table promises: one entry for each inode, exact reference counts, copies of the
inodes on the disk, and `iput` that frees an inode when its last reference goes and it has no link.
-/

import Xv6.Proof.Inode.Table

namespace Xv6.Inodes
open TransitionSystem

/-- An inode without links has a reference that has not been freed, or a process has just allocated it. -/
def Adopted (s : Itable) (key : InodeKey) : Prop :=
  (s.disk key).type ≠ 0 → (s.disk key).nlink = 0 →
    (∃ r e, s.held r = some e ∧ (s.inode e).key = key ∧ ¬ Leaving s r) ∨ ∃ t r, s.pc t = .get key r

/-- An `iput` of the last live reference to an inode without links meets no other `iput` that has freed the
earlier inode of the entry and still has to give back its own reference. -/
def Undisturbed (s : Itable) : InodeEvent → Prop
  | .step t => ∀ r e, s.pc t = .call .put r e → (s.disk (s.inode e).key).nlink = 0 →
      (∀ q, s.held q = some e → q ≠ r → Leaving s q) → ∀ q, s.held q = some e → q = r
  | _ => True

section Adopted

variable {s u : Itable} {event : InodeEvent} {key : InodeKey}

end Adopted

/-- What the steps keep together. The inodes of interest are those with a type and no link only after the
start. -/
structure Kept (disk : InodeKey → Dinode) (s : Itable) : Prop where
  good : Consistent s
  adopted : ∀ key, ((disk key).type = 0 ∨ (disk key).nlink ≠ 0) → Adopted s key
  panic : s.panic ≠ some .ilockNoType

section Runs

/-- A file with the given number of links. -/
def linkedFile (nlink : CShort) : Dinode := { Dinode.zero with type := 2, nlink := nlink }

/-- A process allocates an inode and locks it, as `create` does. -/
def creates (t : Slot) (r : Reference) : List InodeEvent :=
  [.alloc t 1 2 r, .step t, .step t, .step t, .step t]

/-- The process gives the inode a link, finds no room for the directory entry, takes the link back and begins
`iput`. -/
def abandons (t : Slot) (r : Reference) : List InodeEvent :=
  [.modify t r (linkedFile 1), .update t r, .modify t r (linkedFile 0), .update t r, .unlock t r, .put t r]

/-- A process creates an inode, fails, and begins to free it. -/
def freed : List InodeEvent := creates 0 0 ++ abandons 0 0 ++ [.step 0]

/-- The step is allowed, and no process but the first is in a call. -/
def solo (s : Itable) (event : InodeEvent) : Bool :=
  (s.next 3 event).isSome && decide (∀ v, v ≠ 0 → s.pc v = .idle) &&
    match event with
    | .step t => t == 0
    | _ => true

end Runs

end Xv6.Inodes
