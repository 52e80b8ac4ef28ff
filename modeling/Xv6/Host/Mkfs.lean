/-
This file gives `mkfs`, which runs on the host and writes the first image of the disk. The image has `fssize` blocks
from the start on, and the host's `lseek`, `read` and `write` do what they are specified to do.
-/

import Xv6.Kernel.OnDisk

namespace Xv6.Mkfs

open Bytes OnDisk

/-- `mkfs` stops with `exit(1)` or with a failed assertion. -/
inductive Stop where
  | die
  | assertion
  deriving DecidableEq

/-- The image and the two counters `freeinode` and `freeblock`. -/
structure State where
  img : Blocks
  freeinode : Nat
  freeblock : Nat

abbrev M := Program State Stop

abbrev nbitmap : Nat := fssize / (bsize * 8) + 1
abbrev ninodeblocks : Nat := ninodes / ipb + 1
abbrev nlog : Nat := logsize
abbrev nmeta : Nat := 2 + nlog + ninodeblocks + nbitmap

def sb : DiskSuperblock where
  magic := fsmagic
  size := BitVec.ofNat 32 fssize
  nblocks := BitVec.ofNat 32 (fssize - nmeta)
  ninodes := BitVec.ofNat 32 ninodes
  nlog := BitVec.ofNat 32 nlog
  logstart := 2
  inodestart := BitVec.ofNat 32 (2 + nlog)
  bmapstart := BitVec.ofNat 32 (2 + nlog + ninodeblocks)

def check (condition : Bool) : M Unit := if condition then pure () else throw .assertion

section Sectors

def wsect (sec : Nat) (buf : ByteMap) : M Unit := modify fun s => { s with img := Function.update s.img sec buf }

/-- The read is short at the end of the image. -/
def rsect (sec : Nat) : M ByteMap := do
  let s ← get
  if sec < fssize then return s.img sec else throw .die

def winode (inum : Nat) (ip : Dinode) : M Unit := do
  let bn := sb.iblock inum
  let buf ← rsect bn
  wsect bn (overlay (dinodeStart inum) dinodeSize (dinodeByte ip) buf)

def rinode (inum : Nat) : M Dinode := do
  let buf ← rsect (sb.iblock inum)
  return dinodeAt buf (dinodeStart inum)

end Sectors

def ialloc (type : CShort) : M Nat := do
  let s ← get
  let inum := s.freeinode
  set { s with freeinode := inum + 1 }
  winode inum { Dinode.zero with type := type, nlink := 1 }
  return inum

/-- The loop of `balloc` over the blocks in use. -/
def markUsed (used : Nat) : ByteMap :=
  (List.range used).foldl (fun buf i => Function.update buf (i / 8) (buf (i / 8) ||| ((1 : Byte) <<< (i % 8)))) fun _ => 0

def balloc (used : Nat) : M Unit := do
  check (used < bsize * 8)
  wsect sb.bmapstart.toNat (markUsed used)

section Append

/-- `freeblock++` -/
def nextBlock : M Uint := do
  let s ← get
  set { s with freeblock := s.freeblock + 1 }
  return BitVec.ofNat 32 s.freeblock

/-- The block of an entry of the indirect block, which is taken if it is not there yet. -/
def entryFor (din : Dinode) (i : Nat) : M (Dinode × Uint) := do
  let last := (din.addrs (Fin.last ndirect)).toNat
  let indirect ← rsect last
  if indirectAt indirect i = 0 then
    let b ← nextBlock
    wsect last (overlay (4 * i) 4 (octet b) indirect)
    return (din, b)
  else return (din, indirectAt indirect i)

/-- The block of an index of the file, which is taken if it is not there yet. -/
def blockFor (din : Dinode) (fbn : Nat) : M (Dinode × Uint) := do
  if direct : fbn < ndirect then
    let i : Fin (ndirect + 1) := ⟨fbn, Nat.lt_succ_of_lt direct⟩
    if din.addrs i = 0 then
      let b ← nextBlock
      return ({ din with addrs := Function.update din.addrs i b }, b)
    else return (din, din.addrs i)
  else if din.addrs (Fin.last ndirect) = 0 then
    let b ← nextBlock
    entryFor { din with addrs := Function.update din.addrs (Fin.last ndirect) b } (fbn - ndirect)
  else entryFor din (fbn - ndirect)

/-- The loop of `iappend`. Each round writes at least one byte. -/
def appendLoop : Nat → Dinode → Nat → List Byte → M (Dinode × Nat)
  | 0, din, off, _ => return (din, off)
  | rounds + 1, din, off, p => do
      if p = [] then return (din, off)
      else
        let fbn := off / bsize
        check (fbn < maxfile)
        let (din, x) ← blockFor din fbn
        let n1 := min p.length ((fbn + 1) * bsize - off)
        let buf ← rsect x.toNat
        wsect x.toNat (overlay (off - fbn * bsize) n1 (ofList p) buf)
        appendLoop rounds din (off + n1) (p.drop n1)

def iappend (inum : Nat) (p : List Byte) : M Unit := do
  let din ← rinode inum
  let (din, off) ← appendLoop p.length din din.size.toNat p
  winode inum { din with size := BitVec.ofNat 32 off }

end Append

/-- A file of the command line: its path, and what `open` and the calls of `read` give before the one that gives
nothing. The path is a C string. -/
structure HostFile where
  path : List Byte
  plain : 0 ∉ path
  reads : Option (List (List Byte))
  sized : ∀ chunks ∈ reads, ∀ chunk ∈ chunks, chunk ≠ [] ∧ chunk.length ≤ bsize

/-- The bytes of the file. -/
def HostFile.contents (f : HostFile) : List Byte := (f.reads.getD []).flatten

/-- The string `user/`. -/
def userDir : List Byte := [117, 115, 101, 114, 47]

def shortname (path : List Byte) : List Byte := if path.take 5 = userDir then path.drop 5 else path

def underscore : Byte := 95

/-- The name in the root directory. -/
def HostFile.stored (f : HostFile) : List Byte :=
  let short := shortname f.path
  if short.head? = some underscore then short.tail else short

def addFile (rootino : Nat) (f : HostFile) : M Unit := do
  check (slash ∉ shortname f.path)
  match f.reads with
  | none => throw .die
  | some chunks => do
      let inum ← ialloc tFile
      iappend rootino (direntBytes (BitVec.ofNat 16 inum) f.stored)
      chunks.forM (iappend inum)

def main (files : List HostFile) : M Unit := do
  wsect 1 (overlay 0 superblockSize sb.byte fun _ => 0)
  let root ← ialloc tDir
  check (root = rootino.val)
  iappend root (direntBytes (BitVec.ofNat 16 root) dot)
  iappend root (direntBytes (BitVec.ofNat 16 root) dotdot)
  files.forM (addFile root)
  let din ← rinode root
  let off := (din.size / BitVec.ofNat 32 bsize + 1) * BitVec.ofNat 32 bsize
  winode root { din with size := off }
  let s ← get
  balloc s.freeblock

/-- The image after all its sectors are zeroed. -/
def start : State := ⟨fun _ _ => 0, 1, nmeta⟩

end Xv6.Mkfs
