/-
This file gives the part of the file system that works on the blocks of the disk: the allocation of blocks, `bmap`,
`itrunc`, `readi`, `writei` and the functions of directories. The blocks are what the cache shows. A locked inode is
passed as its copy in memory.
-/

import Xv6.Kernel.OnDisk

namespace Xv6.BlockFs

open Bytes OnDisk
open Contents (roundSize)

/-- The panics, and a process that waits for a lock that it holds itself. -/
inductive Panic where
  | freeingFreeBlock
  | igetNoInodes
  | ilock
  | ilockNoType
  | iunlock
  | asleep
  | bmapRange
  | dirlookupNotDir
  | dirlookupRead
  | dirlinkRead
  | unlinkWritei
  deriving DecidableEq

/-- The blocks in the cache, and the blocks that `log_write` has recorded in the running transaction. -/
structure Volume where
  img : Blocks
  logged : Finset Nat

abbrev M := Program Volume Panic

def bread (b : Nat) : M ByteMap := do
  let v ← get
  return v.img b

/-- The buffer of a block is changed. -/
def fillBuffer (b : Nat) (data : ByteMap) : M Unit := modify fun v => { v with img := Function.update v.img b data }

/-- `log_write` -/
def logWrite (b : Nat) : M Unit := modify fun v => { v with logged := insert b v.logged }

variable (sb : DiskSuperblock)

section Allocation

/-- The mask of a block in its byte of the free map. -/
def mask (b : Nat) : Byte := (1 : Byte) <<< (b % bpb % 8)

/-- The bit of a block in the free map. -/
def bitOf (img : Blocks) (b : Nat) : Bool := (img (sb.bblock b) (b % bpb / 8)).getLsbD (b % bpb % 8)

def bzero (bno : Nat) : M Unit := do
  fillBuffer bno fun _ => 0
  logWrite bno

/-- The first block whose bit is clear, or zero. -/
def balloc : M Uint := do
  let v ← get
  match (List.range sb.size.toNat).find? fun b => !bitOf sb v.img b with
  | none => return 0
  | some b =>
      let bp ← bread (sb.bblock b)
      fillBuffer (sb.bblock b) (Function.update bp (b % bpb / 8) (bp (b % bpb / 8) ||| mask b))
      logWrite (sb.bblock b)
      bzero b
      return BitVec.ofNat 32 b

def bfree (b : Nat) : M Unit := do
  let v ← get
  if bitOf sb v.img b = false then throw .freeingFreeBlock
  else
    let bp ← bread (sb.bblock b)
    fillBuffer (sb.bblock b) (Function.update bp (b % bpb / 8) (bp (b % bpb / 8) &&& ~~~ mask b))
    logWrite (sb.bblock b)

end Allocation

section Inodes

def iupdate (inum : Nat) (ip : Dinode) : M Unit := do
  let bp ← bread (sb.iblock inum)
  fillBuffer (sb.iblock inum) (overlay (dinodeStart inum) dinodeSize (dinodeByte ip) bp)
  logWrite (sb.iblock inum)

/-- An address that `bmap` takes when it is zero. -/
def addrFor (ip : Dinode) (i : Fin (ndirect + 1)) : M (Uint × Dinode) := do
  if ip.addrs i = 0 then
    let addr ← balloc sb
    if addr = 0 then return (0, ip)
    else return (addr, { ip with addrs := Function.update ip.addrs i addr })
  else return (ip.addrs i, ip)

/-- The block of an index of the file, or zero if the disk is full. -/
def bmap (ip : Dinode) (bn : Nat) : M (Uint × Dinode) := do
  if direct : bn < ndirect then addrFor sb ip ⟨bn, Nat.lt_succ_of_lt direct⟩
  else if bn - ndirect < nindirect then
    let (addr, ip) ← addrFor sb ip (Fin.last ndirect)
    if addr = 0 then return (0, ip)
    else
      let a ← bread addr.toNat
      if indirectAt a (bn - ndirect) = 0 then
        let entry ← balloc sb
        if entry = 0 then return (0, ip)
        else
          let a ← bread addr.toNat
          fillBuffer addr.toNat (overlay (4 * (bn - ndirect)) 4 (octet entry) a)
          logWrite addr.toNat
          return (entry, ip)
      else return (indirectAt a (bn - ndirect), ip)
  else throw .bmapRange

/-- The blocks of the entries of an indirect block. -/
def bfreeEntries (a : ByteMap) : List Nat → M Unit
  | [] => return ()
  | j :: rest => do
      if indirectAt a j ≠ 0 then bfree sb (indirectAt a j).toNat
      bfreeEntries a rest

/-- The blocks of some addresses of an inode. -/
def bfreeAddrs (ip : Dinode) : List (Fin (ndirect + 1)) → M Unit
  | [] => return ()
  | i :: rest => do
      if ip.addrs i ≠ 0 then bfree sb (ip.addrs i).toNat
      bfreeAddrs ip rest

def itrunc (inum : Nat) (ip : Dinode) : M Dinode := do
  bfreeAddrs sb ip ((List.finRange ndirect).map Fin.castSucc)
  let last := ip.addrs (Fin.last ndirect)
  if last ≠ 0 then
    let a ← bread last.toNat
    bfreeEntries sb a (List.range nindirect)
    bfree sb last.toNat
  let ip := { ip with size := 0, addrs := fun _ => 0 }
  iupdate sb inum ip
  return ip

end Inodes

section Transfer

/-- The loop of `readi`. The oracle says whether the copy of a round to the destination succeeds. -/
def readLoop (ok : Nat → Bool) (off n : Nat) : Nat → Nat → List Byte → Dinode → M (Option (List Byte) × Dinode)
  | 0, _, got, ip => return (some got, ip)
  | rounds + 1, tot, got, ip => do
      if tot < n then
        let (addr, ip) ← bmap sb ip ((off + tot) / bsize)
        if addr = 0 then return (some got, ip)
        else
          let bp ← bread addr.toNat
          let m := roundSize n off tot
          if ok tot then
            readLoop ok off n rounds (tot + m) (got ++ (List.range m).map fun i => bp ((off + tot) % bsize + i)) ip
          else return (none, ip)
      else return (some got, ip)

/-- `readi` with the bytes that it copies, or nothing when it returns -1. Each round copies at least one byte. -/
def readi (ok : Nat → Bool) (ip : Dinode) (off n : Uint) : M (Option (List Byte) × Dinode) := do
  if ip.size < off ∨ off + n < off then return (some [], ip)
  else
    let n := if ip.size < off + n then ip.size - off else n
    readLoop sb ok off.toNat n.toNat n.toNat 0 [] ip

/-- `readi` into kernel memory. -/
def readKernel (ip : Dinode) (off n : Uint) : M (Option (List Byte) × Dinode) := readi sb (fun _ => true) ip off n

/-- The source of a write. A user's buffer can end at a page that is not mapped. -/
structure Source where
  byte : Nat → Byte
  limit : Option Nat

/-- The number of bytes that `either_copyin` copies before it returns. -/
def Source.copied (src : Source) (tot m : Nat) : Nat := src.limit.elim m fun limit => min m (limit - tot)

/-- A source in kernel memory. -/
def Source.kernel (bytes : List Byte) : Source := ⟨ofList bytes, none⟩

/-- The loop of `writei`. -/
def writeLoop (src : Source) (off n : Nat) : Nat → Nat → Dinode → M (Nat × Dinode)
  | 0, tot, ip => return (tot, ip)
  | rounds + 1, tot, ip => do
      if tot < n then
        let (addr, ip) ← bmap sb ip ((off + tot) / bsize)
        if addr = 0 then return (tot, ip)
        else
          let bp ← bread addr.toNat
          let m := roundSize n off tot
          fillBuffer addr.toNat
            (overlay ((off + tot) % bsize) (src.copied tot m) (fun i => src.byte (tot + i)) bp)
          if src.copied tot m = m then
            logWrite addr.toNat
            writeLoop src off n rounds (tot + m) ip
          else return (tot, ip)
      else return (tot, ip)

/-- `writei`, which gives nothing when it returns -1. -/
def writei (inum : Nat) (src : Source) (ip : Dinode) (off n : Uint) : M (Option Nat × Dinode) := do
  if ip.size < off ∨ off + n < off then return (none, ip)
  else if BitVec.ofNat 32 (maxfile * bsize) < off + n then return (none, ip)
  else
    let (tot, ip) ← writeLoop sb src off.toNat n.toNat n.toNat 0 ip
    let off := off + BitVec.ofNat 32 tot
    let ip := if ip.size < off then { ip with size := off } else ip
    iupdate sb inum ip
    return (some tot, ip)

/-- The source from a position on. -/
def Source.drop (src : Source) (i : Nat) : Source := ⟨fun j => src.byte (i + j), src.limit.map (· - i)⟩

/-- `begin_op` starts a transaction. -/
def beginOp : M Unit := modify fun v => { v with logged := ∅ }

/-- The loop of `filewrite`. Each round is one transaction, and a negative result does not move the offset. -/
def filewriteLoop (inum : Nat) (src : Source) (n : Nat) : Nat → Nat → Uint → M (Nat × Uint)
  | 0, i, off => return (i, off)
  | rounds + 1, i, off => do
      if i < n then
        let n1 := min (n - i) chunkMax
        beginOp
        let v ← get
        let (r, _) ← writei sb inum (src.drop i) (dinode sb v.img inum) off (BitVec.ofNat 32 n1)
        let off := off + BitVec.ofNat 32 (r.getD 0)
        if r = some n1 then filewriteLoop inum src n rounds (i + n1) off else return (i, off)
      else return (i, off)

/-- `filewrite` of a file with an inode, with the new offset. -/
def filewrite (inum : Nat) (src : Source) (off : Uint) (n : CInt) : M (Int × Uint) := do
  let (i, off) ← filewriteLoop sb inum src n.toInt.toNat n.toInt.toNat 0 off
  return (if (i : Int) = n.toInt then n.toInt else -1, off)

end Transfer

section Directories

/-- `strncmp` gives zero. A string ends with a zero byte or at the end of its list. -/
def sameString : Nat → List Byte → List Byte → Bool
  | 0, _, _ => true
  | n + 1, p, q =>
      if p.headD 0 ≠ 0 ∧ p.headD 0 = q.headD 0 then sameString n p.tail q.tail else p.headD 0 == q.headD 0

/-- `namecmp` gives zero. -/
def sameName (s t : List Byte) : Bool := sameString dirsiz s t

/-- The inode number of an entry. -/
def entryInum (de : List Byte) : BitVec 16 := load 2 (ofList de) 0

/-- A read of one entry, which stops when it is short. -/
def readEntry (panic : Panic) (dp : Dinode) (off : Nat) : M (List Byte × Dinode) := do
  match ← readKernel sb dp (BitVec.ofNat 32 off) (BitVec.ofNat 32 direntSize) with
  | (some de, dp) => if de.length ≠ direntSize then throw panic else return (de, dp)
  | (none, _) => throw panic

/-- The loop of `dirlookup` from an offset, with the inode number and the offset of the entry. -/
def lookupLoop (name : Name) : Nat → Nat → Dinode → M (Option (BitVec 16 × Nat) × Dinode)
  | 0, _, dp => return (none, dp)
  | rounds + 1, off, dp => do
      if off < dp.size.toNat then
        let (de, dp) ← readEntry sb .dirlookupRead dp off
        if entryInum de ≠ 0 ∧ sameName name (de.drop 2) = true then return (some (entryInum de, off), dp)
        else lookupLoop name rounds (off + direntSize) dp
      else return (none, dp)

/-- `dirlookup` before its `iget`. -/
def dirlookup (dp : Dinode) (name : Name) : M (Option (BitVec 16 × Nat) × Dinode) := do
  if dp.type ≠ tDir then throw .dirlookupNotDir
  else lookupLoop sb name (dp.size.toNat / direntSize + 1) 0 dp

/-- The loop of `dirlink` that looks for an empty entry. -/
def emptyLoop : Nat → Nat → Dinode → M (Nat × Dinode)
  | 0, off, dp => return (off, dp)
  | rounds + 1, off, dp => do
      if off < dp.size.toNat then
        let (de, dp) ← readEntry sb .dirlinkRead dp off
        if entryInum de = 0 then return (off, dp) else emptyLoop rounds (off + direntSize) dp
      else return (off, dp)

/-- The part of `dirlink` that writes an entry for a name that the directory does not have. -/
def linkEntry (inum : Nat) (dp : Dinode) (name : Name) (target : Nat) : M (Bool × Dinode) := do
  let (off, dp) ← emptyLoop sb (dp.size.toNat / direntSize + 1) 0 dp
  let de := direntBytes (BitVec.ofNat 16 target) name
  let (r, dp) ← writei sb inum (.kernel de) dp (BitVec.ofNat 32 off) (BitVec.ofNat 32 direntSize)
  return (r = some direntSize, dp)

/-- `dirlink`. The reference that `dirlookup` takes is given back. -/
def dirlink (inum : Nat) (dp : Dinode) (name : Name) (target : Nat) : M (Bool × Dinode) := do
  match ← dirlookup sb dp name with
  | (some _, dp) => return (false, dp)
  | (none, dp) => linkEntry sb inum dp name target

/-- The part of `sys_unlink` that clears an entry. -/
def clearEntry (inum : Nat) (dp : Dinode) (off : Nat) : M Dinode := do
  let (r, dp) ← writei sb inum (.kernel (List.replicate direntSize 0)) dp (BitVec.ofNat 32 off) (BitVec.ofNat 32 direntSize)
  if r ≠ some direntSize then throw .unlinkWritei else return dp

end Directories

end Xv6.BlockFs
