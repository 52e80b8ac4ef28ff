/-
This file gives the format of the disk, which the kernel and `mkfs` share: the superblock, the inodes and the entries
of a directory as bytes of blocks.
-/

import Xv6.Kernel.Fs
import Xv6.Lib.Bytes

namespace Xv6.OnDisk

open Bytes

/-- The disk as blocks of bytes. -/
abbrev Blocks := Nat → ByteMap

/-- `FSSIZE` -/
abbrev fssize : Nat := 2000

/-- `FSMAGIC` -/
def fsmagic : Uint := 0x10203040

/-- The size of a `struct dinode`. -/
abbrev dinodeSize : Nat := 64

/-- `IPB` -/
abbrev ipb : Nat := bsize / dinodeSize

/-- `BPB` -/
abbrev bpb : Nat := bsize * 8

structure DiskSuperblock where
  magic : Uint
  size : Uint
  nblocks : Uint
  ninodes : Uint
  nlog : Uint
  logstart : Uint
  inodestart : Uint
  bmapstart : Uint
  deriving DecidableEq

namespace DiskSuperblock

variable (sb : DiskSuperblock)

def fields : List Uint := [sb.magic, sb.size, sb.nblocks, sb.ninodes, sb.nlog, sb.logstart, sb.inodestart, sb.bmapstart]

/-- The bytes of a `struct superblock`. -/
def byte (i : Nat) : Byte := octet (sb.fields.getD (i / 4) 0) (i % 4)

/-- The superblock at the start of a block. -/
def ofBytes (m : ByteMap) : DiskSuperblock where
  magic := load 4 m 0
  size := load 4 m 4
  nblocks := load 4 m 8
  ninodes := load 4 m 12
  nlog := load 4 m 16
  logstart := load 4 m 20
  inodestart := load 4 m 24
  bmapstart := load 4 m 28

/-- `IBLOCK` -/
def iblock (inum : Nat) : Nat := inum / ipb + sb.inodestart.toNat

/-- `BBLOCK` -/
def bblock (b : Nat) : Nat := b / bpb + sb.bmapstart.toNat

end DiskSuperblock

/-- The size of a `struct superblock`. -/
abbrev superblockSize : Nat := 32

/-- The bytes of a `struct dinode`. -/
def dinodeByte (d : Dinode) (i : Nat) : Byte :=
  if i < 2 then octet d.type i
  else if i < 4 then octet d.major (i - 2)
  else if i < 6 then octet d.minor (i - 4)
  else if i < 8 then octet d.nlink (i - 6)
  else if i < 12 then octet d.size (i - 8)
  else octet (d.addrs (Fin.ofNat _ ((i - 12) / 4))) ((i - 12) % 4)

/-- The inode at an address of a block. -/
def dinodeAt (m : ByteMap) (start : Nat) : Dinode where
  type := load 2 m start
  major := load 2 m (start + 2)
  minor := load 2 m (start + 4)
  nlink := load 2 m (start + 6)
  size := load 4 m (start + 8)
  addrs i := load 4 m (start + 12 + 4 * i.val)

/-- The place of an inode in its block. -/
def dinodeStart (inum : Nat) : Nat := inum % ipb * dinodeSize

/-- The inode with a number. -/
def dinode (sb : DiskSuperblock) (img : Blocks) (inum : Nat) : Dinode := dinodeAt (img (sb.iblock inum)) (dinodeStart inum)

/-- The bytes of a `struct dirent` whose name was set by `strncpy`. -/
def direntBytes (inum : BitVec 16) (name : List Byte) : List Byte :=
  [octet inum 0, octet inum 1] ++ name.take dirsiz ++ List.replicate (dirsiz - name.length) 0

/-- An entry of the indirect block. -/
def indirectAt (m : ByteMap) (i : Nat) : Uint := load 4 m (4 * i)

/-- The memory that a list of bytes fills. -/
def ofList (bytes : List Byte) : ByteMap := fun i => bytes.getD i 0

end Xv6.OnDisk
