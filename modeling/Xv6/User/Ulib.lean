/-
This file gives `memmove` of the kernel's `string.c`, and the parts of the user library `ulib.c` that other user programs
are built on. A memory is a byte for each address, and pointers wrap around.
-/

import Xv6.Kernel.Param
import Xv6.Lib.ByteCopy

namespace Xv6

/-- The bytes that a pointer can reach. -/
abbrev ByteMemory := Uint64 → Byte

open ByteCopy

/-- The kernel copies from the end only when the destination starts inside of the source. -/
def memmove (m : ByteMemory) (dst src : Uint64) (n : Uint) : ByteMemory :=
  if n = 0 then m
  else if src < dst ∧ dst < src + n.setWidth 64 then
    descending m (dst + n.setWidth 64) (src + n.setWidth 64) n.toNat
  else ascending m dst src n.toNat

end Xv6

namespace Xv6.User

/-- The code of a character. -/
def code (c : Char) : Byte := BitVec.ofNat 8 c.toNat

/-- A string without its terminator. -/
structure CString where
  bytes : List Byte
  nonzero : 0 ∉ bytes
  deriving DecidableEq

/-- The memory from a pointer to a string on. -/
def CString.inMemory (s : CString) (rest : List Byte) : List Byte := s.bytes ++ 0 :: rest

/-- The place of the first `c` before the terminator. The terminator itself is never found. -/
def strchr : List Byte → Byte → Option Nat
  | [], _ => none
  | b :: s, c => if b = 0 then none else if b = c then some 0 else (strchr s c).map (· + 1)

open ByteCopy

/-- The library copies from the end unless the source is above the destination. A negative length copies nothing. -/
def memmove (m : ByteMemory) (dst src : Uint64) (n : CInt) : ByteMemory :=
  if dst < src then ascending m dst src n.toInt.toNat
  else descending m (dst + n.signExtend 64) (src + n.signExtend 64) n.toInt.toNat

end Xv6.User
