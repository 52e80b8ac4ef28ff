/-
This file collects the kernel's compile-time constants and its machine integer types.
-/

import Mathlib

namespace Xv6

/-- The process table has a fixed number of slots. -/
abbrev nproc : Nat := 64

/-- Each process has this many file descriptors. -/
abbrev nofile : Nat := 16

/-- One file-system operation writes at most this many blocks. -/
abbrev maxopblocks : Nat := 10

/-- The in-memory log header has room for this many blocks. -/
abbrev logsize : Nat := maxopblocks * 3

/-- The buffer cache has this many buffers. -/
abbrev nbuf : Nat := maxopblocks * 3

/-- One disk block holds this many bytes. -/
abbrev bsize : Nat := 1024

/-- The feedback scheduler uses this many queues. -/
abbrev mlfqNumQueues : Int := 4

abbrev mlfqTicks0 : Nat := 1
abbrev mlfqTicks1 : Nat := 3
abbrev mlfqTicks2 : Nat := 9
abbrev mlfqTicks3 : Nat := 15

/-- A queued process that waits this many ticks moves up one queue. -/
abbrev agingTime : Nat := 30

/-- The C type `uint`. -/
abbrev Uint := BitVec 32

/-- The C type `int`, read through `BitVec.toInt`. -/
abbrev CInt := BitVec 32

/-- The C type `uint64`. -/
abbrev Uint64 := BitVec 64

abbrev Byte := BitVec 8

/-- One page holds this many bytes. -/
abbrev pgsize : Uint64 := 4096

/-- A slot is an index of the process table. -/
abbrev Slot := Fin nproc

/- Literals of the index types below use these facts by name. -/

instance neZero_nproc : NeZero nproc := ⟨by decide⟩

instance neZero_oneCpu : NeZero 1 := ⟨by decide⟩

instance neZero_twoCpus : NeZero 2 := ⟨by decide⟩

instance neZero_tableSize : NeZero 512 := ⟨by decide⟩

instance lawfulBEq_byte : LawfulBEq Byte := inferInstance

/-- The compile-time flag selects one of three schedulers. -/
inductive Build where
  | rr
  | fcfs
  | mlfq
  deriving DecidableEq

end Xv6
