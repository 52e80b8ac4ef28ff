/-
This file gives `fileread` and `filewrite` on an open file that several threads share. A step is one section
between `ilock` and `iunlock`.
-/

import Xv6.Kernel.Inode

namespace Xv6

abbrev nindirect : Nat := bsize / 4

abbrev maxfile : Nat := ndirect + nindirect

/-- The bytes of a file: those that the buffers have, and those that `log_write` has recorded. They differ
where a failed `copyin` has changed a buffer. -/
structure Contents where
  size : Uint
  data : Nat → Byte
  logged : Nat → Byte

/-- One block of a transfer: `bmap` finds no block, the user's memory ends, or all bytes are copied. -/
inductive BlockCopy where
  | noBlock
  | fault (copied : Nat)
  | done
  deriving DecidableEq

/-- The user's side of a transfer, by the number of bytes that are done. -/
structure UserRange where
  byte : Nat → Byte
  copy : Nat → BlockCopy

namespace Contents

variable (c : Contents)

/-- `copyin` into the buffer of the block at an offset. -/
def fill (off m : Nat) (byte : Nat → Byte) : Contents :=
  { c with data := fun i => if off ≤ i ∧ i < off + m then byte (i - off) else c.data i }

/-- `log_write` of the block at an offset. -/
def logWrite (off : Nat) : Contents :=
  { c with logged := fun i => if i / bsize = off / bsize then c.data i else c.logged i }

/-- The buffer of a block is used for another block, so the next read finds what was logged. -/
def evict (block : Nat) : Contents :=
  { c with data := fun i => if i / bsize = block then c.logged i else c.data i }

/-- The bytes that the next round of a transfer copies. -/
def roundSize (n off tot : Nat) : Nat := min (n - tot) (bsize - (off + tot) % bsize)

/-- The loop of `writei`. -/
def writeLoop (user : UserRange) (n off : Nat) : Nat → Nat → Contents → Contents × Nat
  | 0, tot, c => (c, tot)
  | fuel + 1, tot, c =>
      if tot < n then
        let m := roundSize n off tot
        match user.copy tot with
        | .noBlock => (c, tot)
        | .fault copied => (c.fill (off + tot) (min copied m) fun i => user.byte (tot + i), tot)
        | .done =>
            writeLoop user n off fuel (tot + m)
              ((c.fill (off + tot) m fun i => user.byte (tot + i)).logWrite (off + tot))
      else (c, tot)

/-- `writei`. A round copies at least one byte, so the number of bytes is enough fuel. -/
def writei (user : UserRange) (off n : Uint) : Contents × Int :=
  if c.size < off ∨ off + n < off then (c, -1)
  else if BitVec.ofNat 32 (maxfile * bsize) < off + n then (c, -1)
  else
    let (c, tot) := writeLoop user n.toNat off.toNat n.toNat 0 c
    ({ c with size := if c.size.toNat < off.toNat + tot then BitVec.ofNat 32 (off.toNat + tot) else c.size }, tot)

/-- The loop of `readi`. -/
def readLoop (user : UserRange) (n off : Nat) : Nat → Nat → Int
  | 0, tot => tot
  | fuel + 1, tot =>
      if tot < n then
        match user.copy tot with
        | .noBlock => tot
        | .fault _ => -1
        | .done => readLoop user n off fuel (tot + roundSize n off tot)
      else tot

def readi (user : UserRange) (off n : Uint) : Int :=
  if c.size < off ∨ off + n < off then 0
  else
    let n := if c.size < off + n then c.size - off else n
    readLoop user n.toNat off.toNat n.toNat 0

end Contents

/-- The position of a thread in `fileread` or `filewrite`, and the result of its last call. -/
inductive FilePc where
  | idle
  | read (n : CInt)
  | write (n : CInt) (i : Nat)
  | done (result : Int)

/-- An open file with an inode, and the position of each thread. -/
structure FileMachine (Thread : Type) where
  readable : Bool
  writable : Bool
  off : Uint
  ip : Contents
  pc : Thread → FilePc

inductive FileCall where
  | read (n : CInt)
  | write (n : CInt)

/-- The events. Calls through other open files and the loss of a buffer may change the file between two
sections. -/
inductive FileEvent (Thread : Type) where
  | call (t : Thread) (call : FileCall)
  | turn (t : Thread) (user : UserRange)
  | evict (block : Nat)
  | other (ip : Contents)

/-- One chunk of `filewrite` fits into a transaction. -/
abbrev chunkMax : Nat := (maxopblocks - 1 - 1 - 2) / 2 * bsize

namespace FileMachine

variable {Thread : Type} [DecidableEq Thread] (f : FileMachine Thread)

def goto (t : Thread) (pc : FilePc) : FileMachine Thread := { f with pc := Function.update f.pc t pc }

/-- The offset moves by a positive result. -/
def advance (r : Int) : FileMachine Thread :=
  if 0 < r then { f with off := f.off + BitVec.ofInt 32 r } else f

/-- The end of `filewrite`. -/
def writeResult (n : CInt) (i : Nat) : Int := if (i : Int) = n.toInt then n.toInt else -1

/-- The test of the loop in `filewrite`. -/
def writeNext (n : CInt) (i : Nat) : FilePc :=
  if (i : Int) < n.toInt then .write n i else .done (writeResult n i)

def start (call : FileCall) : FilePc :=
  match call with
  | .read n => if f.readable then .read n else .done (-1)
  | .write n => if f.writable then writeNext n 0 else .done (-1)

/-- The size of the next chunk. -/
def chunk (n : CInt) (i : Nat) : Nat := min (n.toInt - i).toNat chunkMax

/-- One section between `ilock` and `iunlock`. -/
def turn (t : Thread) (user : UserRange) : Option (FileMachine Thread) :=
  match f.pc t with
  | .read n =>
      let r := f.ip.readi user f.off n
      some ((f.advance r).goto t (.done r))
  | .write n i =>
      let n1 := chunk n i
      let (ip, r) := f.ip.writei user f.off (BitVec.ofNat 32 n1)
      let f := { f with ip := ip }.advance r
      some (f.goto t (if r = n1 then writeNext n (i + n1) else .done (writeResult n i)))
  | _ => none

def next : FileEvent Thread → Option (FileMachine Thread)
  | .call t call =>
      match f.pc t with
      | .idle | .done _ => some (f.goto t (f.start call))
      | _ => none
  | .turn t user => f.turn t user
  | .evict block => some { f with ip := f.ip.evict block }
  | .other ip => some { f with ip := ip }

/-- One step of the threads that share an open file. -/
def Step (event : FileEvent Thread) (g : FileMachine Thread) : Prop := f.next event = some g

end FileMachine

end Xv6
