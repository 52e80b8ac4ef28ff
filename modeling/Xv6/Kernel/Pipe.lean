/-
This file gives pipes. Any number of threads call `pipewrite`, `piperead` and `pipeclose` on one pipe. A step
is one part of a call between two points at which another thread or `kill` can be seen.
-/

import Xv6.Kernel.Param
import Xv6.Lib.RingBuffer
import Xv6.Lib.Run

namespace Xv6

abbrev pipesize : Nat := 512

structure Pipe where
  data : Fin pipesize → Byte
  nread : Uint
  nwrite : Uint
  readopen : Bool
  writeopen : Bool

/-- The data and the two counters form a ring buffer. -/
def Pipe.ring (pi : Pipe) : RingBuffer Byte pipesize 32 := ⟨pi.data, pi.nread, pi.nwrite⟩

/-- `pipealloc` opens both ends of an empty pipe. -/
def pipealloc (data : Fin pipesize → Byte) : Pipe := ⟨data, 0, 0, true, true⟩

/-- The next part of the call that a thread is in. A thread that sleeps waits for one of the counters. -/
inductive PipePc where
  | idle
  | writeLock (n : CInt) (i : Nat)
  | write (n : CInt) (i : Nat)
  | writeByte (n : CInt) (i : Nat)
  | writeSleep (n : CInt) (i : Nat)
  | writeDone (i : Nat)
  | readLock (n : CInt)
  | read (n : CInt)
  | readKilled (n : CInt)
  | readPark (n : CInt)
  | readSleep (n : CInt)
  | readByte (n : CInt) (got : List Byte)
  | readDone (got : List Byte)
  | closeLock (writable : Bool)
  deriving DecidableEq

/-- The pipe, the holder of its lock, and the position and the killed flag of each thread. -/
structure PipeMachine (Thread : Type) where
  pipe : Pipe
  lock : Option Thread
  pc : Thread → PipePc
  killed : Thread → Bool

inductive PipeCall where
  | write (n : CInt)
  | read (n : CInt)
  | close (writable : Bool)

/-- The user's side of `copyin` or `copyout` for one byte. -/
structure UserByte where
  byte : Byte
  ok : Bool

inductive PipeEvent (Thread : Type) where
  | call (t : Thread) (call : PipeCall)
  | step (t : Thread) (copy : UserByte)
  | kill (t : Thread)

/-- `wakeup(&pi->nread)` -/
def wakeReader : PipePc → PipePc
  | .readSleep n => .readLock n
  | pc => pc

/-- `wakeup(&pi->nwrite)` -/
def wakeWriter : PipePc → PipePc
  | .writeSleep n i => .writeLock n i
  | pc => pc

namespace PipeMachine

variable {Thread : Type} [DecidableEq Thread] (s : PipeMachine Thread)

def goto (t : Thread) (pc : PipePc) : PipeMachine Thread :=
  { s with pc := Function.update s.pc t pc }

/-- The thread takes the lock, if it is free. -/
def acquire (t : Thread) (pc : PipePc) : Option (PipeMachine Thread) :=
  if s.lock = none then some { s.goto t pc with lock := some t } else none

def release : PipeMachine Thread := { s with lock := none }

def wakeReaders : PipeMachine Thread := { s with pc := fun t => wakeReader (s.pc t) }

def wakeWriters : PipeMachine Thread := { s with pc := fun t => wakeWriter (s.pc t) }

/-- One round of the loop of `pipewrite`, after its test of the killed flag. -/
def writeByte (t : Thread) (n : CInt) (i : Nat) (copy : UserByte) : PipeMachine Thread :=
  if s.pipe.nwrite = s.pipe.nread + BitVec.ofNat 32 pipesize then
    (s.wakeReaders.goto t (.writeSleep n i)).release
  else if copy.ok then
    { s.goto t (.write n (i + 1)) with
      pipe := { s.pipe with
        data := Function.update s.pipe.data (RingBuffer.slot s.pipe.nwrite) copy.byte
        nwrite := s.pipe.nwrite + 1 } }
  else s.goto t (.writeDone i)

/-- One round of the copy loop of `piperead`. The counter moves before `copyout`. -/
def readByte (t : Thread) (n : CInt) (got : List Byte) (copy : UserByte) : PipeMachine Thread :=
  if (got.length : Int) < n.toInt then
    if s.pipe.nread = s.pipe.nwrite then s.goto t (.readDone got)
    else
      let ch := s.pipe.data (RingBuffer.slot s.pipe.nread)
      let moved := { s with pipe := { s.pipe with nread := s.pipe.nread + 1 } }
      if copy.ok then moved.goto t (.readByte n (got ++ [ch])) else moved.goto t (.readDone got)
  else s.goto t (.readDone got)

/-- `pipeclose` closes one end and wakes the threads that wait for it. -/
def close (writable : Bool) : PipeMachine Thread :=
  if writable then { s with pipe := { s.pipe with writeopen := false } }.wakeReaders
  else { s with pipe := { s.pipe with readopen := false } }.wakeWriters

/-- The next part of a thread's call. -/
def step (t : Thread) (copy : UserByte) : Option (PipeMachine Thread) :=
  match s.pc t with
  | .idle | .writeSleep _ _ | .readSleep _ => none
  | .writeLock n i => s.acquire t (.write n i)
  | .write n i =>
      if (i : Int) < n.toInt then
        if s.pipe.readopen = false ∨ s.killed t = true then some (s.goto t .idle).release
        else some (s.goto t (.writeByte n i))
      else some (s.goto t (.writeDone i))
  | .writeByte n i => some (s.writeByte t n i copy)
  | .writeDone _ => some (s.wakeReaders.goto t .idle).release
  | .readLock n => s.acquire t (.read n)
  | .read n =>
      if s.pipe.nread = s.pipe.nwrite ∧ s.pipe.writeopen = true then some (s.goto t (.readKilled n))
      else some (s.goto t (.readByte n []))
  | .readKilled n => if s.killed t then some (s.goto t .idle).release else some (s.goto t (.readPark n))
  | .readPark n => some (s.goto t (.readSleep n)).release
  | .readByte n got => some (s.readByte t n got copy)
  | .readDone _ => some (s.wakeWriters.goto t .idle).release
  | .closeLock writable => if s.lock = none then some ((s.close writable).goto t .idle) else none

/-- A thread starts a call. -/
def start : PipeCall → PipePc
  | .write n => .writeLock n 0
  | .read n => .readLock n
  | .close writable => .closeLock writable

/-- `kill` sets the flag and wakes a sleeper. -/
def kill (t : Thread) : PipeMachine Thread :=
  { s.goto t (wakeReader (wakeWriter (s.pc t))) with killed := Function.update s.killed t true }

def next : PipeEvent Thread → Option (PipeMachine Thread)
  | .call t call => if s.pc t = .idle then some (s.goto t (start call)) else none
  | .step t copy => s.step t copy
  | .kill t => some (s.kill t)

/-- One step of the threads on a pipe. -/
def Step (event : PipeEvent Thread) (t : PipeMachine Thread) : Prop := s.next event = some t

/-- The pipe is new and no thread is in a call. -/
def boot (data : Fin pipesize → Byte) : PipeMachine Thread :=
  ⟨pipealloc data, none, fun _ => .idle, fun _ => false⟩

end PipeMachine

end Xv6
