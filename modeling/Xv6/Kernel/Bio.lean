/-
This file gives the buffer cache. Any processes call `bread`, `bwrite`, `brelse`, `bpin` and `bunpin`. A step
is one critical section of `bcache.lock`, one operation of a buffer's sleep lock or one disk transfer.
-/

import Xv6.Kernel.Param
import Xv6.Lib.LinkedList
import Xv6.Lib.Run

namespace Xv6

/-- A buffer is an index of the array of the cache. -/
abbrev BufIndex := Fin nbuf

/-- The device and the number of a block. -/
abbrev BlockKey := Uint × Uint

/-- A buffer. Its sleep lock names the process that holds it. -/
structure Buf (Data : Type) where
  valid : Bool
  key : BlockKey
  lock : Option Slot
  refcnt : Uint
  data : Data

/-- The next part of the call that a process is in. -/
inductive BioPc where
  | idle
  | get (key : BlockKey)
  | lock (b : BufIndex) (key : BlockKey)
  | fill (b : BufIndex) (key : BlockKey)
  | filled (b : BufIndex) (key : BlockKey)
  | write (b : BufIndex)
  | unlock (b : BufIndex)
  | drop (b : BufIndex)
  deriving DecidableEq

inductive BioPanic where
  | bget
  | bwrite
  | brelse
  deriving DecidableEq

/-- The cache, the disk, the position of each process and the pins that the log has not undone. -/
structure Bcache (Data : Type) where
  buf : BufIndex → Buf Data
  list : Links BufIndex
  disk : Uint → Data
  pc : Slot → BioPc
  pins : BufIndex → Nat
  panic : Option BioPanic

inductive BioEvent (Data : Type) where
  | read (t : Slot) (key : BlockKey)
  | store (t : Slot) (b : BufIndex) (data : Data)
  | write (t : Slot) (b : BufIndex)
  | release (t : Slot) (b : BufIndex)
  | pin (t : Slot) (b : BufIndex)
  | unpin (t : Slot) (b : BufIndex)
  | step (t : Slot)

namespace Bcache

/-- `binit` puts the buffers into the list one after another. -/
def binit : Links BufIndex :=
  (List.finRange nbuf).foldl (fun list b => list.insertFront b) ⟨fun _ => none, fun _ => none⟩

/-- No buffer is in use. The kernel's memory is zero, so every buffer has the key of block zero of device
zero. -/
def boot {Data : Type} (data : BufIndex → Data) (disk : Uint → Data) : Bcache Data :=
  { buf := fun b => ⟨false, (0, 0), none, 0, data b⟩, list := binit, disk := disk, pc := fun _ => .idle,
    pins := fun _ => 0, panic := none }

variable {Data : Type} (s : Bcache Data)

def goto (t : Slot) (pc : BioPc) : Bcache Data := { s with pc := Function.update s.pc t pc }

def setBuf (b : BufIndex) (buf : Buf Data) : Bcache Data := { s with buf := Function.update s.buf b buf }

/-- The first loop of `bget`, from the most recently used buffer. -/
def cached (key : BlockKey) : Option BufIndex :=
  s.list.findNext (fun b => (s.buf b).key = key) (nbuf + 1) (s.list.next none)

/-- The second loop of `bget`, from the least recently used buffer. -/
def unused : Option BufIndex :=
  s.list.findPrev (fun b => (s.buf b).refcnt = 0) (nbuf + 1) (s.list.prev none)

/-- The part of `bget` inside `bcache.lock`. -/
def bget (t : Slot) (key : BlockKey) : Bcache Data :=
  match s.cached key with
  | some b => (s.setBuf b { s.buf b with refcnt := (s.buf b).refcnt + 1 }).goto t (.lock b key)
  | none =>
      match s.unused with
      | some b => (s.setBuf b { s.buf b with key := key, valid := false, refcnt := 1 }).goto t (.lock b key)
      | none => { s with panic := some .bget }

/-- The part of `brelse` inside `bcache.lock`. A buffer that no one waits for goes to the front. -/
def drop (t : Slot) (b : BufIndex) : Bcache Data :=
  let s := (s.setBuf b { s.buf b with refcnt := (s.buf b).refcnt - 1 }).goto t .idle
  if (s.buf b).refcnt = 0 then { s with list := (s.list.unlink b).insertFront b } else s

/-- `holdingsleep` -/
def holding (t : Slot) (b : BufIndex) : Bool := (s.buf b).lock = some t

/-- The next part of a process's call. `virtio_disk_rw` uses the block number and not the device. -/
def step (t : Slot) : Option (Bcache Data) :=
  match s.pc t with
  | .idle => none
  | .get key => some (s.bget t key)
  | .lock b key =>
      if (s.buf b).lock = none then some ((s.setBuf b { s.buf b with lock := some t }).goto t (.fill b key))
      else none
  | .fill b key =>
      if (s.buf b).valid then some (s.goto t .idle)
      else some ((s.setBuf b { s.buf b with data := s.disk (s.buf b).key.2 }).goto t (.filled b key))
  | .filled b _ => some ((s.setBuf b { s.buf b with valid := true }).goto t .idle)
  | .write b =>
      some ({ s with disk := Function.update s.disk (s.buf b).key.2 (s.buf b).data }.goto t .idle)
  | .unlock b => some ((s.setBuf b { s.buf b with lock := none }).goto t (.drop b))
  | .drop b => some (s.drop t b)

/-- A process between two calls may change the data of a buffer that it holds, and the log pins such a buffer.
The log has room for `logsize` blocks, so it has no more pins than that. -/
def next : BioEvent Data → Option (Bcache Data)
  | .read t key => if s.panic = none ∧ s.pc t = .idle then some (s.goto t (.get key)) else none
  | .store t b data =>
      if s.panic = none ∧ s.pc t = .idle ∧ s.holding t b then some (s.setBuf b { s.buf b with data := data })
      else none
  | .write t b =>
      if s.panic = none ∧ s.pc t = .idle then
        if s.holding t b then some (s.goto t (.write b)) else some { s with panic := some .bwrite }
      else none
  | .release t b =>
      if s.panic = none ∧ s.pc t = .idle then
        if s.holding t b then some (s.goto t (.unlock b)) else some { s with panic := some .brelse }
      else none
  | .pin t b =>
      if s.panic = none ∧ s.pc t = .idle ∧ s.holding t b ∧ s.pins b < logsize then
        some { s.setBuf b { s.buf b with refcnt := (s.buf b).refcnt + 1 } with
          pins := Function.update s.pins b (s.pins b + 1) }
      else none
  | .unpin t b =>
      if s.panic = none ∧ s.pc t = .idle ∧ 0 < s.pins b then
        some { s.setBuf b { s.buf b with refcnt := (s.buf b).refcnt - 1 } with
          pins := Function.update s.pins b (s.pins b - 1) }
      else none
  | .step t => if s.panic = none then s.step t else none

/-- One step of the processes on the buffer cache. -/
def Step (event : BioEvent Data) (u : Bcache Data) : Prop := s.next event = some u

end Bcache

end Xv6
