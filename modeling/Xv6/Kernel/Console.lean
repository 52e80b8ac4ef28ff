/-
This file gives the input side of the console. Any number of threads call `consoleread`, and the interrupt handler
calls `consoleintr` for each typed character. A step is the part of a call that holds `cons.lock`.
-/

import Xv6.Kernel.Param
import Xv6.Lib.RingBuffer
import Xv6.Lib.Run

namespace Xv6

abbrev inputBufSize : Nat := 128

/-- `C(x)` -/
def ctrl (x : Char) : Byte := BitVec.ofNat 8 (x.toNat - '@'.toNat)

def newline : Byte := 10
def carriageReturn : Byte := 13
def deleteKey : Byte := 0x7f

structure Cons where
  buf : Fin inputBufSize → Byte
  r : Uint
  w : Uint
  e : Uint

namespace Cons

variable (s : Cons)

/-- The characters between the read index and the edit index form a ring buffer. -/
def ring : RingBuffer Byte inputBufSize 32 := ⟨s.buf, s.r, s.e⟩

/-- The loop of `^U`. It runs at most once for each uncommitted character. -/
def killLine : Nat → Cons → Cons
  | 0, s => s
  | k + 1, s =>
      if s.e ≠ s.w ∧ s.buf (RingBuffer.slot (s.e - 1)) ≠ newline then killLine k { s with e := s.e - 1 } else s

/-- The handler of one character, and whether it calls `wakeup`. -/
def consoleintr (c : Byte) : Cons × Bool :=
  if c = ctrl 'P' then (s, false)
  else if c = ctrl 'U' then (s.killLine (s.e - s.w).toNat, false)
  else if c = ctrl 'H' ∨ c = deleteKey then (if s.e ≠ s.w then { s with e := s.e - 1 } else s, false)
  else if c ≠ 0 ∧ (s.e - s.r).toNat < inputBufSize then
    let c := if c = carriageReturn then newline else c
    let stored := { s with buf := Function.update s.buf (RingBuffer.slot s.e) c, e := s.e + 1 }
    if c = newline ∨ c = ctrl 'D' ∨ (stored.e - stored.r).toNat = inputBufSize then ({ stored with w := stored.e }, true)
    else (stored, false)
  else (s, false)

end Cons

/-- A call either sleeps with `n` bytes still wanted, or returns its count. The list has the copied bytes. -/
inductive ReadTurn where
  | sleeps (n : Nat) (got : List Byte)
  | returns (count : Nat) (got : List Byte)
  deriving DecidableEq

/-- The loop of `consoleread` from the test of `n` to the next sleep or to the return. -/
def Cons.consoleread (target : Nat) : Nat → List Byte → Cons → Cons × ReadTurn
  | 0, got, s => (s, .returns (target - 0) got)
  | n + 1, got, s =>
      if s.r = s.w then (s, .sleeps (n + 1) got)
      else
        let c := s.buf (RingBuffer.slot s.r)
        let next := { s with r := s.r + 1 }
        if c = ctrl 'D' then
          (if n + 1 < target then { next with r := next.r - 1 } else next, .returns (target - (n + 1)) got)
        else if c = newline then (next, .returns (target - n) (got ++ [c]))
        else consoleread target n (got ++ [c]) next

/-- The place of a thread: outside the console, asleep on `cons.r`, or awake again in the loop. -/
inductive ReaderPc where
  | idle
  | asleep (target n : Nat) (got : List Byte)
  | awake (target n : Nat) (got : List Byte)
  deriving DecidableEq

structure Console (Thread : Type) where
  cons : Cons
  pc : Thread → ReaderPc

inductive ConsoleEvent (Thread : Type) where
  | key (c : Byte)
  | read (t : Thread) (n : Nat)
  | resume (t : Thread)

/-- An event together with the count and the bytes of the call that returns in it. -/
abbrev ConsoleLabel (Thread : Type) := ConsoleEvent Thread × Option (Nat × List Byte)

/-- `wakeup(&cons.r)` -/
def wakeConsole : ReaderPc → ReaderPc
  | .asleep target n got => .awake target n got
  | pc => pc

namespace Console

variable {Thread : Type} [DecidableEq Thread] (s : Console Thread)

/-- A thread runs its loop. -/
def run (t : Thread) (target n : Nat) (got : List Byte) : Console Thread × Option (Nat × List Byte) :=
  match s.cons.consoleread target n got with
  | (cons, .sleeps n got) => (⟨cons, Function.update s.pc t (.asleep target n got)⟩, none)
  | (cons, .returns count got) => (⟨cons, Function.update s.pc t .idle⟩, some (count, got))

def next : ConsoleEvent Thread → Option (Console Thread × Option (Nat × List Byte))
  | .key c =>
      let (cons, wake) := s.cons.consoleintr c
      some (⟨cons, if wake then fun t => wakeConsole (s.pc t) else s.pc⟩, none)
  | .read t n => match s.pc t with
      | .idle => some (s.run t n n [])
      | _ => none
  | .resume t => match s.pc t with
      | .awake target n got => some (s.run t target n got)
      | _ => none

def Step (label : ConsoleLabel Thread) (t : Console Thread) : Prop := s.next label.1 = some (t, label.2)

/-- The console starts with zeroed indices. -/
def boot : Console Thread := ⟨⟨fun _ => 0, 0, 0, 0⟩, fun _ => .idle⟩

end Console

end Xv6
