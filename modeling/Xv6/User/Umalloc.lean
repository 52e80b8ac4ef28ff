/-
This file gives `malloc` and `free` of the user library. Memory is a byte for each address, a header is 16 bytes of it,
and `sbrk` is any call on the state of the kernel. A loop around the free list has a bound.
-/

import Xv6.Kernel.Param
import Xv6.Lib.Bytes
import Xv6.Lib.CircularList
import Xv6.Lib.Program
import Xv6.Lib.Tiling

namespace Xv6.Umalloc

open Bytes
open Tiling (Range)

/-- `sizeof(Header)` -/
abbrev headerSize : Nat := 16

/-- `p->s.ptr` -/
def ptrAt (m : ByteMap) (p : Nat) : Nat := (load 8 m p).toNat

/-- `p->s.size` -/
def sizeAt (m : ByteMap) (p : Nat) : Uint := load 4 m (p + 8)

def setPtr (m : ByteMap) (p value : Nat) : ByteMap := overlay p 8 (octet (BitVec.ofNat 64 value)) m

def setSize (m : ByteMap) (p : Nat) (value : Uint) : ByteMap := overlay (p + 8) 4 (octet value) m

/-- The address after a block, as the sum of a pointer to its header and its size. -/
def endOf (m : ByteMap) (p : Nat) : Nat := p + headerSize * (sizeAt m p).toNat

/-- The memory of a program with the static variable `freep`, and the state of the kernel behind it. The regions that
`sbrk` has returned are recorded for the proofs only. -/
structure World (Env : Type) where
  mem : ByteMap
  freep : Nat
  env : Env
  granted : List Range

/-- A call does not return when the kernel panics in it, or when a loop goes on beyond every bound. -/
inductive Stop where
  | panicked
  | diverged
  deriving DecidableEq

/-- No free list has more nodes. -/
abbrev listBound : Nat := 2 ^ 34

section
variable {Env : Type} (sbrk : Env → CInt → Except Stop (Option Nat × Env)) (base : Nat)

abbrev M (Env : Type) := Program (World Env) Stop

/-- The loop of `free` stops at the node after which the block belongs. -/
def precedes (m : ByteMap) (bp p : Nat) : Bool :=
  (p < bp ∧ bp < ptrAt m p) ∨ (ptrAt m p ≤ p ∧ (p < bp ∨ bp < ptrAt m p))

/-- `free` joins the block with the node behind it or links to that node. -/
def joinUp (bp p : Nat) (m : ByteMap) : ByteMap :=
  if endOf m bp = ptrAt m p then
    let m := setSize m bp (sizeAt m bp + sizeAt m (ptrAt m p))
    setPtr m bp (ptrAt m (ptrAt m p))
  else setPtr m bp (ptrAt m p)

/-- `free` joins the block with the node before it or links that node to it. -/
def joinDown (bp p : Nat) (m : ByteMap) : ByteMap :=
  if endOf m p = bp then
    let m := setSize m p (sizeAt m p + sizeAt m bp)
    setPtr m p (ptrAt m bp)
  else setPtr m p bp

def free (ap : Nat) : M Env Unit := do
  let bp := ap - headerSize
  let w ← get
  match CircularList.find (ptrAt w.mem) (precedes w.mem bp) listBound w.freep with
  | none => throw .diverged
  | some p => set { w with mem := joinDown bp p (joinUp bp p w.mem), freep := p }

/-- `sbrk` takes an `int` and returns none for -1. -/
def callSbrk (n : CInt) : M Env (Option Nat) := do
  let w ← get
  match sbrk w.env n with
  | .error stop => throw stop
  | .ok (none, env) => do
      set { w with env := env }
      return none
  | .ok (some p, env) => do
      set { w with env := env, granted := ⟨p, p + n.toInt.toNat⟩ :: w.granted }
      return some p

/-- The argument of `sbrk` in `morecore`, a 64-bit product as an `int`. -/
def byteCount (nu : Uint) : CInt := (nu.setWidth 64 * 16#64).setWidth 32

/-- The number of units that `morecore` asks for. -/
def coreUnits (nu : Uint) : Uint := if nu < 4096 then 4096 else nu

/-- `morecore` returns a null pointer when `sbrk` fails. -/
def morecore (nu : Uint) : M Env Nat := do
  let nu := coreUnits nu
  match ← callSbrk sbrk (byteCount nu) with
  | none => return 0
  | some hp => do
      modify fun w => { w with mem := setSize w.mem hp nu }
      free (hp + headerSize)
      return (← get).freep

/-- `malloc` takes a large enough block out of the list, or the end of it. -/
def carve (nunits : Uint) (prevp p : Nat) : M Env Nat := do
  let w ← get
  if sizeAt w.mem p = nunits then
    set { w with mem := setPtr w.mem prevp (ptrAt w.mem p), freep := prevp }
    return p + headerSize
  else
    let m := setSize w.mem p (sizeAt w.mem p - nunits)
    let q := endOf m p
    set { w with mem := setSize m q nunits, freep := prevp }
    return q + headerSize

/-- The loop of `malloc`. -/
def mallocLoop (nunits : Uint) : Nat → Nat → Nat → M Env Nat
  | 0, _, _ => throw .diverged
  | bound + 1, prevp, p => do
      let w ← get
      if nunits ≤ sizeAt w.mem p then carve nunits prevp p
      else if p = w.freep then do
        let core ← morecore sbrk nunits
        if core = 0 then return 0
        else mallocLoop nunits bound core (ptrAt (← get).mem core)
      else mallocLoop nunits bound p (ptrAt w.mem p)

/-- The number of units for some bytes and a header. The sum is one of 64-bit numbers. -/
def unitsFor (nbytes : Uint) : Uint := ((nbytes.setWidth 64 + 16#64 - 1#64) / 16#64 + 1#64).setWidth 32

def malloc (nbytes : Uint) : M Env Nat := do
  modify fun w =>
    if w.freep = 0 then { w with mem := setSize (setPtr w.mem base base) base 0, freep := base } else w
  let w ← get
  mallocLoop sbrk (unitsFor nbytes) listBound w.freep (ptrAt w.mem w.freep)

end

end Xv6.Umalloc
