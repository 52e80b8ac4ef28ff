/-
This file gives the spinlocks of `spinlock.c`. A lock is held by a CPU, and each CPU counts its `push_off` calls.
-/

import Xv6.Kernel.Param

namespace Xv6

/-- The interrupt state of a CPU: its interrupt-enable bit, the depth of `push_off`, and the bit before the first. -/
structure CpuOff where
  sie : Bool
  noff : Int
  intena : Bool
  deriving DecidableEq

/-- The panics of `spinlock.c` and of `sched`. -/
inductive LockPanic where
  | acquire
  | release
  | popOffInterruptible
  | popOff
  | schedLock
  | schedLocks
  | schedRunning
  | schedInterruptible
  deriving DecidableEq

/-- The CPU that holds each lock, and the interrupt state of each CPU. -/
structure Spinlocks (n : Nat) (Lock : Type) where
  holder : Lock → Option (Fin n)
  off : Fin n → CpuOff

namespace Spinlocks

variable {n : Nat} {Lock : Type} [DecidableEq Lock] (s : Spinlocks n Lock)

def setOff (c : Fin n) (off : CpuOff) : Spinlocks n Lock := { s with off := Function.update s.off c off }

def setHolder (lk : Lock) (holder : Option (Fin n)) : Spinlocks n Lock :=
  { s with holder := Function.update s.holder lk holder }

def pushOff (c : Fin n) : Spinlocks n Lock :=
  let old := (s.off c).sie
  s.setOff c ⟨false, (s.off c).noff + 1, if (s.off c).noff = 0 then old else (s.off c).intena⟩

def popOff (c : Fin n) : Except LockPanic (Spinlocks n Lock) :=
  if (s.off c).sie then .error .popOffInterruptible
  else if (s.off c).noff < 1 then .error .popOff
  else
    let noff := (s.off c).noff - 1
    .ok (s.setOff c ⟨noff = 0 ∧ (s.off c).intena = true, noff, (s.off c).intena⟩)

def holding (c : Fin n) (lk : Lock) : Bool := s.holder lk = some c

/-- `acquire` has no result while another CPU holds the lock. -/
def acquire (c : Fin n) (lk : Lock) : Option (Except LockPanic (Spinlocks n Lock)) :=
  if s.holding c lk then some (.error .acquire)
  else if s.holder lk = none then some (.ok ((s.pushOff c).setHolder lk (some c)))
  else none

def release (c : Fin n) (lk : Lock) : Except LockPanic (Spinlocks n Lock) :=
  if s.holding c lk then (s.setHolder lk none).popOff c else .error .release

end Spinlocks

end Xv6
