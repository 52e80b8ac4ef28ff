/-
This file gives the protocol of the process tree: who is whose parent, who sleeps in `wait`, and who
holds `wait_lock`. The machine of the process calls is a refinement of it.
-/

import Xv6.Kernel.ProcSystem

namespace Xv6.ProcTree

/-- The part of the process table that the protocol is about. -/
structure Tree where
  state : Slot → ProcState
  chan : Slot → Option Chan
  parent : Slot → Option Slot
  pc : Slot → CallPc
  lock : Option Slot

/-- A live process has been started and has not exited. -/
def Alive (state : ProcState) : Prop := state = .sleeping ∨ state = .runnable ∨ state = .running

/-- The process sleeps in `wait`, on its own record. -/
def Tree.Waiting (t : Tree) (p : Slot) : Prop :=
  t.state p = .sleeping ∧ t.chan p = some (.proc p)

/-- The sections that hold `wait_lock`. -/
def holds : CallPc → Bool
  | .exitReparent _ _ | .exitReparentWake _ _ _ | .exitWakeParent _ _ _ | .exitZombie _ => true
  | .waitScan _ _ _ | .waitSleep _ => true
  | _ => false

/-- The sections of `exit`. -/
def exits : CallPc → Bool
  | .exitClose _ | .exitLock _ => true
  | .exitReparent _ _ | .exitReparentWake _ _ _ | .exitWakeParent _ _ _ | .exitZombie _ => true
  | _ => false

/-- The child that a `fork` has allocated and not yet made runnable. -/
def newborn : CallPc → Option Slot
  | .forkParent np | .forkReady np => some np
  | _ => none

/-- An exiting process has given away its children below this slot. -/
def movedBelow : CallPc → Nat
  | .exitReparent _ i => i
  | .exitReparentWake _ i _ => i + 1
  | .exitWakeParent _ _ _ | .exitZombie _ => nproc
  | _ => 0

/-- A waiting process has seen no exited child below this slot. -/
def scannedBelow : CallPc → Nat
  | .waitScan _ i _ => i
  | .waitSleep _ => nproc
  | _ => 0

/-- An exiting process has woken its parent if the parent lies below this slot. -/
def wokenBelow : CallPc → Nat
  | .exitWakeParent _ _ j => j
  | .exitZombie _ => nproc
  | _ => 0

/-- An exiting process has given a child to the first process and is about to wake it. -/
def rouses : CallPc → Bool
  | .exitReparentWake _ _ j => j ≤ initproc.val
  | _ => false

/-- The holder of the lock is about to wake the first process. -/
def Tree.rousing (t : Tree) : Bool :=
  match t.lock with
  | some p => rouses (t.pc p)
  | none => false

/-- A section outside the lock that has no newborn child. -/
def Plain (pc : CallPc) : Prop := holds pc = false ∧ newborn pc = none

/-- One step of the protocol. -/
inductive TreeStep (t : Tree) : Tree → Prop where
  | move (p : Slot) (pc : CallPc) (chan : Option Chan) :
      t.state p = .running → Plain (t.pc p) → Plain pc → (exits pc = true → p ≠ initproc) →
      TreeStep t { t with
        pc := Function.update t.pc p pc, chan := Function.update t.chan p chan }
  | doze (p : Slot) (chan : Chan) :
      t.state p = .running → t.pc p = .user → chan ≠ .proc p →
      TreeStep t { t with
        state := Function.update t.state p .sleeping
        chan := Function.update t.chan p (some chan)
        pc := Function.update t.pc p .asleep }
  | schedule (p : Slot) :
      t.state p = .runnable → TreeStep t { t with state := Function.update t.state p .running }
  | preempt (p : Slot) :
      t.state p = .running → t.lock ≠ some p →
      TreeStep t { t with state := Function.update t.state p .runnable }
  | rouse (i : Slot) :
      t.state i = .sleeping → TreeStep t { t with state := Function.update t.state i .runnable }
  | scrub (i : Slot) :
      t.state i = .unused →
      TreeStep t { t with
        parent := Function.update t.parent i none, chan := Function.update t.chan i none }
  | alloc (p np : Slot) :
      t.state p = .running → Plain (t.pc p) → t.state np = .unused →
      TreeStep t { t with
        state := Function.update t.state np .used
        pc := Function.update t.pc p (.forkParent np) }
  | adopt (p np : Slot) :
      t.pc p = .forkParent np → t.lock = none →
      TreeStep t { t with
        parent := Function.update t.parent np (some p)
        pc := Function.update t.pc p (.forkReady np) }
  | ready (p np : Slot) :
      t.pc p = .forkReady np →
      TreeStep t { t with
        state := Function.update t.state np .runnable, pc := Function.update t.pc p .user }
  | enterExit (p : Slot) (status : CInt) :
      t.state p = .running → t.pc p = .exitLock status → t.lock = none →
      TreeStep t { t with
        pc := Function.update t.pc p (.exitReparent status 0), lock := some p }
  | enterWait (p : Slot) (call : WaitCall) :
      t.state p = .running → t.pc p = .waitLock call → t.lock = none →
      TreeStep t { t with
        pc := Function.update t.pc p (.waitScan call 0 false), lock := some p }
  | give (p : Slot) (status : CInt) (pp : Slot) :
      t.pc p = .exitReparent status pp.val → t.parent pp = some p →
      TreeStep t { t with
        parent := Function.update t.parent pp (some initproc)
        pc := Function.update t.pc p (.exitReparentWake status pp.val 0) }
  | skip (p : Slot) (status : CInt) (pp : Slot) :
      t.pc p = .exitReparent status pp.val → t.parent pp ≠ some p →
      TreeStep t { t with pc := Function.update t.pc p (.exitReparent status (pp.val + 1)) }
  | given (p : Slot) (status : CInt) (i : Nat) :
      t.pc p = .exitReparent status i → nproc ≤ i →
      TreeStep t { t with
        pc := Function.update t.pc p (.exitWakeParent status (t.parent p) 0) }
  | wakeInit (p : Slot) (status : CInt) (i j : Nat) :
      t.pc p = .exitReparentWake status i j → (j = initproc.val → ¬ t.Waiting initproc) →
      TreeStep t { t with pc := Function.update t.pc p (.exitReparentWake status i (j + 1)) }
  | wokenInit (p : Slot) (status : CInt) (i j : Nat) :
      t.pc p = .exitReparentWake status i j → nproc ≤ j →
      TreeStep t { t with pc := Function.update t.pc p (.exitReparent status (i + 1)) }
  | wakeParent (p : Slot) (status : CInt) (chan : Option Slot) (j : Nat) :
      t.pc p = .exitWakeParent status chan j → (∀ q, chan = some q → q.val = j → ¬ t.Waiting q) →
      TreeStep t { t with pc := Function.update t.pc p (.exitWakeParent status chan (j + 1)) }
  | wokenParent (p : Slot) (status : CInt) (chan : Option Slot) (j : Nat) :
      t.pc p = .exitWakeParent status chan j → nproc ≤ j →
      TreeStep t { t with pc := Function.update t.pc p (.exitZombie status) }
  | die (p : Slot) (status : CInt) :
      t.pc p = .exitZombie status →
      TreeStep t { t with
        state := Function.update t.state p .zombie, pc := Function.update t.pc p .user
        lock := none }
  | pass (p : Slot) (call : WaitCall) (pp : Slot) (kids kids' : Bool) :
      t.pc p = .waitScan call pp.val kids → (t.parent pp = some p → t.state pp ≠ .zombie) →
      TreeStep t { t with pc := Function.update t.pc p (.waitScan call (pp.val + 1) kids') }
  | reap (p : Slot) (call : WaitCall) (pp : Slot) (kids : Bool) :
      t.pc p = .waitScan call pp.val kids → t.parent pp = some p → t.state pp = .zombie →
      TreeStep t { t with
        state := Function.update t.state pp .unused
        chan := Function.update t.chan pp none
        parent := Function.update t.parent pp none
        pc := Function.update t.pc p .user
        lock := none }
  | leave (p : Slot) (call : WaitCall) (i : Nat) (kids : Bool) :
      t.pc p = .waitScan call i kids →
      TreeStep t { t with pc := Function.update t.pc p .user, lock := none }
  | tire (p : Slot) (call : WaitCall) (i : Nat) (kids : Bool) :
      t.pc p = .waitScan call i kids → nproc ≤ i →
      TreeStep t { t with pc := Function.update t.pc p (.waitSleep call) }
  | sleep (p : Slot) (call : WaitCall) :
      t.pc p = .waitSleep call →
      TreeStep t { t with
        state := Function.update t.state p .sleeping
        chan := Function.update t.chan p (some (.proc p))
        pc := Function.update t.pc p (.waitAsleep call)
        lock := none }

end Xv6.ProcTree
