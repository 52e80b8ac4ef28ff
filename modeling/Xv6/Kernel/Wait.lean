/-
This file gives `wait` and `waitx` with the memory of the caller. While the caller sleeps the other processes
change the table, so a call has the table of each of its scans as an argument.
-/

import Xv6.Kernel.ProcCalls
import Xv6.Kernel.Vm

namespace Xv6.Wait

/-- The bytes of an `int` in memory. -/
def intBytes (value : CInt) : List Byte :=
  (List.range 4).map fun k => BitVec.ofNat 8 (value.toNat / 256 ^ k)

/-- The process table and physical memory. -/
structure WaitState where
  proc : Slot → Proc
  ram : Ram

/-- The end of a scan: an exited child with the result of the call, or no exited child. -/
inductive WaitScan where
  | child (np : Slot) (result : CInt)
  | nothing (havekids : Bool)
  deriving DecidableEq

/-- The part of `wait` and `waitx` for an exited child. A failed copy leaves the child in the table. -/
def reapChild (build : Build) (pagetable : Page) (addr : Uint64) (np : Slot) (s : WaitState) : WaitScan × WaitState :=
  let copied := if addr = 0 then (true, s.ram) else copyout pagetable addr (intBytes (s.proc np).xstate) s.ram
  if copied.1 then
    (.child np (s.proc np).pid, ⟨Function.update s.proc np (freeproc build (s.proc np)), copied.2⟩)
  else (.child np (-1), ⟨s.proc, copied.2⟩)

/-- The loop of `wait` and `waitx` over the table. -/
def scanChildren (build : Build) (p : Slot) (pagetable : Page) (addr : Uint64) :
    List Slot → Bool → WaitState → WaitScan × WaitState
  | [], havekids, s => (.nothing havekids, s)
  | np :: rest, havekids, s =>
      if (s.proc np).parent = some p then
        if (s.proc np).state = .zombie then reapChild build pagetable addr np s
        else scanChildren build p pagetable addr rest true s
      else scanChildren build p pagetable addr rest havekids s

/-- `wait` scans the table again each time it is woken. A call without a result is still asleep. -/
def wait (build : Build) (p : Slot) (pagetable : Page) (addr : Uint64) :
    List (Slot → Proc) → Ram → Option (CInt × WaitState)
  | [], _ => none
  | table :: later, ram =>
      match scanChildren build p pagetable addr (List.finRange nproc) false ⟨table, ram⟩ with
      | (.child _ result, s) => some (result, s)
      | (.nothing havekids, s) =>
          if havekids = false ∨ (s.proc p).killed then some (-1, s) else wait build p pagetable addr later s.ram

/-- The two variables on the stack of `sys_waitx`. -/
structure WaitTimes where
  wtime : Uint
  rtime : Uint

/-- `waitx` stores the times of an exited child before it copies the status. -/
def waitx (build : Build) (p : Slot) (pagetable : Page) (addr : Uint64) :
    List (Slot → Proc) → Ram → WaitTimes → Option (CInt × WaitTimes × WaitState)
  | [], _, _ => none
  | table :: later, ram, times =>
      match scanChildren build p pagetable addr (List.finRange nproc) false ⟨table, ram⟩ with
      | (.child np result, s) => some (result, ⟨(waitxTimes (table np)).1, (waitxTimes (table np)).2⟩, s)
      | (.nothing havekids, s) =>
          if havekids = false ∨ (s.proc p).killed then some (-1, times, s)
          else waitx build p pagetable addr later s.ram times

def sysWaitx (build : Build) (p : Slot) (pagetable : Page) (addr addr1 addr2 : Uint64)
    (tables : List (Slot → Proc)) (ram : Ram) (stack : WaitTimes) : Option (CInt × WaitState) :=
  (waitx build p pagetable addr tables ram stack).map fun (ret, times, s) =>
    match copyout pagetable addr1 (intBytes times.wtime) s.ram with
    | (false, ram) => (-1, ⟨s.proc, ram⟩)
    | (true, ram) =>
        match copyout pagetable addr2 (intBytes times.rtime) ram with
        | (false, ram) => (-1, ⟨s.proc, ram⟩)
        | (true, ram) => (ret, ⟨s.proc, ram⟩)

end Xv6.Wait
