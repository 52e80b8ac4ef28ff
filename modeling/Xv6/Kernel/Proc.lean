/-
This file gives the process record and the two functions that set it up and clear it.
A pointer to memory that one process owns is an option of the memory's contents.
-/

import Xv6.Kernel.Param

namespace Xv6

/-- The general registers that the trampoline saves and restores. -/
inductive Reg where
  | ra | sp | gp | tp
  | t0 | t1 | t2 | t3 | t4 | t5 | t6
  | s0 | s1 | s2 | s3 | s4 | s5 | s6 | s7 | s8 | s9 | s10 | s11
  | a0 | a1 | a2 | a3 | a4 | a5 | a6 | a7
  deriving DecidableEq

/-- The trapframe page holds the user registers and the kernel's entry data. -/
structure Trapframe where
  kernelSatp : Uint64
  kernelSp : Uint64
  kernelTrap : Uint64
  epc : Uint64
  kernelHartid : Uint64
  regs : Reg → Uint64

inductive ProcState where
  | unused
  | used
  | sleeping
  | runnable
  | running
  | zombie
  deriving DecidableEq

/-- A sleep channel is the address of the kernel object that the sleeper waits for. -/
inductive Chan where
  | ticks
  | proc (slot : Slot)
  | other (address : Nat)
  deriving DecidableEq

/-- The feedback scheduler keeps this record for each process. -/
structure MlfqProc where
  currPri : Int
  wtime : Uint
  numTicks : Uint
  inQueue : Bool
  intime : Uint
  deriving DecidableEq

/-- The record that `memset` clears. -/
def MlfqProc.zero : MlfqProc := ⟨0, 0, 0, false, 0⟩

/-- One entry of the process table. -/
structure Proc where
  state : ProcState
  chan : Option Chan
  killed : Bool
  xstate : CInt
  pid : CInt
  parent : Option Slot
  sz : Uint64
  pagetable : Option Uint64
  trapframe : Option Trapframe
  ofile : Fin nofile → Option Uint64
  cwd : Option Uint64
  name : String
  rtime : Uint
  ctime : Uint
  etime : Uint
  sigalarmRunning : Bool
  sigalarmNticks : CInt
  sigalarmHandler : Uint64
  ticksElapsed : CInt
  trapBackup : Option Trapframe
  mlfqData : MlfqProc

/-- The kernel image starts with a zeroed process table. -/
def Proc.zero : Proc where
  state := .unused
  chan := none
  killed := false
  xstate := 0
  pid := 0
  parent := none
  sz := 0
  pagetable := none
  trapframe := none
  ofile := fun _ => none
  cwd := none
  name := ""
  rtime := 0
  ctime := 0
  etime := 0
  sigalarmRunning := false
  sigalarmNticks := 0
  sigalarmHandler := 0
  ticksElapsed := 0
  trapBackup := none
  mlfqData := .zero

/-- `kalloc` fills a page with the byte five. -/
def junkFrame : Trapframe :=
  let junk : Uint64 := 0x0505050505050505
  ⟨junk, junk, junk, junk, junk, fun _ => junk⟩

/-- `freeproc` clears the record, except for the files, the times and the tick count. -/
def freeproc (build : Build) (p : Proc) : Proc :=
  { p with
    trapframe := none
    pagetable := none
    sz := 0
    pid := 0
    parent := none
    name := ""
    chan := none
    killed := false
    xstate := 0
    state := .unused
    trapBackup := none
    sigalarmNticks := 0
    sigalarmRunning := false
    sigalarmHandler := 0
    mlfqData := match build with
      | .mlfq => .zero
      | _ => p.mlfqData }

/-- This part of `allocproc` runs after it found an unused slot, with that slot's lock held.
The page is the result of `kalloc` and the table is the result of `proc_pagetable`. -/
def allocproc (build : Build) (pid : CInt) (ticks : Uint) (page : Option Trapframe)
    (table : Option Uint64) (p : Proc) : Option Proc × Proc :=
  let started := { p with pid := pid, state := .used, trapframe := page }
  match page with
  | none => (none, freeproc build started)
  | some _ =>
      let mapped := { started with pagetable := table }
      match table with
      | none => (none, freeproc build mapped)
      | some _ =>
          let ready := { mapped with
            rtime := 0
            etime := 0
            ctime := ticks
            ticksElapsed := 0
            sigalarmHandler := 0
            sigalarmRunning := false
            sigalarmNticks := 0 }
          (some ready, ready)

end Xv6
