/-
This file gives the alarm machine. A step is one trap of one live process, from its entry to its
return, or some user-mode execution. The machine leaves out the order in which processes run:
any live process may take the next trap.
-/

import Xv6.Kernel.Alarm
import Xv6.Lib.Run

namespace Xv6

/-- The process table, the user registers of each process, and the two global counters. -/
structure AlarmState where
  proc : Slot → Proc
  user : Slot → UserRegs
  nextpid : CInt
  ticks : Uint

inductive AlarmEvent where
  | user (i : Slot) (regs : UserRegs)
  | clock
  | tick (i : Slot) (page : Option Trapframe) (entry : KernelEntry)
  | intr (i : Slot) (entry : KernelEntry)
  | sigalarm (i : Slot) (entry : KernelEntry)
  | sigreturn (i : Slot) (entry : KernelEntry)
  | fork (i child : Slot) (table : Uint64) (entry : KernelEntry)
  | forkFail (i child : Slot) (page : Option Trapframe) (table : Option Uint64)
      (entry : KernelEntry)
  | exec (i : Slot) (table start sp size argc : Uint64) (name : String) (entry : KernelEntry)
  | exit (i : Slot) (status : CInt)
  | reap (i child : Slot) (entry : KernelEntry)
  | other (i : Slot) (result : Uint64) (entry : KernelEntry)

/-- A live process has been started and has not exited. -/
def Live (p : Proc) : Prop :=
  p.state = .sleeping ∨ p.state = .runnable ∨ p.state = .running

instance (p : Proc) : Decidable (Live p) := inferInstanceAs (Decidable (_ ∨ _ ∨ _))

/-- `syscall` reads its number from the user register `a7`. -/
def AlarmState.num (s : AlarmState) (i : Slot) : CInt := ((s.user i).regs .a7).truncate 32

/-- The conditions under which the event can be the next step. -/
def AlarmState.Enabled (s : AlarmState) : AlarmEvent → Prop
  | .user i _ => Live (s.proc i)
  | .clock => True
  | .tick i _ _ => Live (s.proc i)
  | .intr i _ => Live (s.proc i)
  | .sigalarm i _ => Live (s.proc i) ∧ s.num i = sysSigalarmNum
  | .sigreturn i _ => Live (s.proc i) ∧ s.num i = sysSigreturnNum
  | .fork i child _ _ =>
      Live (s.proc i) ∧ s.num i = sysFork ∧ (s.proc child).state = .unused
  | .forkFail i child _ _ _ =>
      Live (s.proc i) ∧ s.num i = sysFork ∧ (s.proc child).state = .unused
  | .exec i _ _ _ _ _ _ _ => Live (s.proc i) ∧ s.num i = sysExec
  | .exit i _ => Live (s.proc i) ∧ (s.num i = sysExit ∨ (s.proc i).killed = true)
  | .reap i child _ =>
      Live (s.proc i) ∧ (s.num i = sysWait ∨ s.num i = sysWaitx) ∧
        (s.proc child).state = .zombie ∧ (s.proc child).parent = some i
  | .other i _ _ => Live (s.proc i) ∧ s.num i ≠ sysSigalarmNum ∧ s.num i ≠ sysSigreturnNum

instance (s : AlarmState) (event : AlarmEvent) : Decidable (s.Enabled event) := by
  cases event <;> unfold AlarmState.Enabled <;> infer_instance

/-- A trap saves the user state in the trapframe. -/
def AlarmState.enter (s : AlarmState) (i : Slot) : Proc :=
  { s.proc i with trapframe := (s.proc i).trapframe.map (saveUser (s.user i)) }

/-- A system call returns to the instruction after `ecall`. -/
def AlarmState.ecall (s : AlarmState) (i : Slot) : Proc :=
  { s.enter i with
    trapframe := (s.enter i).trapframe.map fun frame => { frame with epc := frame.epc + 4 } }

/-- `usertrapret` changes only the kernel part of the trapframe. -/
def leave (entry : KernelEntry) (p : Proc) : Proc :=
  { p with trapframe := p.trapframe.map (usertrapret entry) }

/-- The trap ends with `usertrapret` and `userret`. -/
def AlarmState.resume (s : AlarmState) (i : Slot) (entry : KernelEntry) (p : Proc) : AlarmState :=
  { s with
    proc := Function.update s.proc i (leave entry p)
    user := match p.trapframe with
      | some frame => Function.update s.user i (userret (usertrapret entry frame))
      | none => s.user }

/-- The child's record after its allocation and the three sections of `fork`. -/
def AlarmState.forked (build : Build) (s : AlarmState) (i child : Slot) (table : Uint64) : Proc :=
  let slot := (allocproc build s.nextpid s.ticks (some junkFrame) (some table) (s.proc child)).2
  forkReady build s.ticks (forkParent i (forkCopy (s.ecall i) slot))

/-- The result of one event. A result of `none` is an access through a null pointer. -/
def AlarmState.next (build : Build) (s : AlarmState) : AlarmEvent → Option AlarmState
  | .user i regs => some { s with user := Function.update s.user i regs }
  | .clock => some { s with ticks := s.ticks + 1 }
  | .tick i page entry => (alarmTick page (s.enter i)).map (s.resume i entry)
  | .intr i entry => some (s.resume i entry (s.enter i))
  | .sigalarm i entry => (sysSigalarm (s.ecall i)).map fun result =>
      s.resume i entry (storeResult result)
  | .sigreturn i entry => (sysSigreturn (s.ecall i)).map fun result =>
      s.resume i entry (storeResult result)
  | .fork i child table entry =>
      let born := s.forked build i child table
      let grown := { s with
        proc := Function.update s.proc child born
        user := match born.trapframe with
          | some frame => Function.update s.user child (userret frame)
          | none => s.user
        nextpid := s.nextpid + 1 }
      some (grown.resume i entry (storeResult (s.nextpid.signExtend 64, s.ecall i)))
  | .forkFail i child page table entry =>
      let failed := { s with
        proc := Function.update s.proc child
          (forkFailed build s.nextpid s.ticks page table (s.proc child))
        nextpid := s.nextpid + 1 }
      some (failed.resume i entry (storeResult (-1, s.ecall i)))
  | .exec i table start sp size argc name entry =>
      some (s.resume i entry (storeResult (argc, execCommit table start sp size name (s.ecall i))))
  | .exit i status =>
      some { s with proc := Function.update s.proc i (exitZombie s.ticks status (exitClose (s.proc i))) }
  | .reap i child entry =>
      let freed := { s with proc := Function.update s.proc child (freeproc build (s.proc child)) }
      some (freed.resume i entry
        (storeResult ((s.proc child).pid.signExtend 64, s.ecall i)))
  | .other i result entry => some (s.resume i entry (storeResult (result, s.ecall i)))

/-- One step of the alarm machine. -/
def AlarmState.Step (build : Build) (s : AlarmState) (event : AlarmEvent) (t : AlarmState) : Prop :=
  s.Enabled event ∧ s.next build event = some t

/-- The kernel panics when an enabled event goes through a null pointer. -/
def AlarmState.Fault (build : Build) (s : AlarmState) (event : AlarmEvent) : Prop :=
  s.Enabled event ∧ s.next build event = none

/-- The machine starts after `userinit`, with the first process about to enter user mode. -/
def AlarmState.boot (build : Build) (table cwd : Uint64) : AlarmState where
  proc := bootTable build table cwd
  user := fun _ => userret { junkFrame.set .sp pgsize with epc := 0 }
  nextpid := 2
  ticks := 0

end Xv6
