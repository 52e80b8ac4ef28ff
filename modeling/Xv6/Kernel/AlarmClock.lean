/-
This file gives one process with an alarm on a machine with one CPU. Every timer tick charges the process if it is
running. A tick from user mode then runs the alarm code of `usertrap`, and a tick from kernel mode goes to
`kerneltrap`, which has no alarm code.
-/

import Xv6.Kernel.AlarmSystem
import Xv6.Kernel.Mlfq

namespace Xv6

/-- The record of the process and its user registers. -/
structure AlarmClock where
  proc : Proc
  user : UserRegs

inductive ClockEvent where
  | user (regs : UserRegs)
  | userTick (page : Option Trapframe) (entry : KernelEntry)
  | kernelTick
  | switch (state : ProcState)
  | sigalarm (entry : KernelEntry)
  | sigreturn (entry : KernelEntry)
  | exec (table start sp size argc : Uint64) (name : String) (entry : KernelEntry)
  | other (result : Uint64) (entry : KernelEntry)

namespace AlarmClock

variable (s : AlarmClock)

def num : CInt := (s.user.regs .a7).truncate 32

/-- The conditions under which the event can be the next step. The scheduler, `sleep` and `wakeup` move a live process
between its three states. -/
def Enabled : ClockEvent → Prop
  | .user _ => s.proc.state = .running
  | .userTick _ _ => s.proc.state = .running
  | .kernelTick => True
  | .switch state => state = .sleeping ∨ state = .runnable ∨ state = .running
  | .sigalarm _ => s.proc.state = .running ∧ s.num = sysSigalarmNum
  | .sigreturn _ => s.proc.state = .running ∧ s.num = sysSigreturnNum
  | .exec _ _ _ _ _ _ _ => s.proc.state = .running ∧ s.num = sysExec
  | .other _ _ => s.proc.state = .running ∧ s.num ≠ sysSigalarmNum ∧ s.num ≠ sysSigreturnNum

instance (event : ClockEvent) : Decidable (s.Enabled event) := by
  cases event <;> unfold AlarmClock.Enabled <;> infer_instance

/-- A trap saves the user state in the trapframe. -/
def enter : Proc := { s.proc with trapframe := s.proc.trapframe.map (saveUser s.user) }

/-- A system call returns to the instruction after `ecall`. -/
def ecall : Proc :=
  { s.enter with trapframe := s.enter.trapframe.map fun frame => { frame with epc := frame.epc + 4 } }

/-- The trap ends with `usertrapret` and `userret`. -/
def resume (entry : KernelEntry) (p : Proc) : AlarmClock where
  proc := leave entry p
  user := match p.trapframe with
    | some frame => userret (usertrapret entry frame)
    | none => s.user

/-- The result of one event. In a tick from user mode `devintr` calls `update_time` before the alarm code runs. -/
def next (build : Build) : ClockEvent → Option AlarmClock
  | .user regs => some { s with user := regs }
  | .userTick page entry => (alarmTick page (updateTime build s.enter)).map (s.resume entry)
  | .kernelTick => some { s with proc := updateTime build s.proc }
  | .switch state => some { s with proc := { s.proc with state := state } }
  | .sigalarm entry => (sysSigalarm s.ecall).map fun result => s.resume entry (storeResult result)
  | .sigreturn entry => (sysSigreturn s.ecall).map fun result => s.resume entry (storeResult result)
  | .exec table start sp size argc name entry =>
      some (s.resume entry (storeResult (argc, execCommit table start sp size name s.ecall)))
  | .other result entry => some (s.resume entry (storeResult (result, s.ecall)))

/-- One step of the machine. -/
def Step (build : Build) (s : AlarmClock) (event : ClockEvent) (t : AlarmClock) : Prop :=
  s.Enabled event ∧ s.next build event = some t

end AlarmClock

end Xv6
