/-
This file gives the alarm code of `usertrap`, the two alarm system calls, and the path of the
user registers through the trampoline. A result of `none` is a store or a load through a null
pointer, which the kernel answers with a panic.
-/

import Xv6.Kernel.ProcCalls

namespace Xv6

/-- The program counter and the general registers of a process in user mode. -/
structure UserRegs where
  pc : Uint64
  regs : Reg → Uint64

/-- The values that `usertrapret` stores for the next trap. -/
structure KernelEntry where
  satp : Uint64
  sp : Uint64
  trap : Uint64
  hartid : Uint64

/-- `uservec` saves every user register and `usertrap` saves the program counter. -/
def saveUser (user : UserRegs) (frame : Trapframe) : Trapframe :=
  { frame with epc := user.pc, regs := user.regs }

/-- `usertrapret` refreshes the kernel's entry data. -/
def usertrapret (entry : KernelEntry) (frame : Trapframe) : Trapframe :=
  { frame with
    kernelSatp := entry.satp
    kernelSp := entry.sp
    kernelTrap := entry.trap
    kernelHartid := entry.hartid }

/-- `userret` restores every user register and returns to the saved program counter. -/
def userret (frame : Trapframe) : UserRegs := ⟨frame.epc, frame.regs⟩

/-- The alarm code of `usertrap` for a timer interrupt. The page is the result of `kalloc`. -/
def alarmTick (page : Option Trapframe) (p : Proc) : Option Proc :=
  let ticked := { p with ticksElapsed := p.ticksElapsed + 1 }
  if 0 < ticked.sigalarmNticks.toInt ∧ ticked.sigalarmRunning = false then
    if ticked.sigalarmNticks.toInt ≤ ticked.ticksElapsed.toInt then
      let armed := { ticked with sigalarmRunning := true, ticksElapsed := 0, trapBackup := page }
      match armed.trapBackup, armed.trapframe with
      | some _, some frame =>
          some { armed with
            trapBackup := some frame
            trapframe := some { frame with epc := armed.sigalarmHandler } }
      | _, _ => none
    else some ticked
  else some ticked

/-- The condition under which the alarm code diverts the process to its handler. -/
def diverts (p : Proc) : Prop :=
  0 < p.sigalarmNticks.toInt ∧ p.sigalarmRunning = false ∧
    p.sigalarmNticks.toInt ≤ (p.ticksElapsed + 1).toInt

instance (p : Proc) : Decidable (diverts p) := inferInstanceAs (Decidable (_ ∧ _ ∧ _))

/-- `argint` keeps the low half of an argument register. -/
def argint (frame : Trapframe) (reg : Reg) : CInt := (frame.regs reg).truncate 32

/-- `sys_sigalarm` rejects the value minus one in either argument. -/
def sysSigalarm (p : Proc) : Option (Uint64 × Proc) :=
  p.trapframe.map fun frame =>
    let ticks := argint frame .a0
    let handler := frame.regs .a1
    if ticks = -1 ∨ handler = -1 then (-1, p)
    else (0, { p with
      sigalarmNticks := ticks
      sigalarmHandler := handler
      sigalarmRunning := false
      ticksElapsed := 0 })

/-- `sys_sigreturn` loads the saved frame before it tests the pointer. -/
def sysSigreturn (p : Proc) : Option (Uint64 × Proc) :=
  p.trapBackup.map fun saved =>
    (saved.regs .a0, { p with
      trapframe := some saved
      trapBackup := none
      sigalarmRunning := false })

/-- `syscall` stores the result in the saved register `a0`. -/
def storeResult (result : Uint64 × Proc) : Proc :=
  { result.2 with trapframe := result.2.trapframe.map fun frame => frame.set .a0 result.1 }

/-- The system-call numbers that the alarm machine tells apart. -/
def sysFork : CInt := 1
def sysExit : CInt := 2
def sysWait : CInt := 3
def sysExec : CInt := 7
def sysWaitx : CInt := 22
def sysSigalarmNum : CInt := 24
def sysSigreturnNum : CInt := 25

/-- A tick that does not divert only counts. -/
theorem alarmTick_quiet {page : Option Trapframe} {p : Proc} (quiet : ¬ diverts p) :
    alarmTick page p = some { p with ticksElapsed := p.ticksElapsed + 1 } := by
  unfold alarmTick
  dsimp only
  split_ifs with armed due
  · exact absurd ⟨armed.1, armed.2, due⟩ quiet
  · rfl
  · rfl

/-- A tick that diverts needs a page from `kalloc`. -/
theorem alarmTick_divert {page : Option Trapframe} {p : Proc} {frame : Trapframe}
    (due : diverts p) (present : p.trapframe = some frame) :
    alarmTick page p = page.map fun _ => { p with
      sigalarmRunning := true
      ticksElapsed := 0
      trapBackup := some frame
      trapframe := some { frame with epc := p.sigalarmHandler } } := by
  obtain ⟨positive, idle, elapsed⟩ := due
  unfold alarmTick
  dsimp only
  rw [if_pos ⟨positive, idle⟩, if_pos elapsed]
  cases page <;> simp [present]

/-- An accepted `sigalarm` call stores its two arguments and restarts the count. -/
theorem sysSigalarm_accept {p : Proc} {frame : Trapframe} (present : p.trapframe = some frame)
    (ok : ¬ (argint frame .a0 = -1 ∨ frame.regs .a1 = -1)) :
    sysSigalarm p = some (0, { p with
      sigalarmNticks := argint frame .a0
      sigalarmHandler := frame.regs .a1
      sigalarmRunning := false
      ticksElapsed := 0 }) := by
  simp only [sysSigalarm, present, Option.map_some, if_neg ok]

/-- A rejected `sigalarm` call changes nothing. -/
theorem sysSigalarm_reject {p : Proc} {frame : Trapframe} (present : p.trapframe = some frame)
    (bad : argint frame .a0 = -1 ∨ frame.regs .a1 = -1) :
    sysSigalarm p = some (-1, p) := by
  simp only [sysSigalarm, present, Option.map_some, if_pos bad]

end Xv6
