/-
This file gives the parts of `fork`, `exit` and `exec` that change process records.
Each part runs inside one locked section of the source.
-/

import Xv6.Kernel.Mlfq

namespace Xv6

/-- The trapframe with one user register changed. -/
def Trapframe.set (frame : Trapframe) (reg : Reg) (value : Uint64) : Trapframe :=
  { frame with regs := Function.update frame.regs reg value }

/-- `fork` copies the size, the registers, the files and the name while it holds the child's lock. -/
def forkCopy (parent child : Proc) : Proc :=
  { child with
    sz := parent.sz
    trapframe := parent.trapframe.map fun frame => frame.set .a0 0
    ofile := fun fd => (parent.ofile fd).or (child.ofile fd)
    cwd := parent.cwd
    name := parent.name }

/-- `fork` publishes the parent while it holds `wait_lock`. -/
def forkParent (parent : Slot) (child : Proc) : Proc :=
  { child with parent := some parent }

/-- `fork` makes the child runnable in its last section. -/
def forkReady (build : Build) (ticks : Uint) (child : Proc) : Proc :=
  let ready := { child with state := .runnable }
  match build with
  | .mlfq => push ticks 0 ready
  | _ => ready

/-- A `fork` that runs out of memory frees its slot, in `allocproc` or after `uvmcopy` failed. -/
def forkFailed (build : Build) (pid : CInt) (ticks : Uint) (page : Option Trapframe)
    (table : Option Uint64) (p : Proc) : Proc :=
  match allocproc build pid ticks page table p with
  | (none, after) => after
  | (some child, _) => freeproc build child

/-- `exit` closes the files and the current directory before it takes any process lock. -/
def exitClose (p : Proc) : Proc :=
  { p with ofile := fun _ => none, cwd := none }

/-- The last section of `exit` records the status and the time. -/
def exitZombie (ticks : Uint) (status : CInt) (p : Proc) : Proc :=
  { p with xstate := status, state := .zombie, etime := ticks }

/-- `waitx` reports the waiting time and the run time of an exited child. -/
def waitxTimes (np : Proc) : Uint × Uint := (np.etime - np.ctime - np.rtime, np.rtime)

/-- A successful `exec` replaces the image and keeps the rest of the record. -/
def execCommit (table entry sp size : Uint64) (name : String) (p : Proc) : Proc :=
  { p with
    trapframe := p.trapframe.map fun frame =>
      { (frame.set .a1 sp).set .sp sp with epc := entry }
    name := name
    pagetable := some table
    sz := size }

/-- `userinit` builds the first process from a zeroed slot. -/
def userinit (build : Build) (table cwd : Uint64) : Proc :=
  let p := (allocproc build 1 0 (some junkFrame) (some table) Proc.zero).2
  let loaded := { p with
    sz := pgsize
    trapframe := p.trapframe.map fun frame => { frame.set .sp pgsize with epc := 0 }
    name := "initcode"
    cwd := some cwd
    state := .runnable }
  match build with
  | .mlfq => push 0 0 loaded
  | _ => loaded

/-- The table after `userinit`: every slot but the first is still zero. -/
def bootTable (build : Build) (table cwd : Uint64) : Slot → Proc :=
  Function.update (fun _ => Proc.zero) 0 (userinit build table cwd)

@[simp] theorem forkCopy_state (parent child : Proc) : (forkCopy parent child).state = child.state :=
  rfl

@[simp] theorem forkReady_state (build : Build) (ticks : Uint) (child : Proc) :
    (forkReady build ticks child).state = .runnable := by
  cases build <;> rfl

@[simp] theorem forkReady_chan (build : Build) (ticks : Uint) (child : Proc) :
    (forkReady build ticks child).chan = child.chan := by
  cases build <;> rfl

@[simp] theorem forkReady_parent (build : Build) (ticks : Uint) (child : Proc) :
    (forkReady build ticks child).parent = child.parent := by
  cases build <;> rfl

/-- A failed `fork` leaves an unused slot with no saved frame. -/
theorem forkFailed_free (build : Build) (pid : CInt) (ticks : Uint) (page : Option Trapframe)
    (table : Option Uint64) (p : Proc) :
    (forkFailed build pid ticks page table p).state = .unused ∧
      (forkFailed build pid ticks page table p).trapBackup = none := by
  cases page <;> cases table <;> exact ⟨rfl, rfl⟩

/-- A successful allocation hands out a used record. -/
theorem allocproc_state {build : Build} {pid : CInt} {ticks : Uint} {page : Option Trapframe}
    {table : Option Uint64} {p child after : Proc}
    (done : allocproc build pid ticks page table p = (some child, after)) :
    child.state = .used ∧ after = child := by
  unfold allocproc at done
  cases page with
  | none => simp at done
  | some page =>
      cases table with
      | none => simp at done
      | some table =>
          simp only [Prod.mk.injEq, Option.some.injEq] at done
          obtain ⟨rfl, rfl⟩ := done
          exact ⟨rfl, rfl⟩

end Xv6
