/-
This file gives the threads of the CPUs. Each CPU has a scheduler thread, and each process has a
kernel thread. A position names the next locked section, or the next unlocked scan of the table.
-/

import Xv6.Kernel.ProcSystem

namespace Xv6

/-- A trap is taken from user mode or from the kernel. -/
inductive Trap where
  | user
  | kernel
  deriving DecidableEq

/-- A device other than the timer wakes the sleepers on some channels. -/
inductive Device where
  | timer
  | other (chans : List Chan)
  deriving DecidableEq

/-- What a handler does after its `yield` returns. -/
inductive AfterYield where
  | flag (p : Slot)
  | killed
  | leave
  deriving DecidableEq

/-- The next section of code that runs with interrupts off: an interrupt handler, or a call of
`wakeup` by a process. Every such call holds a spinlock. -/
inductive HandlerPc where
  | wakeupCall (chan : Chan) (i : Nat)
  | clock (trap : Trap)
  | update (trap : Trap) (i : Nat)
  | wakeup (trap : Trap) (timer : Bool) (chan : Chan) (rest : List Chan) (i : Nat)
  | devDone (trap : Trap) (timer : Bool)
  | aging (trap : Trap) (timer : Bool) (i : Nat)
  | slice (trap : Trap) (timer : Bool) (p : Slot)
  | flag (trap : Trap) (p : Slot)
  | yield (trap : Trap) (after : AfterYield)
  | killed (timer : Bool)
  | leave (trap : Trap) (timer : Bool)
  deriving DecidableEq

/-- The next section of `scheduler`. In `away` it waits in `swtch` for the process that it runs.
In `stale` it has released that process and has not yet cleared `c->proc`. -/
inductive SchedPc where
  | top
  | scan (i : Nat) (first : Option Slot)
  | choose
  | lockNext (p : Slot)
  | away (p : Slot) (i : Nat)
  | stale (p : Slot)
  deriving DecidableEq

/-- A scheduler thread keeps its interrupt-enable bit for the time when it holds no lock. -/
structure SchedThread where
  handler : Option HandlerPc
  pc : SchedPc
  ie : Bool
  deriving DecidableEq

/-- Kernel code of a process runs with a fixed interrupt-enable bit, and may be inside `exit`. -/
structure Mode where
  ie : Bool
  exiting : Bool
  deriving DecidableEq

/-- Where a process's thread is when no handler runs on it. A thread is lost after another thread
was saved in its place. -/
inductive Base where
  | user
  | kern (mode : Mode)
  | killing (mode : Mode) (pid : CInt) (i : Nat)
  | forking (mode : Mode) (np : Slot)
  | forkret
  | dead
  | lost
  deriving DecidableEq

structure ProcThread where
  handler : Option HandlerPc
  base : Base
  deriving DecidableEq

/-- The process table, the threads, the thread that each CPU executes, and each CPU's `c->proc`.
A CPU executes the thread of a process or its own scheduler. -/
structure Machine (n : Nat) where
  proc : Slot → Proc
  sched : Fin n → SchedThread
  thread : Slot → ProcThread
  cur : Fin n → Option Slot
  cproc : Fin n → Option Slot
  ticks : Uint
  nextpid : CInt

/-- What kernel code of a process does between two table loops. -/
inductive KernelCall where
  | enter
  | leave
  | sleep (chan : Chan)
  | exit (status : CInt)
  | wakeup (chan : Chan)
  | kill (pid : CInt)
  | fork (np : Slot) (memory : Memory)
  | wait (child : Slot)

inductive CpuEvent (n : Nat) where
  | step (c : Fin n)
  | interrupt (c : Fin n) (device : Device)
  | call (c : Fin n) (call : KernelCall)

/-- The CPU that an event happens on. -/
def CpuEvent.cpu {n : Nat} : CpuEvent n → Fin n
  | .step c | .interrupt c _ | .call c _ => c

/-- The process whose lock the first-come scheduler keeps while it scans. -/
def SchedPc.held : SchedPc → Option Slot
  | .scan _ first => first
  | _ => none

/-- The position after `devintr` has woken one channel of a device. -/
def HandlerPc.wakeRest (trap : Trap) (timer : Bool) : List Chan → HandlerPc
  | [] => .devDone trap timer
  | chan :: rest => .wakeup trap timer chan rest 0

/-- The position where `devintr` starts. Only the first CPU runs `clockintr`. -/
def HandlerPc.devintr (trap : Trap) (first : Bool) : Device → HandlerPc
  | .timer => if first then .clock trap else .devDone trap true
  | .other chans => .wakeRest trap false chans

def AfterYield.pc (trap : Trap) : AfterYield → HandlerPc
  | .flag p => .flag trap p
  | .killed => .killed true
  | .leave => .leave trap true

/-- The position after the tests of the feedback scheduler. -/
def AfterYield.afterFlag : Trap → AfterYield
  | .user => .killed
  | .kernel => .leave

namespace Machine

variable {n : Nat} (s : Machine n)

def setProc (i : Slot) (record : Proc) : Machine n :=
  { s with proc := Function.update s.proc i record }

def setThread (p : Slot) (thread : ProcThread) : Machine n :=
  { s with thread := Function.update s.thread p thread }

def setSched (c : Fin n) (thread : SchedThread) : Machine n :=
  { s with sched := Function.update s.sched c thread }

/-- The scheduler of a CPU goes to its next section. -/
def goto (c : Fin n) (pc : SchedPc) : Machine n := s.setSched c { s.sched c with pc := pc }

/-- The process goes to its next section. -/
def setBase (p : Slot) (base : Base) : Machine n := s.setThread p { s.thread p with base := base }

/-- The handler that runs on a CPU. -/
def handler (c : Fin n) : Option HandlerPc :=
  match s.cur c with
  | none => (s.sched c).handler
  | some p => (s.thread p).handler

/-- The handler on a CPU goes to its next section, or returns. -/
def setHandler (c : Fin n) (handler : Option HandlerPc) : Machine n :=
  match s.cur c with
  | none => s.setSched c { s.sched c with handler := handler }
  | some p => s.setThread p { s.thread p with handler := handler }

/-- No scheduler keeps the lock of this slot between two steps. -/
def Unlocked (j : Slot) : Prop := ∀ c, (s.sched c).pc.held ≠ some j

instance (j : Slot) : Decidable (s.Unlocked j) := inferInstanceAs (Decidable (∀ _, _))

/-- The trap that an interrupt of a CPU would enter, when its interrupts are on. -/
def trapNow (c : Fin n) : Option Trap :=
  match s.cur c with
  | none =>
      let thread := s.sched c
      match thread.handler, thread.pc with
      | some _, _ => none
      | none, .away _ _ => none
      | none, pc => if thread.ie ∧ pc.held = none then some .kernel else none
  | some p =>
      let thread := s.thread p
      match thread.handler, thread.base with
      | some _, _ => none
      | none, .user => some .user
      | none, .kern mode => if mode.ie then some .kernel else none
      | none, .killing mode _ _ => if mode.ie then some .kernel else none
      | none, .forking mode _ => if mode.ie then some .kernel else none
      | none, _ => none

/-- The scheduler switches to a process, which runs up to the release of its lock. A process that
slept clears its channel, and a new one enters `forkret`. -/
def dispatch (c : Fin n) (p : Slot) (i : Nat) : Machine n :=
  let ie := (s.sched c).ie
  let resumed := match (s.thread p).base with
    | .forkret => ⟨none, .kern ⟨ie, false⟩⟩
    | _ => s.thread p
  { s with
    proc := Function.update s.proc p { s.proc p with state := .running, chan := none }
    thread := Function.update s.thread p resumed
    sched := Function.update s.sched c ⟨none, .away p i, ie⟩
    cur := Function.update s.cur c (some p)
    cproc := Function.update s.cproc c (some p) }

/-- `sched` switches to the CPU's scheduler, which runs up to the release of the lock. The round
robin clears `c->proc` first, and the other two release first. The enable bit is the one that the
departing thread saved. -/
def swtch (build : Build) (c : Fin n) (ie : Bool) : Machine n :=
  match build, (s.sched c).pc with
  | .rr, .away _ i =>
      { s with
        sched := Function.update s.sched c ⟨none, .scan (i + 1) none, ie⟩
        cur := Function.update s.cur c none
        cproc := Function.update s.cproc c none }
  | _, .away p _ =>
      { s with
        sched := Function.update s.sched c ⟨none, .stale p, ie⟩
        cur := Function.update s.cur c none }
  | _, pc => s.setSched c ⟨none, pc, ie⟩

/-- `yield` acts on `c->proc`. On a scheduler thread it saves that thread in the process's
context. -/
def yield (build : Build) (c : Fin n) (after : HandlerPc) : Option (Machine n) :=
  match s.cproc c with
  | none => none
  | some p =>
      if s.Unlocked p then
        let ready := s.setProc p { s.proc p with state := .runnable }
        match s.cur c with
        | some _ => some ((ready.setHandler c (some after)).swtch build c false)
        | none => some ((ready.setThread p ⟨none, .lost⟩).swtch build c false)
      else none

/-- The body of a table loop runs on one slot when its lock is free. -/
def visit (j : Slot) (body : Proc → Proc) : Option (Machine n) :=
  if s.Unlocked j then some (s.setProc j (body (s.proc j))) else none

/-- One iteration of `wakeup` passes over the process that `c->proc` names. -/
def wakeupAt (c : Fin n) (j : Slot) (chan : Chan) : Option (Machine n) :=
  if s.cproc c = some j then some s else s.visit j (wakeupSlot chan)

end Machine

end Xv6
