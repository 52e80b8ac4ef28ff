/-
This file gives the machine of the process calls. A step is one locked section of a call, one
decision of the scheduler, or one section of another part of the kernel that writes process
records. The scheduler may run any runnable process, and any number of processes may run at once.
-/

import Xv6.Kernel.Alarm
import Xv6.Lib.Run

namespace Xv6

/-- `userinit` takes the first slot of the table. -/
def initproc : Slot := 0

/-- The arguments of `wait` and `waitx`. -/
structure WaitCall where
  addr : Uint64
  waitx : Bool
  deriving DecidableEq

/-- The status is copied out if the caller gave an address for it. -/
def WaitCall.told (call : WaitCall) (status : CInt) : Option CInt :=
  if call.addr = 0 then none else some status

/-- The next section of the call that a process is in. -/
inductive CallPc where
  | user
  | fork (i : Nat)
  | forkParent (np : Slot)
  | forkReady (np : Slot)
  | exitClose (status : CInt)
  | exitLock (status : CInt)
  | exitReparent (status : CInt) (i : Nat)
  | exitReparentWake (status : CInt) (i j : Nat)
  | exitWakeParent (status : CInt) (chan : Option Slot) (j : Nat)
  | exitZombie (status : CInt)
  | waitLock (call : WaitCall)
  | waitScan (call : WaitCall) (i : Nat) (havekids : Bool)
  | waitSleep (call : WaitCall)
  | waitAsleep (call : WaitCall)
  | asleep
  | kill (pid : CInt) (i : Nat)
  deriving DecidableEq

/-- The process table, the position of each process, the status that the last `wait` of each process
has copied to its memory, the holder of `wait_lock` and the counters. -/
structure ProcSystem where
  proc : Slot → Proc
  pc : Slot → CallPc
  told : Slot → Option CInt
  waitLock : Option Slot
  ticks : Uint
  nextpid : CInt

/-- The results of the memory calls of one section: the page of `kalloc`, the table of
`proc_pagetable`, and the success of `uvmcopy` or of `copyout`. -/
structure Memory where
  page : Option Trapframe
  table : Option Uint64
  copied : Bool

inductive Call where
  | fork
  | exit (status : CInt)
  | wait (call : WaitCall)
  | kill (pid : CInt)
  | sleep (chan : Chan)

inductive ProcEvent where
  | call (p : Slot) (call : Call)
  | advance (p : Slot) (memory : Memory)
  | run (p : Slot)
  | yield (p : Slot)
  | trap (p : Slot) (user : UserRegs)
  | files (p : Slot) (ofile : Fin nofile → Option Uint64) (cwd : Option Uint64)
  | exec (p : Slot) (table entry sp size : Uint64) (name : String)
  | sigalarm (p : Slot)
  | sigreturn (p : Slot)
  | alarmTick (p : Slot) (page : Option Trapframe)
  | clock
  | charge (i : Slot)
  | age (i : Slot)
  | scan (i : Slot)
  | demote (p : Slot)
  | wake (chan : Chan) (i : Slot)

/-- The slot that a table loop visits, until the loop ends. -/
def slotAt (i : Nat) : Option Slot := if inside : i < nproc then some ⟨i, inside⟩ else none

theorem slotAt_some {i : Nat} {slot : Slot} (found : slotAt i = some slot) : i = slot.val := by
  unfold slotAt at found
  split_ifs at found with inside
  rw [← Option.some.inj found]

theorem slotAt_none {i : Nat} (ended : slotAt i = none) : nproc ≤ i := by
  unfold slotAt at ended
  split_ifs at ended with inside
  omega

@[simp] theorem slotAt_val (j : Slot) : slotAt j.val = some j := by
  simp [slotAt]

namespace ProcSystem

variable (s : ProcSystem)

def setProc (i : Slot) (record : Proc) : ProcSystem :=
  { s with proc := Function.update s.proc i record }

def goto (p : Slot) (pc : CallPc) : ProcSystem := { s with pc := Function.update s.pc p pc }

/-- The call returns to user space with a result. -/
def ret (p : Slot) (value : CInt) : ProcSystem :=
  (s.setProc p (storeResult (value.signExtend 64, s.proc p))).goto p .user

@[simp] theorem setProc_self (i : Slot) (record : Proc) : (s.setProc i record).proc i = record := by
  simp [setProc]

@[simp] theorem setProc_other {i j : Slot} (record : Proc) (different : j ≠ i) :
    (s.setProc i record).proc j = s.proc j := by
  simp [setProc, different]

@[simp] theorem goto_proc (p : Slot) (pc : CallPc) : (s.goto p pc).proc = s.proc := rfl

@[simp] theorem ret_self (p : Slot) (value : CInt) :
    (s.ret p value).proc p = storeResult (value.signExtend 64, s.proc p) := by
  simp [ret]

@[simp] theorem ret_other {p i : Slot} (value : CInt) (different : i ≠ p) :
    (s.ret p value).proc i = s.proc i := by
  simp [ret, different]

/-- `fork` has found an unused slot and holds its lock until the child's record is filled. -/
def forkSlot (build : Build) (p slot : Slot) (memory : Memory) : ProcSystem :=
  let counted := { s with nextpid := s.nextpid + 1 }
  match allocproc build s.nextpid s.ticks memory.page memory.table (s.proc slot) with
  | (none, after) => (counted.setProc slot after).ret p (-1)
  | (some np, _) =>
      if memory.copied then
        (counted.setProc slot (forkCopy (s.proc p) np)).goto p (.forkParent slot)
      else (counted.setProc slot (freeproc build np)).ret p (-1)

/-- One iteration of `wakeup`, called by a process. -/
def wakeupAt (p j : Slot) (chan : Option Slot) : ProcSystem :=
  match chan with
  | some target => if j = p then s else s.setProc j (wakeupSlot (.proc target) (s.proc j))
  | none => s

/-- `wait` has found an exited child. A failed `copyout` leaves the child in the table. -/
def reap (build : Build) (p child : Slot) (call : WaitCall) (memory : Memory) : ProcSystem :=
  if call.addr ≠ 0 ∧ memory.copied = false then ({ s with waitLock := none }).ret p (-1)
  else
    ({ s with waitLock := none, told := Function.update s.told p (call.told (s.proc child).xstate) }.setProc
      child (freeproc build (s.proc child))).ret p (s.proc child).pid

/-- The next section of the call that the process is in. A result of `none` means that the process
waits for `wait_lock` or is not in a call. -/
def advance (build : Build) (p : Slot) (memory : Memory) : Option ProcSystem :=
  match s.pc p with
  | .user => none
  | .fork i => match slotAt i with
      | some slot =>
          if (s.proc slot).state = .unused then some (s.forkSlot build p slot memory)
          else some (s.goto p (.fork (i + 1)))
      | none => some (s.ret p (-1))
  | .forkParent np =>
      if s.waitLock = none then
        some ((s.setProc np (forkParent p (s.proc np))).goto p (.forkReady np))
      else none
  | .forkReady np =>
      some ((s.setProc np (forkReady build s.ticks (s.proc np))).ret p (s.proc np).pid)
  | .exitClose status => some ((s.setProc p (exitClose (s.proc p))).goto p (.exitLock status))
  | .exitLock status =>
      if s.waitLock = none then
        some ({ s with waitLock := some p }.goto p (.exitReparent status 0))
      else none
  | .exitReparent status i => match slotAt i with
      | some pp =>
          if (s.proc pp).parent = some p then
            some ((s.setProc pp { s.proc pp with parent := some initproc }).goto p
              (.exitReparentWake status i 0))
          else some (s.goto p (.exitReparent status (i + 1)))
      | none => some (s.goto p (.exitWakeParent status (s.proc p).parent 0))
  | .exitReparentWake status i j => match slotAt j with
      | some target =>
          some ((s.wakeupAt p target (some initproc)).goto p (.exitReparentWake status i (j + 1)))
      | none => some (s.goto p (.exitReparent status (i + 1)))
  | .exitWakeParent status chan j => match slotAt j with
      | some target =>
          some ((s.wakeupAt p target chan).goto p (.exitWakeParent status chan (j + 1)))
      | none => some (s.goto p (.exitZombie status))
  | .exitZombie status =>
      some (({ s with waitLock := none }.setProc p (exitZombie s.ticks status (s.proc p))).goto p
        .user)
  | .waitLock call =>
      if s.waitLock = none then some ({ s with waitLock := some p }.goto p (.waitScan call 0 false))
      else none
  | .waitScan call i havekids => match slotAt i with
      | some pp =>
          if (s.proc pp).parent = some p then
            if (s.proc pp).state = .zombie then some (s.reap build p pp call memory)
            else some (s.goto p (.waitScan call (i + 1) true))
          else some (s.goto p (.waitScan call (i + 1) havekids))
      | none =>
          if havekids = false ∨ (s.proc p).killed = true then
            some ({ s with waitLock := none }.ret p (-1))
          else some (s.goto p (.waitSleep call))
  | .waitSleep call =>
      some (({ s with waitLock := none }.setProc p
        { s.proc p with chan := some (.proc p), state := .sleeping }).goto p (.waitAsleep call))
  | .waitAsleep call => some ((s.setProc p { s.proc p with chan := none }).goto p (.waitLock call))
  | .asleep => some ((s.setProc p { s.proc p with chan := none }).goto p .user)
  | .kill pid i => match slotAt i with
      | some target =>
          if (s.proc target).pid = pid then
            some ((s.setProc target (killSlot (s.proc target))).ret p 0)
          else some (s.goto p (.kill pid (i + 1)))
      | none => some (s.ret p (-1))

/-- The start of a call. The first process may not exit, and only `wait` sleeps on a record. -/
def start (p : Slot) : Call → Option ProcSystem
  | .fork => some (s.goto p (.fork 0))
  | .exit status => if p = initproc then none else some (s.goto p (.exitClose status))
  | .wait call => some (s.goto p (.waitLock call))
  | .kill pid => some (s.goto p (.kill pid 0))
  | .sleep chan => match chan with
      | .proc _ => none
      | _ => some ((s.setProc p { s.proc p with chan := some chan, state := .sleeping }).goto p
          .asleep)

/-- The process is running and outside every call. -/
def InUser (p : Slot) : Prop := (s.proc p).state = .running ∧ s.pc p = .user

instance (p : Slot) : Decidable (s.InUser p) := inferInstanceAs (Decidable (_ ∧ _))

/-- The result of one event, if the event can happen. -/
def next (build : Build) : ProcEvent → Option ProcSystem
  | .call p call => if s.InUser p then s.start p call else none
  | .advance p memory =>
      if (s.proc p).state = .running then s.advance build p memory else none
  | .run p =>
      if (s.proc p).state = .runnable then some (s.setProc p { s.proc p with state := .running })
      else none
  | .yield p =>
      if (s.proc p).state = .running ∧ s.waitLock ≠ some p then
        some (s.setProc p { s.proc p with state := .runnable })
      else none
  | .trap p user =>
      if s.InUser p then some (s.setProc p { s.proc p with
        trapframe := (s.proc p).trapframe.map (saveUser user) })
      else none
  | .files p ofile cwd =>
      if s.InUser p then some (s.setProc p { s.proc p with ofile := ofile, cwd := cwd }) else none
  | .exec p table entry sp size name =>
      if s.InUser p then some (s.setProc p (execCommit table entry sp size name (s.proc p)))
      else none
  | .sigalarm p =>
      if s.InUser p then (sysSigalarm (s.proc p)).map fun result =>
        s.setProc p (storeResult result)
      else none
  | .sigreturn p =>
      if s.InUser p then (sysSigreturn (s.proc p)).map fun result =>
        s.setProc p (storeResult result)
      else none
  | .alarmTick p page =>
      if s.InUser p then (alarmTick page (s.proc p)).map (s.setProc p) else none
  | .clock => some { s with ticks := s.ticks + 1 }
  | .charge i => some (s.setProc i (updateTime build (s.proc i)))
  | .age i => if build = .mlfq then some (s.setProc i (aging s.ticks (s.proc i))) else none
  | .scan i => if build = .mlfq then some (s.setProc i (scanSlot s.ticks (s.proc i))) else none
  | .demote p =>
      if build = .mlfq ∧ s.InUser p then some (s.setProc p (Xv6.demote s.ticks (s.proc p)))
      else none
  | .wake chan i => match chan with
      | .proc _ => none
      | _ => some (s.setProc i (wakeupSlot chan (s.proc i)))

/-- One step of the machine. -/
def Step (build : Build) (event : ProcEvent) (t : ProcSystem) : Prop := s.next build event = some t

/-- The machine starts after `userinit`. -/
def boot (build : Build) (table cwd : Uint64) : ProcSystem where
  proc := bootTable build table cwd
  pc := fun _ => .user
  told := fun _ => none
  waitLock := none
  ticks := 0
  nextpid := 2

end ProcSystem

end Xv6
