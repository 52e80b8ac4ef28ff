/-
This file gives the first-come scheduler with its locks. Each CPU runs its scheduler, a process or an interrupt
handler. Processes and handlers may take any locks and change the records whose lock they hold. They give up the CPU
as the kernel does: `yield` without locks, `sleep` with one lock and `exit` with `wait_lock`.
-/

import Xv6.Kernel.Proc
import Xv6.Kernel.Spinlock

namespace Xv6

/-- The lock of a process, or another lock. -/
inductive KLock where
  | proc (i : Slot)
  | other (address : Nat)
  deriving DecidableEq

abbrev waitLock : KLock := .other 0

/-- The function that has called `sched`. -/
inductive Departure where
  | yield
  | sleep (lk : KLock)
  | exit
  deriving DecidableEq

/-- The lock that a departing process holds, and the state that it takes. -/
def Departure.lock : Departure → Option KLock
  | .yield => none
  | .sleep lk => some lk
  | .exit => some waitLock

def Departure.state : Departure → ProcState
  | .yield => .runnable
  | .sleep _ => .sleeping
  | .exit => .zombie

/-- Where the code of a process is: after the switch to it, in `sleep` after the release of its own lock, in other code
with some locks, in a departure with its own lock, or at the start of `sched`. -/
inductive Code where
  | resumed
  | reacquire (lk : KLock)
  | work (held : List KLock)
  | parting (lk : KLock) (how : Departure)
  | inSched (how : Departure)
  deriving DecidableEq

/-- The next section of a CPU. -/
inductive FcfsPc where
  | top
  | scan (i : Nat) (first : Option Slot)
  | examine (p : Slot) (first : Option Slot)
  | handover (p first : Slot)
  | drop (p : Slot) (first : Option Slot)
  | dispatch (p : Slot)
  | run (p : Slot) (code : Code)
  | back (p : Slot)
  deriving DecidableEq

/-- The process table, the locks, the code of each CPU, the locks of its interrupt handler, and the place where each
process goes on. A process without such a place starts in `forkret`. -/
structure Fcfs (n : Nat) where
  proc : Slot → Proc
  locks : Spinlocks n KLock
  pc : Fin n → FcfsPc
  handler : Fin n → Option (List KLock)
  saved : Slot → Option (Departure × Bool)

inductive FcfsEvent (n : Nat) where
  | step (c : Fin n)
  | interrupt (c : Fin n)
  | iret (c : Fin n)
  | acquire (c : Fin n) (lk : KLock)
  | release (c : Fin n) (lk : KLock)
  | store (c : Fin n) (j : Slot) (record : Proc)
  | depart (c : Fin n) (how : Departure)
  | intr (c : Fin n) (on : Bool)

namespace Fcfs

variable {n : Nat} (s : Fcfs n)

def setPc (c : Fin n) (pc : FcfsPc) : Fcfs n := { s with pc := Function.update s.pc c pc }

def setLocks (locks : Spinlocks n KLock) : Fcfs n := { s with locks := locks }

def setProc (i : Slot) (record : Proc) : Fcfs n := { s with proc := Function.update s.proc i record }

def setHandler (c : Fin n) (handler : Option (List KLock)) : Fcfs n :=
  { s with handler := Function.update s.handler c handler }

/-- `intr_on` and `intr_off`. -/
def setSie (c : Fin n) (sie : Bool) : Fcfs n := s.setLocks (s.locks.setOff c { s.locks.off c with sie := sie })

/-- A section that ends with the release of a lock. -/
def releaseTo (c : Fin n) (lk : KLock) (pc : FcfsPc) : Except LockPanic (Fcfs n) :=
  (s.locks.release c lk).map fun locks => (s.setLocks locks).setPc c pc

/-- A section that starts with the acquisition of a lock. -/
def acquireTo (c : Fin n) (lk : KLock) (pc : FcfsPc) : Option (Except LockPanic (Fcfs n)) :=
  (s.locks.acquire c lk).map (Except.map fun locks => (s.setLocks locks).setPc c pc)

/-- The test of the scheduler for a process whose lock it holds. -/
def examine (c : Fin n) (p : Slot) (first : Option Slot) : Fcfs n :=
  if (s.proc p).state = .runnable then
    match first with
    | none => s.setPc c (.scan (p.val + 1) (some p))
    | some f =>
        if (s.proc p).ctime < (s.proc f).ctime then s.setPc c (.handover p f) else s.setPc c (.drop p first)
  else s.setPc c (.drop p first)

/-- `sched` saves the interrupt bit and switches to the scheduler. A process that has exited leaves its slot to a new
process. -/
def sched (c : Fin n) (p : Slot) (how : Departure) : Except LockPanic (Fcfs n) :=
  if s.locks.holding c (.proc p) = false then .error .schedLock
  else if (s.locks.off c).noff ≠ 1 then .error .schedLocks
  else if (s.proc p).state = .running then .error .schedRunning
  else if (s.locks.off c).sie then .error .schedInterruptible
  else
    let saved := if how = .exit then none else some (how, (s.locks.off c).intena)
    .ok { s.setPc c (.back p) with saved := Function.update s.saved p saved }

/-- The process after a switch to it: the end of `sched` and of its caller, or `forkret`. -/
def resume (c : Fin n) (p : Slot) : Except LockPanic (Fcfs n) :=
  match s.saved p with
  | none => s.releaseTo c (.proc p) (.run p (.work []))
  | some (how, intena) =>
      let restored := s.setLocks (s.locks.setOff c { s.locks.off c with intena := intena })
      restored.releaseTo c (.proc p) (.run p (match how with
        | .sleep lk => .reacquire lk
        | _ => .work []))

/-- The next section of the scheduler or of `sched`. -/
def sectionStep (c : Fin n) : Option (Except LockPanic (Fcfs n)) :=
  match s.pc c with
  | .top => some (.ok ((s.setSie c true).setPc c (.scan 0 none)))
  | .scan i first =>
      if inside : i < nproc then s.acquireTo c (.proc ⟨i, inside⟩) (.examine ⟨i, inside⟩ first)
      else match first with
        | none => some (.ok (s.setPc c .top))
        | some p => some (.ok (s.setPc c (.dispatch p)))
  | .examine p first => some (.ok (s.examine c p first))
  | .handover p first => some (s.releaseTo c (.proc first) (.scan (p.val + 1) (some p)))
  | .drop p first => some (s.releaseTo c (.proc p) (.scan (p.val + 1) first))
  | .dispatch p =>
      some (.ok (((s.setSie c false).setProc p { s.proc p with state := .running }).setPc c (.run p .resumed)))
  | .back p => some (s.releaseTo c (.proc p) .top)
  | .run p .resumed => some (s.resume c p)
  | .run p (.reacquire lk) => s.acquireTo c lk (.run p (.work [lk]))
  | .run p (.parting lk how) =>
      some ((s.releaseTo c lk (.run p (.inSched how))).map (·.setProc p { s.proc p with state := how.state }))
  | .run p (.inSched how) => some (s.sched c p how)
  | .run _ (.work _) => none

/-- The locks of the handler or of the process that a CPU runs. -/
def workList (c : Fin n) : Option (List KLock) :=
  match s.handler c, s.pc c with
  | some held, _ => some held
  | none, .run _ (.work held) => some held
  | none, _ => none

def setWork (c : Fin n) (held : List KLock) : Fcfs n :=
  match s.handler c, s.pc c with
  | none, .run p _ => s.setPc c (.run p (.work held))
  | _, _ => s.setHandler c (some held)

/-- A process calls `yield`, `sleep` or `exit`. -/
def depart (c : Fin n) (how : Departure) : Option (Except LockPanic (Fcfs n)) :=
  match s.handler c, s.pc c with
  | none, .run p (.work held) =>
      if held = how.lock.toList ∧ how.lock ≠ some (.proc p) then
        match how.lock with
        | some lk => s.acquireTo c (.proc p) (.run p (.parting lk how))
        | none => (s.acquireTo c (.proc p) (.run p (.inSched how))).map
            (Except.map (·.setProc p { s.proc p with state := how.state }))
      else none
  | _, _ => none

/-- The result of an event. There is none when a CPU waits for a lock or the event does not fit. -/
def next : FcfsEvent n → Option (Except LockPanic (Fcfs n))
  | .step c => if s.handler c = none then s.sectionStep c else none
  | .interrupt c =>
      if s.handler c = none ∧ (s.locks.off c).sie = true then some (.ok ((s.setSie c false).setHandler c (some [])))
      else none
  | .iret c => if s.handler c = some [] then some (.ok ((s.setSie c true).setHandler c none)) else none
  | .acquire c lk => (s.workList c).bind fun held =>
      if lk ∈ held then none
      else (s.locks.acquire c lk).map (Except.map fun locks => (s.setLocks locks).setWork c (lk :: held))
  | .release c lk => (s.workList c).bind fun held =>
      if lk ∈ held then some ((s.locks.release c lk).map fun locks => (s.setLocks locks).setWork c (held.erase lk))
      else none
  | .store c j record => (s.workList c).bind fun held =>
      if .proc j ∈ held then some (.ok (s.setProc j record)) else none
  | .depart c how => s.depart c how
  | .intr c on =>
      if s.handler c = none ∧ s.workList c = some [] then some (.ok (s.setSie c on)) else none

def Step (event : FcfsEvent n) (t : Fcfs n) : Prop := s.next event = some (.ok t)

/-- The event ends in a panic. -/
def Panics (event : FcfsEvent n) (panic : LockPanic) : Prop := s.next event = some (.error panic)

/-- All CPUs are about to enter `scheduler` without a lock, with any process table. -/
structure Fresh : Prop where
  pc : ∀ c, s.pc c = .top
  handler : ∀ c, s.handler c = none
  holder : ∀ lk, s.locks.holder lk = none
  noff : ∀ c, (s.locks.off c).noff = 0

end Fcfs

end Xv6
