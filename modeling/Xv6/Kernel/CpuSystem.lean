/-
This file gives the machine of the CPUs. A step is one section of the thread that a CPU executes,
one interrupt, or one call of a process. A result of `none` means that the CPU waits for a lock, that
the event does not fit its position, or that its thread has no defined continuation.
-/

import Xv6.Kernel.Cpu

namespace Xv6

namespace Machine

variable {n : Nat} (s : Machine n)

/-- The part of both trap functions that follows `devintr`. -/
def devDone (build : Build) (c : Fin n) (trap : Trap) (timer : Bool) : Option (Machine n) :=
  match build, trap with
  | .rr, .user => some (s.setHandler c (some (if timer then .yield .user .killed else .killed timer)))
  | .rr, .kernel =>
      let preempts := timer && (s.cproc c).any fun p => (s.proc p).state == .running
      some (s.setHandler c (some (if preempts then .yield .kernel .leave else .leave .kernel timer)))
  | .fcfs, .user => some (s.setHandler c (some (.killed timer)))
  | .fcfs, .kernel => some (s.setHandler c (some (.leave .kernel timer)))
  | .mlfq, .user => some (s.setHandler c (some (if timer then .aging .user timer 0 else .killed timer)))
  | .mlfq, .kernel => some (s.setHandler c (some (.aging .kernel timer 0)))

/-- After the aging loop the handler reads `myproc`. In `kerneltrap` it may be null. -/
def afterAging (c : Fin n) (trap : Trap) (timer : Bool) : Machine n :=
  match s.cproc c with
  | some p => s.setHandler c (some (.slice trap timer p))
  | none => s.setHandler c (some (.leave trap timer))

/-- `killed` is tested before a process returns to user space. A killed process enters `exit`. -/
def checkKilled (build : Build) (c : Fin n) (timer : Bool) : Option (Machine n) :=
  match s.cur c with
  | none => none
  | some p =>
      if s.Unlocked p then
        if (s.proc p).killed then some (s.setThread p ⟨none, .kern ⟨false, true⟩⟩)
        else some (s.setHandler c (some
          (if build = .rr ∧ timer then .yield .user .leave else .leave .user timer)))
      else none

/-- One section of an interrupt handler or of a call of `wakeup`. -/
def handlerStep (build : Build) (c : Fin n) : HandlerPc → Option (Machine n)
  | .wakeupCall chan i => match slotAt i with
      | some j => (s.wakeupAt c j chan).map (·.setHandler c (some (.wakeupCall chan (i + 1))))
      | none => some (s.setHandler c none)
  | .clock trap => some ({ s with ticks := s.ticks + 1 }.setHandler c (some (.update trap 0)))
  | .update trap i => match slotAt i with
      | some j => (s.visit j (updateTime build)).map (·.setHandler c (some (.update trap (i + 1))))
      | none => some (s.setHandler c (some (.wakeup trap true .ticks [] 0)))
  | .wakeup trap timer chan rest i => match slotAt i with
      | some j => (s.wakeupAt c j chan).map
          (·.setHandler c (some (.wakeup trap timer chan rest (i + 1))))
      | none => some (s.setHandler c (some (.wakeRest trap timer rest)))
  | .devDone trap timer => s.devDone build c trap timer
  | .aging trap timer i => match slotAt i with
      | some j => (s.visit j (aging s.ticks)).map
          (·.setHandler c (some (.aging trap timer (i + 1))))
      | none => some (s.afterAging c trap timer)
  | .slice trap timer p =>
      if timer ∧ sliceUsed (s.proc p) then
        some ((s.setProc p (demote s.ticks (s.proc p))).setHandler c (some (.yield trap (.flag p))))
      else some (s.setHandler c (some (.flag trap p)))
  | .flag trap p =>
      if preemptFlag s.proc (s.proc p).mlfqData.currPri then
        some (s.setHandler c (some (.yield trap (.afterFlag trap))))
      else some (s.setHandler c (some ((AfterYield.afterFlag trap).pc trap)))
  | .yield trap after => s.yield build c (after.pc trap)
  | .killed timer => s.checkKilled build c timer
  | .leave _ _ => some (s.setHandler c none)

/-- The round robin runs the first runnable process that it meets. -/
def scanRr (c : Fin n) (i : Nat) : Option (Machine n) :=
  match slotAt i with
  | none => some (s.goto c .top)
  | some j =>
      if s.Unlocked j then
        if (s.proc j).state = .runnable then some (s.dispatch c j i)
        else some (s.goto c (.scan (i + 1) none))
      else none

/-- The first-come scheduler prefers this slot to its candidate. -/
def prefers (first : Option Slot) (j : Slot) : Prop :=
  (s.proc j).state = .runnable ∧ ∀ f ∈ first, (s.proc j).ctime < (s.proc f).ctime

instance (first : Option Slot) (j : Slot) : Decidable (s.prefers first j) :=
  inferInstanceAs (Decidable (_ ∧ _))

/-- The first-come scheduler keeps the lock of its candidate while it scans. -/
def scanFcfs (c : Fin n) (i : Nat) (first : Option Slot) : Option (Machine n) :=
  match slotAt i with
  | none => match first with
      | none => some (s.goto c .top)
      | some p => some (s.dispatch c p i)
  | some j =>
      if s.Unlocked j then
        if s.prefers first j then some (s.goto c (.scan (i + 1) (some j)))
        else some (s.goto c (.scan (i + 1) first))
      else none

/-- The feedback scheduler updates the queues while it scans. -/
def scanMlfq (c : Fin n) (i : Nat) : Option (Machine n) :=
  match slotAt i with
  | none => some (s.goto c .choose)
  | some j => (s.visit j (scanSlot s.ticks)).map (·.goto c (.scan (i + 1) none))

/-- `topmost` reads the table without a lock. -/
def chooseStep (c : Fin n) : Machine n :=
  let cleared := { s with cproc := Function.update s.cproc c none }
  match chooseNext s.proc with
  | none => cleared.goto c .top
  | some p => cleared.goto c (.lockNext p)

/-- One section of `scheduler`. The feedback scheduler does not look at the state again after it
has locked the process that it chose. -/
def schedStep (build : Build) (c : Fin n) : Option (Machine n) :=
  match build, (s.sched c).pc with
  | _, .top => some (s.setSched c ⟨none, .scan 0 none, true⟩)
  | .rr, .scan i _ => s.scanRr c i
  | .fcfs, .scan i first => s.scanFcfs c i first
  | .mlfq, .scan i _ => s.scanMlfq c i
  | .mlfq, .choose => some (s.chooseStep c)
  | .mlfq, .lockNext p => if s.Unlocked p then some (s.dispatch c p 0) else none
  | _, .stale _ => some ({ s with cproc := Function.update s.cproc c none }.goto c .top)
  | _, _ => none

/-- One section of a loop that a process runs inside a call. -/
def baseStep (build : Build) (p : Slot) : Option (Machine n) :=
  match (s.thread p).base with
  | .killing mode pid i => match slotAt i with
      | some j =>
          if (s.proc j).pid = pid then (s.visit j killSlot).map (·.setBase p (.kern mode))
          else if s.Unlocked j then some (s.setBase p (.killing mode pid (i + 1)))
          else none
      | none => some (s.setBase p (.kern mode))
  | .forking mode np =>
      (s.visit np fun child => forkReady build s.ticks (forkParent p child)).map
        (·.setBase p (.kern mode))
  | _ => none

/-- `fork` fills an unused slot, which starts in `forkret`. -/
def forkStep (build : Build) (p np : Slot) (mode : Mode) (memory : Memory) : Option (Machine n) :=
  if (s.proc np).state = .unused ∧ s.Unlocked np then
    let counted := { s with nextpid := s.nextpid + 1 }
    match allocproc build s.nextpid s.ticks memory.page memory.table (s.proc np), memory.copied with
    | (some child, _), true =>
        some (((counted.setProc np (forkCopy (s.proc p) child)).setThread np ⟨none, .forkret⟩).setBase p
          (.forking mode np))
    | _, _ => some (counted.setProc np
        (forkFailed build s.nextpid s.ticks memory.page memory.table (s.proc np)))
  else none

/-- A call of the process that a CPU executes. -/
def callStep (build : Build) (c : Fin n) (p : Slot) (call : KernelCall) : Option (Machine n) :=
  match (s.thread p).base, call with
  | .user, .enter =>
      if s.Unlocked p then
        some (s.setBase p (.kern (if (s.proc p).killed then ⟨false, true⟩ else ⟨true, false⟩)))
      else none
  | .kern mode, .leave => if mode.exiting then none else some (s.setBase p .user)
  | .kern mode, .sleep chan =>
      (s.visit p fun record => { record with state := .sleeping, chan := some chan }).map
        (·.swtch build c mode.ie)
  | .kern mode, .exit status =>
      (s.visit p (exitZombie s.ticks status)).map fun t =>
        (t.setThread p ⟨none, .dead⟩).swtch build c mode.ie
  | .kern _, .wakeup chan => some (s.setHandler c (some (.wakeupCall chan 0)))
  | .kern mode, .kill pid => some (s.setBase p (.killing mode pid 0))
  | .kern mode, .fork np memory => s.forkStep build p np mode memory
  | .kern _, .wait child =>
      if (s.proc child).state = .zombie then s.visit child (freeproc build) else none
  | _, _ => none

/-- One event of the machine. -/
def next (build : Build) : CpuEvent n → Option (Machine n)
  | .step c => match s.handler c with
      | some pc => s.handlerStep build c pc
      | none => match s.cur c with
          | none => s.schedStep build c
          | some p => s.baseStep build p
  | .interrupt c device =>
      (s.trapNow c).map fun trap => s.setHandler c (some (.devintr trap (c.val == 0) device))
  | .call c call => match s.handler c, s.cur c with
      | none, some p => s.callStep build c p call
      | _, _ => none

def Step (build : Build) (event : CpuEvent n) (t : Machine n) : Prop := s.next build event = some t

/-- The state after an event, when the event is possible. -/
def after (build : Build) (s : Machine n) (event : CpuEvent n) : Machine n :=
  (s.next build event).getD s

def legal (build : Build) (s : Machine n) (event : CpuEvent n) : Bool :=
  (s.next build event).isSome

theorem legal_step {build : Build} (s : Machine n) (event : CpuEvent n)
    (possible : legal build s event = true) : s.Step build event (after build s event) := by
  obtain ⟨t, found⟩ := Option.isSome_iff_exists.mp possible
  simp only [Step, after, found, Option.getD_some]

/-- A CPU executes several sections in a row. -/
def steps (c : Fin n) (count : Nat) : List (CpuEvent n) := List.replicate count (.step c)

/-- Each CPU enters `scheduler` after `userinit` has made the first process. -/
def boot (build : Build) (n : Nat) (table cwd : Uint64) : Machine n where
  proc := bootTable build table cwd
  sched := fun _ => ⟨none, .top, false⟩
  thread := fun p => ⟨none, if p = initproc then .forkret else .dead⟩
  cur := fun _ => none
  cproc := fun _ => none
  ticks := 0
  nextpid := 2

/-- The state after some events that follow the boot. -/
def play (build : Build) (events : List (CpuEvent n)) : Machine n :=
  events.foldl (after build) (boot build n 0 0)

end Machine

end Xv6
