/-
This file lists what one step of the machine of the CPUs can do. The invariants of the machine are read
off this list.
-/

import Xv6.Kernel.CpuSystem

namespace Xv6.Cpu

variable {n : Nat}

/-- A section of a handler that reads the table and writes nothing. -/
inductive Turn (build : Build) (named : Option Slot) (proc : Slot → Proc) :
    HandlerPc → Option HandlerPc → Prop where
  | callSkip (chan : Chan) (j : Slot) :
      named = some j →
      Turn build named proc (.wakeupCall chan j.val) (some (.wakeupCall chan (j.val + 1)))
  | callDone (chan : Chan) (i : Nat) : nproc ≤ i → Turn build named proc (.wakeupCall chan i) none
  | updateDone (trap : Trap) (i : Nat) :
      nproc ≤ i → Turn build named proc (.update trap i) (some (.wakeup trap true .ticks [] 0))
  | wakeupSkip (trap : Trap) (timer : Bool) (chan : Chan) (rest : List Chan) (j : Slot) :
      named = some j →
      Turn build named proc (.wakeup trap timer chan rest j.val)
        (some (.wakeup trap timer chan rest (j.val + 1)))
  | wakeupDone (trap : Trap) (timer : Bool) (chan : Chan) (rest : List Chan) (i : Nat) :
      nproc ≤ i →
      Turn build named proc (.wakeup trap timer chan rest i) (some (.wakeRest trap timer rest))
  | devKilled (timer : Bool) :
      (build = .fcfs ∨ timer = false) →
      Turn build named proc (.devDone .user timer) (some (.killed timer))
  | devYield (trap : Trap) :
      build = .rr →
      Turn build named proc (.devDone trap true) (some (.yield trap (.afterFlag trap)))
  | devLeave (timer : Bool) :
      build ≠ .mlfq → Turn build named proc (.devDone .kernel timer) (some (.leave .kernel timer))
  | devAging (trap : Trap) (timer : Bool) :
      build = .mlfq → (trap = .user → timer = true) →
      Turn build named proc (.devDone trap timer) (some (.aging trap timer 0))
  | agingSlice (trap : Trap) (timer : Bool) (i : Nat) (p : Slot) :
      nproc ≤ i → named = some p →
      Turn build named proc (.aging trap timer i) (some (.slice trap timer p))
  | agingLeave (trap : Trap) (timer : Bool) (i : Nat) :
      nproc ≤ i → named = none →
      Turn build named proc (.aging trap timer i) (some (.leave trap timer))
  | sliceKeep (trap : Trap) (timer : Bool) (p : Slot) :
      ¬ (timer = true ∧ sliceUsed (proc p) = true) →
      Turn build named proc (.slice trap timer p) (some (.flag trap p))
  | flagYield (trap : Trap) (p : Slot) :
      preemptFlag proc (proc p).mlfqData.currPri = true →
      Turn build named proc (.flag trap p) (some (.yield trap (.afterFlag trap)))
  | flagDone (trap : Trap) (p : Slot) :
      preemptFlag proc (proc p).mlfqData.currPri = false →
      Turn build named proc (.flag trap p) (some ((AfterYield.afterFlag trap).pc trap))
  | killedYield :
      build = .rr → Turn build named proc (.killed true) (some (.yield .user .leave))
  | killedLeave (timer : Bool) :
      (build = .rr → timer = false) →
      Turn build named proc (.killed timer) (some (.leave .user timer))
  | leave (trap : Trap) (timer : Bool) : Turn build named proc (.leave trap timer) none

/-- A section of a handler that runs the body of a table loop on one slot. -/
inductive Visit (build : Build) (named : Option Slot) (ticks : Uint) :
    HandlerPc → Slot → (Proc → Proc) → HandlerPc → Prop where
  | call (chan : Chan) (j : Slot) :
      named ≠ some j →
      Visit build named ticks (.wakeupCall chan j.val) j (wakeupSlot chan)
        (.wakeupCall chan (j.val + 1))
  | update (trap : Trap) (j : Slot) :
      Visit build named ticks (.update trap j.val) j (updateTime build) (.update trap (j.val + 1))
  | wakeup (trap : Trap) (timer : Bool) (chan : Chan) (rest : List Chan) (j : Slot) :
      named ≠ some j →
      Visit build named ticks (.wakeup trap timer chan rest j.val) j (wakeupSlot chan)
        (.wakeup trap timer chan rest (j.val + 1))
  | aging (trap : Trap) (timer : Bool) (j : Slot) :
      Visit build named ticks (.aging trap timer j.val) j (aging ticks)
        (.aging trap timer (j.val + 1))

/-- A section of a scheduler that writes no record and keeps `c->proc`. -/
inductive Pass (build : Build) (s : Machine n) : SchedPc → SchedPc → Prop where
  | rr (j : Slot) (first : Option Slot) :
      build = .rr → s.Unlocked j → (s.proc j).state ≠ .runnable →
      Pass build s (.scan j.val first) (.scan (j.val + 1) none)
  | rrDone (i : Nat) (first : Option Slot) :
      build = .rr → nproc ≤ i → Pass build s (.scan i first) .top
  | fcfsHold (j : Slot) (first : Option Slot) :
      build = .fcfs → s.Unlocked j → s.prefers first j →
      Pass build s (.scan j.val first) (.scan (j.val + 1) (some j))
  | fcfs (j : Slot) (first : Option Slot) :
      build = .fcfs → s.Unlocked j → ¬ s.prefers first j →
      Pass build s (.scan j.val first) (.scan (j.val + 1) first)
  | fcfsDone (i : Nat) : build = .fcfs → nproc ≤ i → Pass build s (.scan i none) .top
  | mlfqDone (i : Nat) (first : Option Slot) :
      build = .mlfq → nproc ≤ i → Pass build s (.scan i first) .choose

/-- A section of a scheduler that clears `c->proc`. -/
inductive Clear (build : Build) (proc : Slot → Proc) : SchedPc → SchedPc → Prop where
  | stale (p : Slot) : Clear build proc (.stale p) .top
  | choose (p : Slot) :
      build = .mlfq → chooseNext proc = some p → Clear build proc .choose (.lockNext p)
  | empty : build = .mlfq → chooseNext proc = none → Clear build proc .choose .top

/-- The process that a scheduler runs from its position. -/
inductive Runs (build : Build) (s : Machine n) : SchedPc → Slot → Nat → Prop where
  | rr (j : Slot) (first : Option Slot) :
      build = .rr → s.Unlocked j → (s.proc j).state = .runnable →
      Runs build s (.scan j.val first) j j.val
  | fcfs (i : Nat) (p : Slot) : build = .fcfs → nproc ≤ i → Runs build s (.scan i (some p)) p i
  | mlfq (p : Slot) : build = .mlfq → s.Unlocked p → Runs build s (.lockNext p) p 0

/-- A section of `kill` that moves only the calling thread. -/
inductive Goes (s : Machine n) : Base → Base → Prop where
  | killNext (mode : Mode) (pid : CInt) (j : Slot) :
      (s.proc j).pid ≠ pid → s.Unlocked j →
      Goes s (.killing mode pid j.val) (.killing mode pid (j.val + 1))
  | killDone (mode : Mode) (pid : CInt) (i : Nat) :
      nproc ≤ i → Goes s (.killing mode pid i) (.kern mode)

/-- A call that moves only the calling thread. -/
inductive Calls (s : Machine n) (p : Slot) : KernelCall → Base → Base → Prop where
  | enter :
      s.Unlocked p →
      Calls s p .enter .user
        (.kern (if (s.proc p).killed then ⟨false, true⟩ else ⟨true, false⟩))
  | leave (mode : Mode) : mode.exiting = false → Calls s p .leave (.kern mode) .user
  | kill (mode : Mode) (pid : CInt) : Calls s p (.kill pid) (.kern mode) (.killing mode pid 0)

/-- One step of the machine. -/
inductive Move (build : Build) (s : Machine n) : CpuEvent n → Machine n → Prop where
  | interrupt (c : Fin n) (device : Device) (trap : Trap) :
      s.trapNow c = some trap →
      Move build s (.interrupt c device) (s.setHandler c (some (.devintr trap (c.val == 0) device)))
  | turn (c : Fin n) (pc : HandlerPc) (handler : Option HandlerPc) :
      s.handler c = some pc → Turn build (s.cproc c) s.proc pc handler →
      Move build s (.step c) (s.setHandler c handler)
  | tick (c : Fin n) (trap : Trap) :
      s.handler c = some (.clock trap) →
      Move build s (.step c)
        ({ s with ticks := s.ticks + 1 }.setHandler c (some (.update trap 0)))
  | visit (c : Fin n) (pc after : HandlerPc) (j : Slot) (body : Proc → Proc) :
      s.handler c = some pc → Visit build (s.cproc c) s.ticks pc j body after →
      Move build s (.step c) ((s.setProc j (body (s.proc j))).setHandler c (some after))
  | demote (c : Fin n) (trap : Trap) (p : Slot) :
      s.handler c = some (.slice trap true p) → sliceUsed (s.proc p) = true →
      Move build s (.step c) ((s.setProc p (demote s.ticks (s.proc p))).setHandler c
        (some (.yield trap (.flag p))))
  | yield (c : Fin n) (p q : Slot) (trap : Trap) (after : AfterYield) :
      s.handler c = some (.yield trap after) → s.cproc c = some p → s.cur c = some q →
      Move build s (.step c) (((s.setProc p { s.proc p with state := .runnable }).setHandler c
        (some (after.pc trap))).swtch build c false)
  | stray (c : Fin n) (p : Slot) (trap : Trap) (after : AfterYield) :
      s.handler c = some (.yield trap after) → s.cproc c = some p → s.cur c = none →
      Move build s (.step c) (((s.setProc p { s.proc p with state := .runnable }).setThread p
        ⟨none, .lost⟩).swtch build c false)
  | dying (c : Fin n) (p : Slot) (timer : Bool) :
      s.handler c = some (.killed timer) → s.cur c = some p → (s.proc p).killed = true →
      Move build s (.step c) (s.setThread p ⟨none, .kern ⟨false, true⟩⟩)
  | top (c : Fin n) :
      s.handler c = none → s.cur c = none → (s.sched c).pc = .top →
      Move build s (.step c) (s.setSched c ⟨none, .scan 0 none, true⟩)
  | pass (c : Fin n) (pc : SchedPc) :
      s.handler c = none → s.cur c = none → Pass build s (s.sched c).pc pc →
      Move build s (.step c) (s.goto c pc)
  | clear (c : Fin n) (pc : SchedPc) :
      s.handler c = none → s.cur c = none → Clear build s.proc (s.sched c).pc pc →
      Move build s (.step c) ({ s with cproc := Function.update s.cproc c none }.goto c pc)
  | scan (c : Fin n) (j : Slot) (first : Option Slot) :
      build = .mlfq → s.handler c = none → s.cur c = none → (s.sched c).pc = .scan j.val first →
      Move build s (.step c) ((s.setProc j (scanSlot s.ticks (s.proc j))).goto c
        (.scan (j.val + 1) none))
  | run (c : Fin n) (p : Slot) (i : Nat) :
      s.handler c = none → s.cur c = none → Runs build s (s.sched c).pc p i →
      Move build s (.step c) (s.dispatch c p i)
  | goes (c : Fin n) (p : Slot) (base : Base) :
      s.handler c = none → s.cur c = some p → Goes s (s.thread p).base base →
      Move build s (.step c) (s.setBase p base)
  | calls (c : Fin n) (p : Slot) (call : KernelCall) (base : Base) :
      s.handler c = none → s.cur c = some p → Calls s p call (s.thread p).base base →
      Move build s (.call c call) (s.setBase p base)
  | kill (c : Fin n) (p j : Slot) (mode : Mode) :
      s.handler c = none → s.cur c = some p →
      (s.thread p).base = .killing mode (s.proc j).pid j.val →
      Move build s (.step c) ((s.setProc j (killSlot (s.proc j))).setBase p (.kern mode))
  | ready (c : Fin n) (p np : Slot) (mode : Mode) :
      s.handler c = none → s.cur c = some p → (s.thread p).base = .forking mode np →
      Move build s (.step c) ((s.setProc np
        (forkReady build s.ticks (forkParent p (s.proc np)))).setBase p (.kern mode))
  | sleep (c : Fin n) (p : Slot) (mode : Mode) (chan : Chan) :
      s.handler c = none → s.cur c = some p → (s.thread p).base = .kern mode →
      Move build s (.call c (.sleep chan)) ((s.setProc p
        { s.proc p with state := .sleeping, chan := some chan }).swtch build c mode.ie)
  | exit (c : Fin n) (p : Slot) (mode : Mode) (status : CInt) :
      s.handler c = none → s.cur c = some p → (s.thread p).base = .kern mode →
      Move build s (.call c (.exit status)) (((s.setProc p
        (exitZombie s.ticks status (s.proc p))).setThread p ⟨none, .dead⟩).swtch build c mode.ie)
  | wakeup (c : Fin n) (p : Slot) (mode : Mode) (chan : Chan) :
      s.handler c = none → s.cur c = some p → (s.thread p).base = .kern mode →
      Move build s (.call c (.wakeup chan)) (s.setHandler c (some (.wakeupCall chan 0)))
  | fork (c : Fin n) (p np : Slot) (mode : Mode) (memory : Memory) (child after : Proc) :
      s.handler c = none → s.cur c = some p → (s.thread p).base = .kern mode →
      (s.proc np).state = .unused → s.Unlocked np →
      allocproc build s.nextpid s.ticks memory.page memory.table (s.proc np) = (some child, after) →
      Move build s (.call c (.fork np memory))
        ((({ s with nextpid := s.nextpid + 1 }.setProc np (forkCopy (s.proc p) child)).setThread np
          ⟨none, .forkret⟩).setBase p (.forking mode np))
  | forkFailed (c : Fin n) (p np : Slot) (memory : Memory) :
      s.handler c = none → s.cur c = some p → (s.proc np).state = .unused →
      Move build s (.call c (.fork np memory)) ({ s with nextpid := s.nextpid + 1 }.setProc np
        (forkFailed build s.nextpid s.ticks memory.page memory.table (s.proc np)))
  | wait (c : Fin n) (p child : Slot) :
      s.handler c = none → s.cur c = some p → (s.proc child).state = .zombie →
      Move build s (.call c (.wait child)) (s.setProc child (freeproc build (s.proc child)))

section Inversion

variable {build : Build} {s t u : Machine n} {c : Fin n}

theorem visit_some {j : Slot} {body : Proc → Proc} (visited : s.visit j body = some t) :
    s.Unlocked j ∧ t = s.setProc j (body (s.proc j)) := by
  unfold Machine.visit at visited
  split_ifs at visited with unlocked
  exact ⟨unlocked, (Option.some.inj visited).symm⟩

/-- One iteration of `wakeup` passes over `c->proc` or visits its slot. -/
theorem wakeupAt_some {j : Slot} {chan : Chan} (visited : s.wakeupAt c j chan = some t) :
    (s.cproc c = some j ∧ t = s) ∨
      (s.cproc c ≠ some j ∧ t = s.setProc j (wakeupSlot chan (s.proc j))) := by
  unfold Machine.wakeupAt at visited
  split_ifs at visited with mine
  · exact .inl ⟨mine, (Option.some.inj visited).symm⟩
  · exact .inr ⟨mine, (visit_some visited).2⟩

theorem move_devDone {trap : Trap} {timer : Bool} (position : s.handler c = some (.devDone trap timer))
    (moved : s.devDone build c trap timer = some t) : Move build s (.step c) t := by
  have turn {handler : HandlerPc} (turned : Turn build (s.cproc c) s.proc (.devDone trap timer)
      (some handler)) (same : s.setHandler c (some handler) = t) : Move build s (.step c) t :=
    same ▸ .turn c _ _ position turned
  unfold Machine.devDone at moved
  cases build <;> cases trap <;> simp only [Option.some.injEq] at moved
  · cases timer
    · exact turn (.devKilled false (.inr rfl)) moved
    · exact turn (.devYield .user rfl) moved
  · split_ifs at moved with preempts
    · obtain rfl : timer = true := (Bool.and_eq_true_iff.mp preempts).1
      exact turn (.devYield .kernel rfl) moved
    · exact turn (.devLeave timer nofun) moved
  · exact turn (.devKilled timer (.inl rfl)) moved
  · exact turn (.devLeave timer nofun) moved
  · cases timer
    · exact turn (.devKilled false (.inr rfl)) moved
    · exact turn (.devAging .user true rfl fun _ => rfl) moved
  · exact turn (.devAging .kernel timer rfl nofun) moved

theorem move_yield {trap : Trap} {after : AfterYield}
    (position : s.handler c = some (.yield trap after))
    (yielded : s.yield build c (after.pc trap) = some t) : Move build s (.step c) t := by
  unfold Machine.yield at yielded
  cases names : s.cproc c with
  | none => simp [names] at yielded
  | some p =>
      simp only [names] at yielded
      split_ifs at yielded
      cases current : s.cur c with
      | none =>
          simp only [current, Option.some.injEq] at yielded
          exact yielded ▸ .stray c p trap after position names current
      | some q =>
          simp only [current, Option.some.injEq] at yielded
          exact yielded ▸ .yield c p q trap after position names current

theorem move_checkKilled {timer : Bool} (position : s.handler c = some (.killed timer))
    (checked : s.checkKilled build c timer = some t) : Move build s (.step c) t := by
  unfold Machine.checkKilled at checked
  cases current : s.cur c with
  | none => simp [current] at checked
  | some p =>
      simp only [current] at checked
      split_ifs at checked with unlocked dying again
      · exact (Option.some.inj checked) ▸ .dying c p timer position current dying
      · obtain ⟨rfl, rfl⟩ := again
        exact (Option.some.inj checked) ▸ .turn c _ _ position (.killedYield rfl)
      · refine (Option.some.inj checked) ▸ .turn c _ _ position (.killedLeave timer fun first => ?_)
        exact Bool.eq_false_iff.mpr fun late => again ⟨first, late⟩

/-- A wakeup that goes to its next position is a turn or a visit. -/
theorem move_wakeupAt {pc after : HandlerPc} {j : Slot} {chan : Chan}
    (position : s.handler c = some pc) (visited : s.wakeupAt c j chan = some u)
    (skips : s.cproc c = some j → Turn build (s.cproc c) s.proc pc (some after))
    (visits : s.cproc c ≠ some j →
      Visit build (s.cproc c) s.ticks pc j (wakeupSlot chan) after) :
    Move build s (.step c) (u.setHandler c (some after)) := by
  rcases wakeupAt_some visited with ⟨mine, rfl⟩ | ⟨other, rfl⟩
  · exact .turn c pc _ position (skips mine)
  · exact .visit c pc after j _ position (visits other)

theorem move_handlerStep {pc : HandlerPc} (position : s.handler c = some pc)
    (moved : s.handlerStep build c pc = some t) : Move build s (.step c) t := by
  have turn {handler : Option HandlerPc} (turned : Turn build (s.cproc c) s.proc pc handler)
      (same : some (s.setHandler c handler) = some t) : Move build s (.step c) t :=
    (Option.some.inj same) ▸ .turn c pc handler position turned
  unfold Machine.handlerStep at moved
  cases pc with
  | wakeupCall chan i =>
      cases found : slotAt i with
      | some j =>
          simp only [found, Option.map_eq_some_iff] at moved
          obtain ⟨u, visited, rfl⟩ := moved
          obtain rfl := slotAt_some found
          exact move_wakeupAt position visited (.callSkip chan j) (.call chan j)
      | none =>
          simp only [found] at moved
          exact turn (.callDone chan i (slotAt_none found)) moved
  | clock trap => exact (Option.some.inj moved) ▸ .tick c trap position
  | update trap i =>
      cases found : slotAt i with
      | some j =>
          simp only [found, Option.map_eq_some_iff] at moved
          obtain ⟨u, visited, rfl⟩ := moved
          obtain rfl := slotAt_some found
          obtain ⟨_, rfl⟩ := visit_some visited
          exact .visit c _ _ j _ position (.update trap j)
      | none =>
          simp only [found] at moved
          exact turn (.updateDone trap i (slotAt_none found)) moved
  | wakeup trap timer chan rest i =>
      cases found : slotAt i with
      | some j =>
          simp only [found, Option.map_eq_some_iff] at moved
          obtain ⟨u, visited, rfl⟩ := moved
          obtain rfl := slotAt_some found
          exact move_wakeupAt position visited (.wakeupSkip trap timer chan rest j)
            (.wakeup trap timer chan rest j)
      | none =>
          simp only [found] at moved
          exact turn (.wakeupDone trap timer chan rest i (slotAt_none found)) moved
  | devDone trap timer => exact move_devDone position moved
  | aging trap timer i =>
      cases found : slotAt i with
      | some j =>
          simp only [found, Option.map_eq_some_iff] at moved
          obtain ⟨u, visited, rfl⟩ := moved
          obtain rfl := slotAt_some found
          obtain ⟨_, rfl⟩ := visit_some visited
          exact .visit c _ _ j _ position (.aging trap timer j)
      | none =>
          have ended := slotAt_none found
          cases names : s.cproc c with
          | some p =>
              simp only [found, Machine.afterAging, names] at moved
              exact turn (.agingSlice trap timer i p ended names) moved
          | none =>
              simp only [found, Machine.afterAging, names] at moved
              exact turn (.agingLeave trap timer i ended names) moved
  | slice trap timer p =>
      dsimp only at moved
      split_ifs at moved with used
      · obtain ⟨rfl, used⟩ := used
        exact (Option.some.inj moved) ▸ .demote c trap p position used
      · exact turn (.sliceKeep trap timer p used) moved
  | flag trap p =>
      dsimp only at moved
      split_ifs at moved with flagged
      · exact turn (.flagYield trap p flagged) moved
      · exact turn (.flagDone trap p (Bool.eq_false_iff.mpr flagged)) moved
  | yield trap after => exact move_yield position moved
  | killed timer => exact move_checkKilled position moved
  | leave trap timer => exact turn (.leave trap timer) moved

theorem move_schedStep (idle : s.handler c = none) (current : s.cur c = none)
    (moved : s.schedStep build c = some t) : Move build s (.step c) t := by
  have pass {pc : SchedPc} (passed : Pass build s (s.sched c).pc pc)
      (same : some (s.goto c pc) = some t) : Move build s (.step c) t :=
    (Option.some.inj same) ▸ .pass c pc idle current passed
  have run {p : Slot} {i : Nat} (chosen : Runs build s (s.sched c).pc p i)
      (same : some (s.dispatch c p i) = some t) : Move build s (.step c) t :=
    (Option.some.inj same) ▸ .run c p i idle current chosen
  have clear {pc : SchedPc} (cleared : Clear build s.proc (s.sched c).pc pc)
      (same : some ({ s with cproc := Function.update s.cproc c none }.goto c pc) = some t) :
      Move build s (.step c) t :=
    (Option.some.inj same) ▸ .clear c pc idle current cleared
  unfold Machine.schedStep at moved
  cases position : (s.sched c).pc with
  | top =>
      simp only [position] at moved
      exact (Option.some.inj moved) ▸ .top c idle current position
  | scan i first =>
      cases build with
      | rr =>
          simp only [position, Machine.scanRr] at moved
          cases found : slotAt i with
          | none =>
              simp only [found] at moved
              exact pass (position ▸ .rrDone i first rfl (slotAt_none found)) moved
          | some j =>
              obtain rfl := slotAt_some found
              simp only [found] at moved
              split_ifs at moved with unlocked runnable
              · exact run (position ▸ .rr j first rfl unlocked runnable) moved
              · exact pass (position ▸ .rr j first rfl unlocked runnable) moved
      | fcfs =>
          simp only [position, Machine.scanFcfs] at moved
          cases found : slotAt i with
          | none =>
              have ended := slotAt_none found
              cases first with
              | none =>
                  simp only [found] at moved
                  exact pass (position ▸ .fcfsDone i rfl ended) moved
              | some p =>
                  simp only [found] at moved
                  exact run (position ▸ .fcfs i p rfl ended) moved
          | some j =>
              obtain rfl := slotAt_some found
              simp only [found] at moved
              split_ifs at moved with unlocked preferred
              · exact pass (position ▸ .fcfsHold j first rfl unlocked preferred) moved
              · exact pass (position ▸ .fcfs j first rfl unlocked preferred) moved
      | mlfq =>
          simp only [position, Machine.scanMlfq] at moved
          cases found : slotAt i with
          | none =>
              simp only [found] at moved
              exact pass (position ▸ .mlfqDone i first rfl (slotAt_none found)) moved
          | some j =>
              obtain rfl := slotAt_some found
              simp only [found] at moved
              obtain ⟨u, visited, rfl⟩ := Option.map_eq_some_iff.mp moved
              obtain ⟨_, rfl⟩ := visit_some visited
              exact .scan c j first rfl idle current position
  | choose =>
      cases build <;> simp only [position, Machine.chooseStep, reduceCtorEq] at moved
      cases chosen : chooseNext s.proc with
      | none =>
          simp only [chosen] at moved
          exact clear (position ▸ .empty rfl chosen) moved
      | some p =>
          simp only [chosen] at moved
          exact clear (position ▸ .choose p rfl chosen) moved
  | lockNext p =>
      cases build <;> simp only [position, reduceCtorEq] at moved
      split_ifs at moved with unlocked
      exact run (position ▸ .mlfq p rfl unlocked) moved
  | away p i => cases build <;> simp [position] at moved
  | stale p =>
      cases build <;> simp only [position] at moved <;> exact clear (position ▸ .stale p) moved

theorem move_baseStep {p : Slot} (idle : s.handler c = none) (current : s.cur c = some p)
    (moved : s.baseStep build p = some t) : Move build s (.step c) t := by
  have goes {base : Base} (gone : Goes s (s.thread p).base base)
      (same : some (s.setBase p base) = some t) : Move build s (.step c) t :=
    (Option.some.inj same) ▸ .goes c p base idle current gone
  unfold Machine.baseStep at moved
  cases position : (s.thread p).base with
  | killing mode pid i =>
      cases found : slotAt i with
      | some j =>
          obtain rfl := slotAt_some found
          simp only [position, found] at moved
          split_ifs at moved with here unlocked
          · subst here
            obtain ⟨u, visited, rfl⟩ := Option.map_eq_some_iff.mp moved
            obtain ⟨_, rfl⟩ := visit_some visited
            exact .kill c p j mode idle current position
          · exact goes (position ▸ .killNext mode pid j here unlocked) moved
      | none =>
          simp only [position, found] at moved
          exact goes (position ▸ .killDone mode pid i (slotAt_none found)) moved
  | forking mode np =>
      simp only [position, Option.map_eq_some_iff] at moved
      obtain ⟨u, visited, rfl⟩ := moved
      obtain ⟨_, rfl⟩ := visit_some visited
      exact .ready c p np mode idle current position
  | _ => simp [position] at moved

theorem move_forkStep {p np : Slot} {mode : Mode} {memory : Memory} (idle : s.handler c = none)
    (current : s.cur c = some p) (position : (s.thread p).base = .kern mode)
    (moved : s.forkStep build p np mode memory = some t) :
    Move build s (.call c (.fork np memory)) t := by
  unfold Machine.forkStep at moved
  split_ifs at moved with free
  cases allocated : allocproc build s.nextpid s.ticks memory.page memory.table (s.proc np) with
  | mk child after =>
      cases child with
      | none =>
          simp only [allocated, Option.some.injEq] at moved
          exact moved ▸ .forkFailed c p np memory idle current free.1
      | some child =>
          cases copied : memory.copied with
          | false =>
              simp only [allocated, copied, Option.some.injEq] at moved
              exact moved ▸ .forkFailed c p np memory idle current free.1
          | true =>
              simp only [allocated, copied, Option.some.injEq] at moved
              exact moved ▸ .fork c p np mode memory child after idle current position free.1 free.2
                allocated

theorem move_callStep {p : Slot} {call : KernelCall} (idle : s.handler c = none)
    (current : s.cur c = some p) (moved : s.callStep build c p call = some t) :
    Move build s (.call c call) t := by
  have calls {base : Base} (called : Calls s p call (s.thread p).base base)
      (same : some (s.setBase p base) = some t) : Move build s (.call c call) t :=
    (Option.some.inj same) ▸ .calls c p call base idle current called
  unfold Machine.callStep at moved
  cases position : (s.thread p).base with
  | user =>
      cases call <;> simp only [position, reduceCtorEq] at moved
      by_cases unlocked : s.Unlocked p
      · rw [if_pos unlocked] at moved
        exact calls (position ▸ .enter unlocked) moved
      · simp [unlocked] at moved
  | kern mode =>
      cases call with
      | enter => simp [position] at moved
      | leave =>
          simp only [position] at moved
          split_ifs at moved with exits
          exact calls (position ▸ .leave mode (Bool.eq_false_iff.mpr exits)) moved
      | sleep chan =>
          simp only [position, Option.map_eq_some_iff] at moved
          obtain ⟨u, visited, rfl⟩ := moved
          obtain ⟨_, rfl⟩ := visit_some visited
          exact .sleep c p mode chan idle current position
      | exit status =>
          simp only [position, Option.map_eq_some_iff] at moved
          obtain ⟨u, visited, rfl⟩ := moved
          obtain ⟨_, rfl⟩ := visit_some visited
          exact .exit c p mode status idle current position
      | wakeup chan =>
          simp only [position, Option.some.injEq] at moved
          exact moved ▸ .wakeup c p mode chan idle current position
      | kill pid =>
          simp only [position] at moved
          exact calls (position ▸ .kill mode pid) moved
      | fork np memory =>
          simp only [position] at moved
          exact move_forkStep idle current position moved
      | wait child =>
          simp only [position] at moved
          split_ifs at moved with exited
          obtain ⟨_, rfl⟩ := visit_some moved
          exact .wait c p child idle current exited
  | _ => simp [position] at moved

/-- Every step of the machine is on the list. -/
theorem move_next {event : CpuEvent n} (stepped : s.Step build event t) : Move build s event t := by
  unfold Machine.Step Machine.next at stepped
  cases event with
  | step c =>
      cases position : s.handler c with
      | some pc =>
          simp only [position] at stepped
          exact move_handlerStep position stepped
      | none =>
          cases current : s.cur c with
          | none =>
              simp only [position, current] at stepped
              exact move_schedStep position current stepped
          | some p =>
              simp only [position, current] at stepped
              exact move_baseStep position current stepped
  | interrupt c device =>
      obtain ⟨trap, taken, rfl⟩ := Option.map_eq_some_iff.mp stepped
      exact .interrupt c device trap taken
  | call c call =>
      cases position : s.handler c with
      | some pc => simp [position] at stepped
      | none =>
          cases current : s.cur c with
          | none => simp [position, current] at stepped
          | some p =>
              simp only [position, current] at stepped
              exact move_callStep position current stepped

end Inversion

end Xv6.Cpu
