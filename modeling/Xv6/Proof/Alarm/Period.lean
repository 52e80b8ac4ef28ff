/-
This file compares the alarm count with the ticks that are charged to the process. The count follows the charge as long
as every charged tick comes from user mode.
-/

import Xv6.Kernel.AlarmClock

namespace Xv6.AlarmPeriod
open TransitionSystem

section Machine

/-- What `update_time` does to a record depends on its state and its counters only. -/
theorem updateTime_congr (build : Build) {p q : Proc} (state : q.state = p.state) (rtime : q.rtime = p.rtime)
    (data : q.mlfqData = p.mlfqData) : updateTime build q =
      { q with rtime := (updateTime build p).rtime, mlfqData := (updateTime build p).mlfqData } := by
  unfold updateTime
  cases q
  dsimp only at state rtime data
  subst state rtime data
  cases build <;> dsimp only <;> split_ifs <;> rfl

theorem alarmTick_updateTime (build : Build) (page : Option Trapframe) (p : Proc) :
    alarmTick page (updateTime build p) = (alarmTick page p).map (updateTime build) := by
  rw [updateTime_congr build (p := p) rfl rfl rfl]
  unfold alarmTick
  dsimp only
  split_ifs with armed due
  · cases p.trapframe with
    | none => cases page <;> rfl
    | some frame =>
        cases page with
        | none => rfl
        | some _ =>
            refine congrArg some (Eq.symm ?_)
            exact updateTime_congr build (p := p) rfl rfl rfl
  · refine congrArg some (Eq.symm ?_)
    exact updateTime_congr build (p := p) rfl rfl rfl
  · refine congrArg some (Eq.symm ?_)
    exact updateTime_congr build (p := p) rfl rfl rfl

/-- One process of the alarm machine. -/
def clockOf (s : AlarmState) (i : Slot) : AlarmClock := ⟨s.proc i, s.user i⟩

/-- The event of the alarm machine for an event of one process. The alarm machine leaves out the scheduler, and the
ticks from kernel mode. -/
def alarmEvent (i : Slot) : ClockEvent → Option AlarmEvent
  | .user regs => some (.user i regs)
  | .userTick page entry => some (.tick i page entry)
  | .sigalarm entry => some (.sigalarm i entry)
  | .sigreturn entry => some (.sigreturn i entry)
  | .exec table start sp size argc name entry => some (.exec i table start sp size argc name entry)
  | .other result entry => some (.other i result entry)
  | .kernelTick | .switch _ => none

/-- The alarm machine leaves out the times that a tick charges. -/
def charge (build : Build) : ClockEvent → AlarmClock → AlarmClock
  | .userTick _ _, s => { s with proc := updateTime build s.proc }
  | _, s => s

theorem clockOf_resume (s : AlarmState) (i : Slot) (entry : KernelEntry) (p : Proc) :
    clockOf (s.resume i entry p) i = (clockOf s i).resume entry p := by
  cases present : p.trapframe <;> simp [clockOf, AlarmState.resume, AlarmClock.resume, present]

theorem charge_resume (build : Build) (s : AlarmClock) (entry : KernelEntry) (p : Proc) :
    s.resume entry (updateTime build p) =
      { s.resume entry p with proc := updateTime build (s.resume entry p).proc } := by
  rw [AlarmClock.resume, AlarmClock.resume, updateTime_congr build (p := p) rfl rfl rfl]
  refine congrArg₂ AlarmClock.mk (Eq.symm ?_) rfl
  exact updateTime_congr build (p := p) rfl rfl rfl

/-- The machine of one process does what the alarm machine does to that process. -/
theorem clock_next {build : Build} {s : AlarmState} {i : Slot} {event : ClockEvent} {event' : AlarmEvent}
    (mapped : alarmEvent i event = some event') :
    (clockOf s i).next build event = (s.next build event').map fun t => charge build event (clockOf t i) := by
  cases event with
  | kernelTick | switch => cases mapped
  | user regs =>
      cases mapped
      simp [AlarmClock.next, AlarmState.next, charge, clockOf]
  | userTick page entry =>
      cases mapped
      simp only [AlarmClock.next, AlarmState.next, charge, Option.map_map, alarmTick_updateTime]
      refine congrArg (Option.map · _) (funext fun p => ?_)
      simp only [Function.comp, charge_resume, clockOf_resume]
  | sigalarm entry | sigreturn entry =>
      cases mapped
      simp only [AlarmClock.next, AlarmState.next, charge, Option.map_map]
      refine congrArg (Option.map · _) (funext fun p => (clockOf_resume ..).symm)
  | exec | other =>
      cases mapped
      exact congrArg some (clockOf_resume ..).symm

end Machine

variable {build : Build} {s t start : AlarmClock}

/-- The process goes on at the handler with the alarm marked as running. -/
def Diverted (s t : AlarmClock) (handler : Uint64) : Prop :=
  s.proc.sigalarmRunning = false ∧ t.proc.sigalarmRunning = true ∧ t.user.pc = handler

/-- The event starts a handler. -/
def starts (build : Build) (s : AlarmClock) (event : ClockEvent) : Bool :=
  match s.next build event with
  | some t => !s.proc.sigalarmRunning && t.proc.sigalarmRunning
  | none => false

/-- The arguments of a `sigalarm` call that is accepted. -/
def request (s : AlarmClock) : Option (CInt × Uint64) :=
  let ticks : CInt := (s.user.regs .a0).truncate 32
  let handler := s.user.regs .a1
  if ticks = -1 ∨ handler = -1 then none else some (ticks, handler)

/-- The last accepted call, the ticks charged since the later of it and the last diversion, and the handlers that have
not returned. -/
structure Watch where
  alarm : Option (CInt × Uint64)
  since : Nat
  active : Nat

def observe (build : Build) (w : Watch) (entry : AlarmClock × ClockEvent) : Watch :=
  match entry.2 with
  | .sigalarm _ =>
      match request entry.1 with
      | some call => { w with alarm := some call, since := 0 }
      | none => w
  | .sigreturn _ => { w with active := w.active - 1 }
  | .userTick _ _ =>
      if starts build entry.1 entry.2 then { w with since := 0, active := w.active + 1 }
      else { w with since := w.since + 1 }
  | .kernelTick => if entry.1.proc.state = .running then { w with since := w.since + 1 } else w
  | _ => w

/-- The watch after a run of a process that starts with some active handlers. -/
def watch (build : Build) (active : Nat) (trace : List (AlarmClock × ClockEvent)) : Watch :=
  trace.foldl (observe build) ⟨none, 0, active⟩

/-- The alarm count takes part in the step: a tick from kernel mode does not hit the running process, and the count
does not overflow. -/
def Counted (s : AlarmClock) : ClockEvent → Prop
  | .kernelTick => s.proc.state ≠ .running
  | .userTick _ _ => s.proc.ticksElapsed.toInt < 2 ^ 31 - 1
  | _ => True

/-- The record agrees with the watch. -/
structure Agrees (w : Watch) (s : AlarmClock) : Prop where
  framed : s.proc.trapframe.isSome = true
  period : ∀ n h, w.alarm = some (n, h) → s.proc.sigalarmNticks = n ∧ s.proc.sigalarmHandler = h
  count : ∀ call, w.alarm = some call → s.proc.ticksElapsed.toInt = w.since
  idle : ∀ call, w.alarm = some call → w.active = 0 → s.proc.sigalarmRunning = false

/-- Two records with the same alarm. -/
structure SameAlarm (p q : Proc) : Prop where
  framed : q.trapframe.isSome = p.trapframe.isSome
  nticks : q.sigalarmNticks = p.sigalarmNticks
  handler : q.sigalarmHandler = p.sigalarmHandler
  elapsed : q.ticksElapsed = p.ticksElapsed
  running : q.sigalarmRunning = p.sigalarmRunning

theorem SameAlarm.trans {p q r : Proc} (first : SameAlarm p q) (second : SameAlarm q r) : SameAlarm p r :=
  ⟨second.framed.trans first.framed, second.nticks.trans first.nticks, second.handler.trans first.handler,
    second.elapsed.trans first.elapsed, second.running.trans first.running⟩

theorem sameAlarm_enter (s : AlarmClock) : SameAlarm s.proc s.enter :=
  ⟨Option.isSome_map, rfl, rfl, rfl, rfl⟩

theorem sameAlarm_ecall (s : AlarmClock) : SameAlarm s.proc s.ecall :=
  (sameAlarm_enter s).trans ⟨Option.isSome_map, rfl, rfl, rfl, rfl⟩

theorem sameAlarm_resume (s : AlarmClock) (entry : KernelEntry) (p : Proc) : SameAlarm p (s.resume entry p).proc :=
  ⟨Option.isSome_map, rfl, rfl, rfl, rfl⟩

theorem sameAlarm_storeResult (result : Uint64 × Proc) : SameAlarm result.2 (storeResult result) :=
  ⟨Option.isSome_map, rfl, rfl, rfl, rfl⟩

theorem sameAlarm_updateTime (build : Build) (p : Proc) : SameAlarm p (updateTime build p) := by
  unfold updateTime
  cases build <;> dsimp only <;> split_ifs <;> exact ⟨rfl, rfl, rfl, rfl, rfl⟩

theorem Agrees.same {w : Watch} (agrees : Agrees w s) (same : SameAlarm s.proc t.proc) : Agrees w t := by
  refine ⟨?_, ?_, ?_, ?_⟩
  · rw [same.framed]
    exact agrees.framed
  · rw [same.nticks, same.handler]
    exact agrees.period
  · rw [same.elapsed]
    exact agrees.count
  · rw [same.running]
    exact agrees.idle

/-- The record that the alarm code of a tick from user mode sees. -/
def ticked (build : Build) (s : AlarmClock) : Proc := updateTime build s.enter

theorem sameAlarm_ticked (build : Build) (s : AlarmClock) : SameAlarm s.proc (ticked build s) :=
  (sameAlarm_enter s).trans (sameAlarm_updateTime build s.enter)

/-- A tick that does not divert counts one. -/
theorem next_quiet (page : Option Trapframe) (entry : KernelEntry) (quiet : ¬ diverts (ticked build s)) :
    s.next build (.userTick page entry) =
      some (s.resume entry { ticked build s with ticksElapsed := (ticked build s).ticksElapsed + 1 }) := by
  show (alarmTick page (ticked build s)).map (s.resume entry) = _
  rw [alarmTick_quiet quiet]
  rfl

/-- A tick that diverts starts the handler. -/
theorem next_divert (page : Trapframe) (entry : KernelEntry) {frame : Trapframe} (due : diverts (ticked build s))
    (present : (ticked build s).trapframe = some frame) :
    s.next build (.userTick (some page) entry) = some (s.resume entry { ticked build s with
      sigalarmRunning := true
      ticksElapsed := 0
      trapBackup := some frame
      trapframe := some { frame with epc := (ticked build s).sigalarmHandler } }) := by
  show (alarmTick (some page) (ticked build s)).map (s.resume entry) = _
  rw [alarmTick_divert due present]
  rfl

/-- Without a page a diverting tick has no result. -/
theorem next_no_page (entry : KernelEntry) {frame : Trapframe} (due : diverts (ticked build s))
    (present : (ticked build s).trapframe = some frame) : s.next build (.userTick none entry) = none := by
  show (alarmTick none (ticked build s)).map (s.resume entry) = _
  rw [alarmTick_divert due present]
  rfl

theorem starts_quiet {page : Option Trapframe} {entry : KernelEntry} (quiet : ¬ diverts (ticked build s)) :
    starts build s (.userTick page entry) = false := by
  unfold starts
  rw [next_quiet page entry quiet]
  have same : (s.resume entry { ticked build s with
    ticksElapsed := (ticked build s).ticksElapsed + 1 }).proc.sigalarmRunning = s.proc.sigalarmRunning :=
    (sameAlarm_ticked build s).running
  dsimp only
  rw [same]
  exact Bool.not_and_self _

theorem starts_divert {page : Trapframe} {entry : KernelEntry} {frame : Trapframe} (due : diverts (ticked build s))
    (present : (ticked build s).trapframe = some frame) : starts build s (.userTick (some page) entry) = true := by
  have before : s.proc.sigalarmRunning = false := (sameAlarm_ticked build s).running ▸ due.2.1
  unfold starts
  rw [next_divert page entry due present, before]
  rfl

theorem toInt_succ {x : CInt} (small : x.toInt < 2 ^ 31 - 1) : (x + 1).toInt = x.toInt + 1 := by
  have low := BitVec.le_toInt x
  rw [BitVec.toInt_add]
  have one : (1 : CInt).toInt = 1 := rfl
  rw [one]
  apply Int.bmod_eq_of_le
  · omega
  · omega

/-- A tick from user mode keeps the agreement. -/
theorem agrees_userTick {w : Watch} {page : Option Trapframe} {entry : KernelEntry} (agrees : Agrees w s)
    (small : s.proc.ticksElapsed.toInt < 2 ^ 31 - 1) (done : s.next build (.userTick page entry) = some t) :
    Agrees (observe build w (s, .userTick page entry)) t := by
  have same := sameAlarm_ticked build s
  obtain ⟨frame, present⟩ := Option.isSome_iff_exists.mp (same.framed.trans agrees.framed)
  by_cases due : diverts (ticked build s)
  · cases page with
    | none =>
        rw [next_no_page entry due present] at done
        cases done
    | some page =>
        have watched : observe build w (s, .userTick (some page) entry) =
            { w with since := 0, active := w.active + 1 } := if_pos (starts_divert due present)
        rw [next_divert page entry due present] at done
        obtain rfl := Option.some.inj done
        rw [watched]
        refine ⟨rfl, fun n h call => ?_, fun _ _ => rfl, fun _ _ none => absurd none (Nat.succ_ne_zero _)⟩
        obtain ⟨nticks, handler⟩ := agrees.period n h call
        exact ⟨same.nticks.trans nticks, same.handler.trans handler⟩
  · have watched : observe build w (s, .userTick page entry) = { w with since := w.since + 1 } :=
      if_neg (by rw [starts_quiet due]; decide)
    rw [next_quiet page entry due] at done
    obtain rfl := Option.some.inj done
    rw [watched]
    refine ⟨?_, fun n h call => ?_, fun call called => ?_, fun call called none => ?_⟩
    · rw [(sameAlarm_resume s entry _).framed]
      exact Option.isSome_iff_exists.mpr ⟨frame, present⟩
    · obtain ⟨nticks, handler⟩ := agrees.period n h call
      exact ⟨same.nticks.trans nticks, same.handler.trans handler⟩
    · have elapsed := agrees.count call called
      rw [(sameAlarm_resume s entry _).elapsed]
      show ((ticked build s).ticksElapsed + 1).toInt = _
      rw [same.elapsed, toInt_succ small, elapsed]
      rfl
    · exact same.running.trans (agrees.idle call called none)

theorem ecall_frame {frame : Trapframe} (present : s.proc.trapframe = some frame) :
    ∃ saved, s.ecall.trapframe = some saved ∧ saved.regs = s.user.regs := by
  refine ⟨{ saveUser s.user frame with epc := (saveUser s.user frame).epc + 4 }, ?_, rfl⟩
  simp only [AlarmClock.ecall, AlarmClock.enter, present, Option.map_some]

/-- A `sigalarm` call keeps the agreement. -/
theorem agrees_sigalarm {w : Watch} {entry : KernelEntry} (agrees : Agrees w s)
    (done : s.next build (.sigalarm entry) = some t) : Agrees (observe build w (s, .sigalarm entry)) t := by
  obtain ⟨frame, present⟩ := Option.isSome_iff_exists.mp agrees.framed
  obtain ⟨saved, kept, regs⟩ := ecall_frame present
  have ticks : argint saved .a0 = (s.user.regs .a0).truncate 32 := by
    unfold argint
    rw [regs]
  obtain ⟨result, called, rfl⟩ := Option.map_eq_some_iff.mp done
  by_cases bad : argint saved .a0 = -1 ∨ saved.regs .a1 = -1
  · have rejected : request s = none := by
      rw [ticks, regs] at bad
      exact if_pos bad
    have watched : observe build w (s, .sigalarm entry) = w := by
      simp only [observe, rejected]
    rw [sysSigalarm_reject kept bad] at called
    obtain rfl := Option.some.inj called
    rw [watched]
    apply agrees.same
    exact (sameAlarm_ecall s).trans ((sameAlarm_storeResult (-1, s.ecall)).trans (sameAlarm_resume s entry _))
  · have accepted : request s = some (argint saved .a0, saved.regs .a1) := by
      rw [ticks, regs] at bad ⊢
      exact if_neg bad
    have watched : observe build w (s, .sigalarm entry) =
        { w with alarm := some (argint saved .a0, saved.regs .a1), since := 0 } := by
      simp only [observe, accepted]
    rw [sysSigalarm_accept kept bad] at called
    obtain rfl := Option.some.inj called
    rw [watched]
    refine ⟨?_, fun n h call => ?_, fun _ _ => rfl, fun _ _ _ => rfl⟩
    · rw [(sameAlarm_resume s entry _).framed, (sameAlarm_storeResult _).framed]
      exact Option.isSome_iff_exists.mpr ⟨saved, kept⟩
    · obtain ⟨rfl, rfl⟩ := Prod.mk.inj (Option.some.inj call)
      exact ⟨rfl, rfl⟩

/-- A `sigreturn` call ends one activation. -/
theorem agrees_sigreturn {w : Watch} {entry : KernelEntry} (agrees : Agrees w s)
    (done : s.next build (.sigreturn entry) = some t) : Agrees (observe build w (s, .sigreturn entry)) t := by
  obtain ⟨result, called, rfl⟩ := Option.map_eq_some_iff.mp done
  obtain ⟨saved, backup, rfl⟩ := Option.map_eq_some_iff.mp called
  exact ⟨rfl, agrees.period, agrees.count, fun _ _ _ => rfl⟩

/-- Every counted step keeps the agreement. -/
theorem agrees_step {w : Watch} {event : ClockEvent} (agrees : Agrees w s) (counted : Counted s event)
    (stepped : s.Step build event t) : Agrees (observe build w (s, event)) t := by
  obtain ⟨enabled, done⟩ := stepped
  cases event with
  | user regs | switch state =>
      obtain rfl := Option.some.inj done
      exact agrees.same ⟨rfl, rfl, rfl, rfl, rfl⟩
  | userTick page entry => exact agrees_userTick agrees counted done
  | kernelTick =>
      obtain rfl := Option.some.inj done
      have watched : observe build w (s, .kernelTick) = w := if_neg counted
      rw [watched]
      exact agrees.same (sameAlarm_updateTime build s.proc)
  | sigalarm entry => exact agrees_sigalarm agrees done
  | sigreturn entry => exact agrees_sigreturn agrees done
  | exec table start sp size argc name entry =>
      obtain rfl := Option.some.inj done
      have image : SameAlarm s.ecall (execCommit table start sp size name s.ecall) :=
        ⟨Option.isSome_map, rfl, rfl, rfl, rfl⟩
      apply agrees.same
      exact (sameAlarm_ecall s).trans (image.trans ((sameAlarm_storeResult (argc, _)).trans (sameAlarm_resume s entry _)))
  | other result entry =>
      obtain rfl := Option.some.inj done
      apply agrees.same
      exact (sameAlarm_ecall s).trans ((sameAlarm_storeResult (result, s.ecall)).trans (sameAlarm_resume s entry _))

theorem watch_append (active : Nat) (trace : List (AlarmClock × ClockEvent)) (entry : AlarmClock × ClockEvent) :
    watch build active (trace ++ [entry]) = observe build (watch build active trace) entry := by
  simp [watch]

theorem run_agrees (active : Nat) {trace : List (AlarmClock × ClockEvent)}
    (framed : start.proc.trapframe.isSome = true) (run : Run (AlarmClock.Step build) start trace s)
    (counted : ∀ entry ∈ trace, Counted entry.1 entry.2) : Agrees (watch build active trace) s := by
  have keeps (trace : List (AlarmClock × ClockEvent)) (s : AlarmClock) (event : ClockEvent) (t : AlarmClock)
      (fits : Counted s event) (before : Agrees (watch build active trace) s) (stepped : s.Step build event t) :
      Agrees (watch build active (trace ++ [(s, event)])) t := by
    rw [watch_append]
    exact agrees_step before fits stepped
  refine run.history Counted keeps counted ⟨framed, ?_, ?_, ?_⟩
  · intro n h call
    cases call
  · intro call called
    cases called
  · intro call called
    cases called

/-- In every run in which the charged ticks come from user mode, a tick from user mode without an active handler
diverts the process if and only if the period of the last `sigalarm` call has been charged to it since the later of that
call and the last diversion. -/
theorem alarm_follows_cpu_time {active : Nat} {trace : List (AlarmClock × ClockEvent)} {n : CInt} {h : Uint64}
    {page : Trapframe} {entry : KernelEntry} (framed : start.proc.trapframe.isSome = true)
    (run : Run (AlarmClock.Step build) start trace s) (counted : ∀ entry ∈ trace, Counted entry.1 entry.2)
    (called : (watch build active trace).alarm = some (n, h)) (positive : 0 < n.toInt)
    (idle : (watch build active trace).active = 0 ∨ s.proc.sigalarmRunning = false)
    (enabled : s.Enabled (.userTick (some page) entry))
    (fits : Counted s (.userTick (some page) entry)) :
    ∃ t, s.Step build (.userTick (some page) entry) t ∧
      (Diverted s t h ↔ n.toInt ≤ (watch build active trace).since + 1) := by
  have agrees := run_agrees active framed run counted
  have same := sameAlarm_ticked build s
  obtain ⟨frame, present⟩ := Option.isSome_iff_exists.mp (same.framed.trans agrees.framed)
  obtain ⟨nticks, handler⟩ := agrees.period n h called
  have free : s.proc.sigalarmRunning = false := idle.elim (agrees.idle _ called) id
  have due : diverts (ticked build s) ↔ n.toInt ≤ (watch build active trace).since + 1 := by
    unfold diverts
    rw [same.nticks, same.running, same.elapsed, nticks, toInt_succ fits, agrees.count _ called]
    simp [positive, free]
  by_cases now : diverts (ticked build s)
  · refine ⟨_, ⟨enabled, next_divert page entry now present⟩, iff_of_true ⟨free, rfl, ?_⟩ (due.mp now)⟩
    exact same.handler.trans handler
  · refine ⟨_, ⟨enabled, next_quiet _ entry now⟩, iff_of_false ?_ fun enough => now (due.mpr enough)⟩
    intro diverted
    have on : (ticked build s).sigalarmRunning = true := diverted.2.1
    rw [same.running, free] at on
    cases on

section TwoTicks

def after (build : Build) (s : AlarmClock) (event : ClockEvent) : AlarmClock := (s.next build event).getD s

def legal (build : Build) (s : AlarmClock) (event : ClockEvent) : Bool :=
  decide (s.Enabled event) && (s.next build event).isSome

theorem step_after (build : Build) (s : AlarmClock) (event : ClockEvent) (fits : legal build s event = true) :
    AlarmClock.Step build s event (after build s event) := by
  obtain ⟨enabled, sound⟩ := Bool.and_eq_true_iff.mp fits
  obtain ⟨next, result⟩ := Option.isSome_iff_exists.mp sound
  exact ⟨of_decide_eq_true enabled, by simp [after, result]⟩

def plainEntry : KernelEntry := ⟨0, 0, 0, 0⟩

/-- The first process, about to call `sigalarm(2, 64)`. -/
def caller : AlarmClock where
  proc := { userinit .rr 0 0 with state := .running }
  user := ⟨0, fun
    | .a0 => 2
    | .a1 => 64
    | .a7 => 24
    | _ => 0⟩

def tick : ClockEvent := .userTick (some junkFrame) plainEntry

/-- Both ticks of the period come from user mode. -/
def userTicks : List ClockEvent := [.sigalarm plainEntry, tick]

/-- The first tick of the period comes from kernel mode. -/
def mixedTicks : List ClockEvent := [.sigalarm plainEntry, .kernelTick]

theorem userTicks_run :
    Run (AlarmClock.Step .rr) caller (entries (after .rr) caller userTicks) (userTicks.foldl (after .rr) caller) :=
  (run_entries (step_after .rr) (fun _ _ _ => trivial) (by decide : plays _ _ caller userTicks = true)).1

theorem userTicks_counted : ∀ entry ∈ entries (after .rr) caller userTicks, Counted entry.1 entry.2 := by
  intro entry inside
  rcases List.mem_cons.mp inside with rfl | later
  · trivial
  · obtain rfl := List.mem_singleton.mp later
    show (_ : Int) < _
    decide

theorem mixedTicks_run :
    Run (AlarmClock.Step .rr) caller (entries (after .rr) caller mixedTicks) (mixedTicks.foldl (after .rr) caller) :=
  (run_entries (step_after .rr) (fun _ _ _ => trivial) (by decide : plays _ _ caller mixedTicks = true)).1

/-- The second of two ticks from user mode diverts the process. -/
theorem alarm_follows_two_ticks : ∃ trace s t, Run (AlarmClock.Step .rr) caller trace s ∧
    (watch .rr 0 trace).alarm = some (2, 64) ∧ s.Step .rr tick t ∧ Diverted s t 64 := by
  have called : (watch .rr 0 (entries (after .rr) caller userTicks)).alarm = some (2, 64) := by decide
  have fits : Counted (userTicks.foldl (after .rr) caller) tick := by
    show (_ : Int) < _
    decide
  obtain ⟨t, stepped, diverts⟩ := alarm_follows_cpu_time rfl userTicks_run userTicks_counted called (by decide)
    (.inl (by decide)) (by decide) fits
  exact ⟨_, _, t, userTicks_run, called, stepped, diverts.mpr (by decide)⟩

/-- After one tick from kernel mode and one from user mode the period of two ticks has been charged, and the process is
not diverted. -/
theorem alarm_misses_kernel_tick : ∃ trace s t, Run (AlarmClock.Step .rr) caller trace s ∧
    (watch .rr 0 trace).alarm = some (2, 64) ∧ (watch .rr 0 trace).active = 0 ∧
    (2 : CInt).toInt ≤ (watch .rr 0 trace).since + 1 ∧ t.proc.rtime = caller.proc.rtime + 2 ∧
    s.Step .rr tick t ∧ ¬ Diverted s t 64 := by
  refine ⟨_, _, after .rr (mixedTicks.foldl (after .rr) caller) tick, mixedTicks_run, by decide, by decide, by decide,
    by decide, step_after .rr _ _ (by decide), fun diverted => ?_⟩
  have quiet : (after .rr (mixedTicks.foldl (after .rr) caller) tick).proc.sigalarmRunning = false := by decide
  exact Bool.false_ne_true (quiet.symm.trans diverted.2.1)

end TwoTicks

end Xv6.AlarmPeriod
