/-
This file carries the protocol over whole runs of the machine of the CPUs. The round robin and the
first-come scheduler keep its invariant in every run, and the feedback scheduler in orderly runs.
-/

import Xv6.Proof.Cpu.Refinement
import Xv6.Lib.Run

namespace Xv6.Cpu
open TransitionSystem

variable {n : Nat}

section Calm

variable {s : Machine n}

theorem Calm.setProc (calm : Calm s) (p : Slot) (record : Proc) : Calm (s.setProc p record) := calm

theorem Calm.setSched (calm : Calm s) (c : Fin n) (thread : SchedThread)
    (quiet : thread.handler.all tame = true) : Calm (s.setSched c thread) := by
  refine ⟨fun d => ?_, calm.2⟩
  by_cases same : d = c
  · simpa [Machine.setSched, same] using quiet
  · simpa [Machine.setSched, same] using calm.1 d

theorem Calm.setThread (calm : Calm s) (p : Slot) (thread : ProcThread)
    (quiet : thread.handler.all tame = true) : Calm (s.setThread p thread) := by
  refine ⟨calm.1, fun q => ?_⟩
  by_cases same : q = p
  · simpa [Machine.setThread, same] using quiet
  · simpa [Machine.setThread, same] using calm.2 q

theorem Calm.setHandler (calm : Calm s) (c : Fin n) {handler : Option HandlerPc}
    (quiet : handler.all tame = true) : Calm (s.setHandler c handler) := by
  unfold Machine.setHandler
  cases s.cur c with
  | none => exact calm.setSched c _ quiet
  | some p => exact calm.setThread p _ quiet

theorem Calm.goto (calm : Calm s) (c : Fin n) (pc : SchedPc) : Calm (s.goto c pc) :=
  calm.setSched c _ (calm.1 c)

theorem Calm.setBase (calm : Calm s) (p : Slot) (base : Base) : Calm (s.setBase p base) :=
  calm.setThread p _ (calm.2 p)

theorem Calm.handler (calm : Calm s) (c : Fin n) : (s.handler c).all tame = true := by
  unfold Machine.handler
  cases s.cur c with
  | none => exact calm.1 c
  | some p => exact calm.2 p

theorem Calm.dispatch (calm : Calm s) (c : Fin n) (p : Slot) (i : Nat) :
    Calm (s.dispatch c p i) := by
  refine (calm.setSched c ⟨none, .away p i, (s.sched c).ie⟩ rfl).setThread p _ ?_
  split
  · rfl
  · exact calm.2 p

theorem Calm.swtch (calm : Calm s) (build : Build) (c : Fin n) (ie : Bool) :
    Calm (s.swtch build c ie) := by
  unfold Machine.swtch
  split <;> exact calm.setSched c ⟨none, _, ie⟩ rfl

theorem tame_wakeRest (trap : Trap) (timer : Bool) (rest : List Chan) :
    tame (.wakeRest trap timer rest) = true := by
  cases rest <;> rfl

theorem tame_devintr (trap : Trap) (first : Bool) (device : Device) :
    tame (.devintr trap first device) = true := by
  cases device with
  | timer => cases first <;> rfl
  | other chans => exact tame_wakeRest trap false chans

theorem tame_turn {named : Option Slot} {proc : Slot → Proc} {pc : HandlerPc}
    {handler : Option HandlerPc} (turned : Turn .fcfs named proc pc handler) (quiet : tame pc = true) :
    handler.all tame = true := by
  cases turned with
  | wakeupDone trap timer chan rest => exact tame_wakeRest trap timer rest
  | _ => simp_all [tame]

theorem tame_visit {named : Option Slot} {ticks : Uint} {pc after : HandlerPc} {j : Slot}
    {body : Proc → Proc} (visited : Visit .fcfs named ticks pc j body after)
    (quiet : tame pc = true) : tame after = true := by
  cases visited <;> simp_all [tame]

/-- The first-come build stays calm. -/
theorem calm_next {t : Machine n} {event : CpuEvent n} (calm : Calm s)
    (stepped : s.Step .fcfs event t) : Calm t := by
  have quiet {c : Fin n} {pc : HandlerPc} (position : s.handler c = some pc) : tame pc = true := by
    simpa [position] using calm.handler c
  cases move_next stepped with
  | interrupt c device trap => exact calm.setHandler c (tame_devintr trap _ device)
  | turn c pc handler position turned => exact calm.setHandler c (tame_turn turned (quiet position))
  | tick c trap =>
      have counted : Calm { s with ticks := s.ticks + 1 } := calm
      exact counted.setHandler c rfl
  | visit c pc after j body position visited =>
      exact (calm.setProc j _).setHandler c (tame_visit visited (quiet position))
  | demote c trap p position
  | yield c p q trap after position
  | stray c p trap after position => exact absurd (quiet position) Bool.false_ne_true
  | dying c p timer => exact calm.setThread p _ rfl
  | top c => exact calm.setSched c _ rfl
  | pass c pc => exact calm.goto c pc
  | clear c pc => exact Calm.goto calm c pc
  | scan c j first only => exact (nomatch only)
  | run c p i => exact calm.dispatch c p i
  | goes c p base => exact calm.setBase p base
  | calls c p call base => exact calm.setBase p base
  | kill c p j mode => exact (calm.setProc j _).setBase p _
  | ready c p np mode => exact (calm.setProc np _).setBase p _
  | sleep c p mode chan => exact (calm.setProc p _).swtch .fcfs c mode.ie
  | exit c p mode status => exact ((calm.setProc p _).setThread p _ rfl).swtch .fcfs c mode.ie
  | wakeup c p mode chan => exact calm.setHandler c rfl
  | fork c p np mode memory child =>
      have counted : Calm { s with nextpid := s.nextpid + 1 } := calm
      exact ((counted.setProc np _).setThread np _ rfl).setBase p _
  | forkFailed c p np memory =>
      have counted : Calm { s with nextpid := s.nextpid + 1 } := calm
      exact counted.setProc np _
  | wait c p child => exact calm.setProc child _

end Calm

/-- The handler is about to call `yield`. -/
def yields : Option HandlerPc → Bool
  | some (.yield _ _) => true
  | _ => false

/-- A `yield` runs on the thread of a process and not on a scheduler thread. -/
def OwnYield (s : Machine n) : CpuEvent n → Prop
  | .step c => yields (s.handler c) = true → s.cur c ≠ none
  | _ => True

/-- The process that a scheduler is about to run is still runnable. -/
def StillRunnable (s : Machine n) : CpuEvent n → Prop
  | .step c => ∀ p ∈ claim s c, (s.proc p).state = .runnable
  | _ => True

/-- Both conditions hold at a step. -/
def OrderlyStep (s : Machine n) (event : CpuEvent n) : Prop := OwnYield s event ∧ StillRunnable s event

instance (s : Machine n) (event : CpuEvent n) : Decidable (OwnYield s event) := by
  cases event <;> unfold OwnYield <;> infer_instance

instance (s : Machine n) (event : CpuEvent n) : Decidable (StillRunnable s event) := by
  cases event <;> unfold StillRunnable <;> infer_instance

instance (s : Machine n) (event : CpuEvent n) : Decidable (OrderlyStep s event) :=
  inferInstanceAs (Decidable (_ ∧ _))

/-- What holds in every run. -/
structure Wired (build : Build) (s : Machine n) : Prop where
  calm : build = .fcfs → Calm s
  seated : Seated (board s)

/-- What holds in every orderly run. -/
structure CpuInv (build : Build) (s : Machine n) : Prop extends Wired build s where
  inv : BoardInv build (board s)

section Run

variable {build : Build} {s t : Machine n} {event : CpuEvent n} {act : Act n}

theorem wired_step (wired : Wired build s) (stepped : s.Step build event t) : Wired build t := by
  obtain ⟨act, _, moved⟩ := follows_next wired.calm wired.seated stepped
  refine ⟨fun first => ?_, seated_step wired.seated moved⟩
  subst first
  exact calm_next (wired.calm rfl) stepped

/-- The conditions on the machine make the step of the protocol orderly. -/
theorem orderly_of_step (kept : OrderlyStep s event) (executes : Executes .mlfq s event act) :
    Orderly (board s) act := by
  cases executes with
  | stray c p trap after position current => exact kept.1 (by rw [position]; rfl) current
  | run c p _ _ claimed =>
      exact kept.2 p (claimed.resolve_left nofun)
  | _ => trivial

/-- A step of the machine is an orderly step of the protocol. -/
theorem orderly_next (before : CpuInv build s) (kept : build = .mlfq → OrderlyStep s event)
    (stepped : s.Step build event t) :
    ∃ act, Executes build s event act ∧ BoardStep build (board s) act (board t) ∧ Orderly (board s) act := by
  obtain ⟨act, executes, moved⟩ := follows_next before.calm before.seated stepped
  refine ⟨act, executes, moved, ?_⟩
  by_cases feedback : build = .mlfq
  · subst feedback
    exact orderly_of_step (kept rfl) executes
  · exact orderly_of_inv before.inv moved feedback

theorem cpuInv_step (before : CpuInv build s) (kept : build = .mlfq → OrderlyStep s event)
    (stepped : s.Step build event t) : CpuInv build t := by
  obtain ⟨act, _, moved, orderly⟩ := orderly_next before kept stepped
  exact ⟨wired_step before.toWired stepped, boardInv_step before.inv (harmless_of_orderly orderly) moved⟩

theorem wired_boot (build : Build) (n : Nat) (table cwd : Uint64) :
    Wired build (Machine.boot build n table cwd) where
  calm := fun _ => ⟨fun _ => rfl, fun _ => rfl⟩
  seated := ⟨nofun, fun _ => rfl⟩

theorem boardInv_boot (build : Build) (n : Nat) (table cwd : Uint64) :
    BoardInv build (board (Machine.boot build n table cwd)) where
  toSeated := (wired_boot build n table cwd).seated
  running := nofun
  unique := nofun
  stale := nofun
  held := nofun
  holder := nofun
  newborn := fun p np made => by
    by_cases same : p = initproc <;> simp [board, Machine.boot, same, makes] at made
  midwife := fun p q np made => by
    by_cases same : p = initproc <;> simp [board, Machine.boot, same, makes] at made

variable {table cwd : Uint64} {trace : List (Machine n × CpuEvent n)}

theorem wired_run (run : Run (fun s => s.Step build) (.boot build n table cwd) trace s) :
    Wired build s :=
  run.invariant (fun _ _ => True) (fun _ _ _ _ before stepped => wired_step before stepped)
    (fun _ _ => trivial) (wired_boot build n table cwd)

/-- The invariant holds in every run of the round robin and of the first-come scheduler, and in
every orderly run of the feedback scheduler. -/
theorem cpuInv_run (run : Run (fun s => s.Step build) (.boot build n table cwd) trace s)
    (kept : build = .mlfq → ∀ entry ∈ trace, OrderlyStep entry.1 entry.2) : CpuInv build s :=
  run.invariant (fun s event => build = .mlfq → OrderlyStep s event)
    (fun _ _ _ allowed before stepped => cpuInv_step before allowed stepped)
    (fun entry inside feedback => kept feedback entry inside)
    ⟨wired_boot build n table cwd, boardInv_boot build n table cwd⟩

end Run

/-- Events that are possible and meet a condition form a run that meets it. -/
theorem run_of_events (build : Build) (events : List (CpuEvent n))
    (good : Machine n → CpuEvent n → Prop) [∀ s event, Decidable (good s event)]
    (played : plays (fun s event => Machine.legal build s event && decide (good s event))
      (Machine.after build) (Machine.boot build n 0 0) events = true) :
    ∃ trace, Run (fun s => s.Step build) (.boot build n 0 0) trace (Machine.play build events) ∧
      ∀ entry ∈ trace, good entry.1 entry.2 :=
  ⟨_, run_entries (fun s event possible => Machine.legal_step s event (Bool.and_eq_true_iff.mp possible).1)
    (fun _ _ possible => of_decide_eq_true (Bool.and_eq_true_iff.mp possible).2) played⟩

/-- Possible events reach the state that they compute. -/
theorem reachable_of_events (build : Build) (events : List (CpuEvent n))
    (played : plays (Machine.legal build) (Machine.after build) (Machine.boot build n 0 0) events = true) :
    Reachable (fun s => s.Step build) (.boot build n 0 0) (Machine.play build events) :=
  reachable_of_plays Machine.legal_step played

end Xv6.Cpu
