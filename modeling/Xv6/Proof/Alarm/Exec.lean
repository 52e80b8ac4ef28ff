/-
This file shows when `exec` isolates a new image from the alarm of the old one. `exec` keeps the alarm
settings and the saved frame, so the isolation holds when neither is present at each `exec`.
-/

import Xv6.Proof.Alarm.Reentry

namespace Xv6.Alarm
open TransitionSystem

/-- For each process the number of its image, the images that registered its handler and saved its
frame, and whether its current image has called `sigalarm`. -/
structure Images where
  image : Slot → Nat
  registered : Slot → Nat
  saved : Slot → Nat
  called : Slot → Bool

/-- The images after one event. A new process starts with its first image. -/
def Images.observe (m : Images) (s : AlarmState) : AlarmEvent → Images
  | .tick i _ _ =>
      if diverts (s.proc i) then { m with saved := Function.update m.saved i (m.image i) } else m
  | .sigalarm i _ => { m with
      called := Function.update m.called i true
      registered :=
        if accepted (s.user i) then Function.update m.registered i (m.image i) else m.registered }
  | .exec i _ _ _ _ _ _ _ => { m with
      image := Function.update m.image i (m.image i + 1)
      called := Function.update m.called i false }
  | .fork _ child _ _ =>
      ⟨Function.update m.image child 0, Function.update m.registered child 0,
        Function.update m.saved child 0, Function.update m.called child false⟩
  | _ => m

/-- The machine together with its images. -/
abbrev Imaged := Monitored AlarmState Images

def Imaged.Step (build : Build) : Imaged → AlarmEvent → Imaged → Prop :=
  Monitored.Step (fun s => s.Step build) fun m s event _ => m.observe s event

def Imaged.boot (build : Build) (table cwd : Uint64) : Imaged :=
  ⟨AlarmState.boot build table cwd, ⟨fun _ => 0, fun _ => 0, fun _ => 0, fun _ => false⟩⟩

/-- An image that has not called `sigalarm` is not diverted to a handler of an earlier image, and its
`sigreturn` does not load a frame that an earlier image saved. -/
def Isolated (w : Imaged) : AlarmEvent → Prop
  | .tick i _ _ =>
      diverts (w.sys.proc i) → w.mon.registered i < w.mon.image i → w.mon.called i = true
  | .sigreturn i _ =>
      (w.sys.proc i).trapBackup.isSome → w.mon.saved i < w.mon.image i → w.mon.called i = true
  | _ => True

/-- No alarm is set and no frame is saved. -/
def Unarmed (p : Proc) : Prop := ¬ 0 < p.sigalarmNticks.toInt ∧ p.trapBackup = none

instance (p : Proc) : Decidable (Unarmed p) := inferInstanceAs (Decidable (_ ∧ _))

/-- Each `exec` happens with no alarm set and no frame saved. -/
def ExecUnarmed (s : AlarmState) : AlarmEvent → Prop
  | .exec i _ _ _ _ _ _ _ => Unarmed (s.proc i)
  | _ => True

instance (s : AlarmState) (event : AlarmEvent) : Decidable (ExecUnarmed s event) :=
  match event with
  | .exec i .. => inferInstanceAs (Decidable (Unarmed (s.proc i)))
  | .tick .. | .sigalarm .. | .sigreturn .. | .fork .. | .forkFail .. | .reap .. | .user .. | .clock | .intr .. | .exit ..
  | .other .. => .isTrue trivial

section Step

variable {build : Build} {s t : AlarmState} {event : AlarmEvent} {j : Slot}

theorem Unarmed.not_diverts {p : Proc} (unarmed : Unarmed p) : ¬ diverts p :=
  fun due => unarmed.1 due.1

/-- A trap of one process keeps the others unarmed. -/
theorem unarmed_resume {i : Slot} {entry : KernelEntry} {p : Proc} (unarmed : Unarmed (s.proc j))
    (own : j = i → Unarmed p) : Unarmed ((s.resume i entry p).proc j) := by
  by_cases same : j = i
  · subst same
    rw [resume_self]
    exact own rfl
  · rwa [resume_other s i j entry p same]

theorem unarmed_freeproc (p : Proc) : Unarmed (freeproc build p) := ⟨by simp [freeproc], rfl⟩

theorem unarmed_forkFailed (pid : CInt) (ticks : Uint) (page : Option Trapframe)
    (table : Option Uint64) (p : Proc) : Unarmed (forkFailed build pid ticks page table p) := by
  cases page <;> cases table <;> exact unarmed_freeproc _

theorem unarmed_forked {i child : Slot} {table : Uint64} (unarmed : Unarmed (s.proc child)) :
    Unarmed (s.forked build i child table) := by
  cases build <;> exact ⟨by simp [AlarmState.forked, forkReady, forkParent, forkCopy, allocproc, push],
    unarmed.2⟩

/-- Only `sigalarm` arms a process that is not armed. -/
theorem unarmed_next (moved : s.next build event = some t) (unarmed : Unarmed (s.proc j))
    (uncalled : ∀ entry, event ≠ .sigalarm j entry) : Unarmed (t.proc j) := by
  cases event with
  | user i regs | clock => exact (Option.some.inj moved) ▸ unarmed
  | tick i page entry =>
      obtain ⟨after, ticked, rfl⟩ := Option.map_eq_some_iff.mp moved
      refine unarmed_resume unarmed fun same => ?_
      subst same
      rw [alarmTick_quiet (by simpa using unarmed.not_diverts), Option.some.injEq] at ticked
      exact ticked ▸ unarmed
  | intr i entry | exec i table start sp size argc name entry | other i result entry =>
      exact (Option.some.inj moved) ▸ unarmed_resume unarmed fun same => same ▸ unarmed
  | sigalarm i entry =>
      obtain ⟨result, _, rfl⟩ := Option.map_eq_some_iff.mp moved
      exact unarmed_resume unarmed fun same => absurd (same ▸ rfl) (uncalled entry)
  | sigreturn i entry =>
      obtain ⟨result, called, rfl⟩ := Option.map_eq_some_iff.mp moved
      refine unarmed_resume unarmed fun same => ?_
      subst same
      exact (nomatch (sysSigreturn_none.mpr unarmed.2).symm.trans called)
  | fork i child table entry =>
      rw [← Option.some.inj moved]
      refine unarmed_resume ?_ fun same => same ▸ unarmed
      by_cases born : j = child
      · subst born
        simpa using unarmed_forked unarmed
      · simpa [born] using unarmed
  | forkFail i child page table entry =>
      rw [← Option.some.inj moved]
      refine unarmed_resume ?_ fun same => same ▸ unarmed
      by_cases born : j = child
      · subst born
        simpa using unarmed_forkFailed ..
      · simpa [born] using unarmed
  | exit i status =>
      rw [← Option.some.inj moved]
      by_cases same : j = i
      · subst same
        simpa [exitZombie, exitClose, Unarmed] using unarmed
      · simpa [same] using unarmed
  | reap i child entry =>
      rw [← Option.some.inj moved]
      refine unarmed_resume ?_ fun same => same ▸ unarmed
      by_cases freed : j = child
      · subst freed
        simpa using unarmed_freeproc _
      · simpa [freed] using unarmed

end Step

/-- A process whose image has not called `sigalarm` is unarmed, unless the image is its first. -/
def ImageInv (w : Imaged) : Prop :=
  ∀ i, w.mon.called i = false → 0 < w.mon.image i → Unarmed (w.sys.proc i)

/-- The images of a process change only at its own `sigalarm`, at its `exec` and at its birth. -/
theorem observe_quiet {m : Images} {s : AlarmState} {event : AlarmEvent} {j : Slot}
    (uncalled : (m.observe s event).called j = false) (later : 0 < (m.observe s event).image j) :
    (∀ entry, event ≠ .sigalarm j entry) ∧
      ((m.called j = false ∧ 0 < m.image j) ∨
        ∃ table start sp size argc name entry, event = .exec j table start sp size argc name entry) := by
  cases event with
  | tick i page entry =>
      refine ⟨fun _ => nofun, .inl ?_⟩
      simp only [Images.observe] at uncalled later
      split at uncalled <;> simp_all
  | sigalarm i entry =>
      have other : j ≠ i := by
        rintro rfl
        simp [Images.observe] at uncalled
      refine ⟨fun _ same => other (AlarmEvent.sigalarm.inj same).1.symm, .inl ⟨?_, later⟩⟩
      simpa [Images.observe, other] using uncalled
  | exec i table start sp size argc name entry =>
      refine ⟨fun _ => nofun, ?_⟩
      by_cases same : j = i
      · subst same
        exact .inr ⟨table, start, sp, size, argc, name, entry, rfl⟩
      · exact .inl (by simpa [Images.observe, same] using And.intro uncalled later)
  | fork i child table entry =>
      have other : j ≠ child := by
        rintro rfl
        simp [Images.observe] at later
      exact ⟨fun _ => nofun, .inl (by simpa [Images.observe, other] using And.intro uncalled later)⟩
  | _ => exact ⟨fun _ => nofun, .inl ⟨uncalled, later⟩⟩

theorem imageInv_step {build : Build} {w v : Imaged} {event : AlarmEvent} (inv : ImageInv w)
    (clean : ExecUnarmed w.sys event) (stepped : w.Step build event v) : ImageInv v := by
  intro j uncalled later
  rw [stepped.2] at uncalled later
  obtain ⟨quiet, before⟩ := observe_quiet uncalled later
  refine unarmed_next stepped.1.2 ?_ quiet
  obtain ⟨uncalled, later⟩ | ⟨table, start, sp, size, argc, name, entry, rfl⟩ := before
  · exact inv j uncalled later
  · exact clean

theorem isolated_of_imageInv {w : Imaged} (inv : ImageInv w) (event : AlarmEvent) :
    Isolated w event := by
  cases event with
  | tick i page entry =>
      intro due earlier
      by_contra uncalled
      have unarmed := inv i (by simpa using uncalled) (by omega)
      exact unarmed.not_diverts due
  | sigreturn i entry =>
      intro saved earlier
      by_contra uncalled
      have unarmed := inv i (by simpa using uncalled) (by omega)
      simp [unarmed.2] at saved
  | _ => trivial

/-- In every run in which each `exec` finds no alarm set and no frame saved, no image is diverted to a
handler of an earlier image and no image loads a frame saved by an earlier one. -/
theorem exec_isolates_alarm (build : Build) (table cwd : Uint64) (trace : List (Imaged × AlarmEvent))
    (w : Imaged) (run : Run (Imaged.Step build) (Imaged.boot build table cwd) trace w)
    (clean : ∀ entry ∈ trace, ExecUnarmed entry.1.sys entry.2) (event : AlarmEvent) :
    Isolated w event := by
  have start : ImageInv (Imaged.boot build table cwd) := fun i _ later => absurd later (lt_irrefl 0)
  have inv := run.invariant (fun state label => ExecUnarmed state.sys label)
    (fun _ _ _ unarmed before stepped => imageInv_step before unarmed stepped) clean start
  exact isolated_of_imageInv inv event

/-- A process that is about to call `exec`. -/
def execUser : UserRegs := ⟨0, fun _ => 7⟩

/-- The process calls `exec`. -/
def execCall : List AlarmEvent := [.user 0 execUser, .exec 0 8192 0 4096 8192 1 "sh" anyEntry]

def Imaged.after (build : Build) : Imaged → AlarmEvent → Imaged :=
  Monitored.after (computed fun s => s.next build) fun m s event _ => m.observe s event

def Imaged.play (events : List AlarmEvent) : Imaged := events.foldl (Imaged.after .rr) (Imaged.boot .rr 0 0)

/-- A process sets an alarm, takes it back and calls `exec`. -/
def disarmedExec : List AlarmEvent :=
  alarmSet ++ [.user 0 (alarmUser 0), .sigalarm 0 anyEntry] ++ execCall

/-- The second image starts with the handler of the first one, and its next tick is isolated. -/
theorem exec_isolates_disarmed :
    ((Imaged.play disarmedExec).mon.registered 0 < (Imaged.play disarmedExec).mon.image 0 ∧
        (Imaged.play disarmedExec).mon.called 0 = false) ∧
      Isolated (Imaged.play disarmedExec) (.tick 0 (some junkFrame) anyEntry) := by
  have played : plays (fun w event => legal .rr w.sys event && decide (ExecUnarmed w.sys event)) (Imaged.after .rr)
      (Imaged.boot .rr 0 0) disarmedExec = true := by decide
  obtain ⟨run, clean⟩ := Monitored.run_entries (legal_step .rr) played
  exact ⟨by decide, exec_isolates_alarm .rr 0 0 _ _ run clean _⟩

/-- A process sets a one-tick alarm and calls `exec`. -/
def armedExec : Imaged := .play (alarmSet ++ execCall)

/-- The first tick of the new image enters the handler of the old one. -/
theorem exec_keeps_alarm :
    ∃ trace w event v, Run (Imaged.Step .rr) (Imaged.boot .rr 0 0) trace w ∧
      w.Step .rr event v ∧ (v.sys.user 0).pc = 24 ∧ ¬ Isolated w event := by
  obtain ⟨trace, run⟩ : Reachable (Imaged.Step .rr) (Imaged.boot .rr 0 0) armedExec :=
    Monitored.reachable_of_plays (legal_step .rr) (by decide)
  have tick : armedExec.Step .rr _ _ :=
    Monitored.step_after (legal_step .rr) armedExec (.tick 0 (some junkFrame) anyEntry) (by decide)
  refine ⟨_, _, _, _, run, tick, by decide, fun isolated => ?_⟩
  have called := isolated (by decide) (by decide)
  exact absurd called (by decide)

end Xv6.Alarm
