/-
This file gives labelled transition systems and the induction rules of their runs.
A trace pairs each visited state with the label of the step that left it.
-/

import Mathlib

namespace TransitionSystem

variable {State Label : Type*} {step : State → Label → State → Prop}

/-- A run takes one step for each entry of its trace. -/
inductive Run (step : State → Label → State → Prop) (start : State) :
    List (State × Label) → State → Prop where
  | refl : Run step start [] start
  | tail {trace : List (State × Label)} {state next : State} {label : Label} :
      Run step start trace state → step state label next →
      Run step start (trace ++ [(state, label)]) next

/-- A state is reachable when some run ends in it. -/
def Reachable (step : State → Label → State → Prop) (start state : State) : Prop :=
  ∃ trace, Run step start trace state

/-- One step is a run with a single entry. -/
theorem Run.single {start next : State} {label : Label} (taken : step start label next) :
    Run step start [(start, label)] next :=
  Run.refl.tail taken

/-- Two runs that meet form one run. -/
theorem Run.trans {start middle finish : State} {first second : List (State × Label)}
    (before : Run step start first middle) (after : Run step middle second finish) :
    Run step start (first ++ second) finish := by
  induction after with
  | refl => simpa using before
  | tail _ taken ih =>
      rw [← List.append_assoc]
      exact ih.tail taken

/-- A property of all states of a run holds at its start. -/
theorem Run.at_start {start finish : State} {trace : List (State × Label)}
    (run : Run step start trace finish) (holds : State → Prop) (visited : ∀ entry ∈ trace, holds entry.1)
    (last : holds finish) : holds start := by
  induction run with
  | refl => exact last
  | tail _ _ ih =>
      exact ih (fun entry inside => visited entry (List.mem_append_left _ inside))
        (visited _ (List.mem_append_right _ (List.mem_singleton_self _)))

/-- Each entry of a trace is a step that was taken. -/
theorem Run.taken {start finish : State} {trace : List (State × Label)} (run : Run step start trace finish) :
    ∀ entry ∈ trace, ∃ next, step entry.1 entry.2 next := by
  induction run with
  | refl => exact fun _ inside => absurd inside List.not_mem_nil
  | tail _ taken ih =>
      intro entry inside
      rcases List.mem_append.mp inside with old | new
      · exact ih entry old
      · rw [List.mem_singleton.mp new]
        exact ⟨_, taken⟩

/-- A machine that takes more steps reaches more states. -/
theorem Reachable.mono {more : State → Label → State → Prop} {start state : State}
    (wider : ∀ state label next, step state label next → more state label next)
    (reached : Reachable step start state) : Reachable more start state := by
  obtain ⟨trace, run⟩ := reached
  induction run with
  | refl => exact ⟨[], .refl⟩
  | tail _ taken ih =>
      obtain ⟨trace, run⟩ := ih
      exact ⟨_, run.tail (wider _ _ _ taken)⟩

/-- A list of labels plays when each label is legal in the state that the earlier ones compute. -/
def plays (legal : State → Label → Bool) (next : State → Label → State) :
    State → List Label → Bool
  | _, [] => true
  | state, label :: labels => legal state label && plays legal next (next state label) labels

/-- The states that a list of labels visits, each with its label. -/
def entries (next : State → Label → State) : State → List Label → List (State × Label)
  | _, [] => []
  | state, label :: labels => (state, label) :: entries next (next state label) labels

/-- A list that plays gives the run of the states that it visits, and each entry of the run is good. -/
theorem run_entries {legal : State → Label → Bool} {next : State → Label → State}
    (sound : ∀ state label, legal state label = true → step state label (next state label))
    {good : State → Label → Prop} (fine : ∀ state label, legal state label = true → good state label)
    {labels : List Label} {start : State} (played : plays legal next start labels = true) :
    Run step start (entries next start labels) (labels.foldl next start) ∧
      ∀ entry ∈ entries next start labels, good entry.1 entry.2 := by
  induction labels generalizing start with
  | nil => exact ⟨.refl, fun _ inside => (nomatch inside)⟩
  | cons label labels ih =>
      obtain ⟨first, rest⟩ := Bool.and_eq_true_iff.mp played
      obtain ⟨run, kept⟩ := ih rest
      refine ⟨(Run.single (sound start label first)).trans run, fun entry inside => ?_⟩
      rcases List.mem_cons.mp inside with rfl | later
      · exact fine start label first
      · exact kept entry later

/-- A list that plays reaches the state that it computes. -/
theorem reachable_of_plays {legal : State → Label → Bool} {next : State → Label → State}
    (sound : ∀ state label, legal state label = true → step state label (next state label))
    {labels : List Label} {start : State} (played : plays legal next start labels = true) :
    Reachable step start (labels.foldl next start) :=
  ⟨_, (run_entries sound (fun _ _ _ => trivial) played).1⟩

/-- A state together with the record that a monitor keeps of the steps so far. -/
structure Monitored (State Record : Type*) where
  sys : State
  mon : Record

section Monitored

variable {Record : Type*}

/-- A monitor sees the state before each step, its label and the state after it. -/
def Monitored.Step (step : State → Label → State → Prop) (observe : Record → State → Label → State → Record)
    (w : Monitored State Record) (label : Label) (v : Monitored State Record) : Prop :=
  step w.sys label v.sys ∧ v.mon = observe w.mon w.sys label v.sys

/-- The monitored state after the state that a label computes. -/
def Monitored.after (next : State → Label → State) (observe : Record → State → Label → State → Record)
    (w : Monitored State Record) (label : Label) : Monitored State Record :=
  ⟨next w.sys label, observe w.mon w.sys label (next w.sys label)⟩

variable {legal : State → Label → Bool} {next : State → Label → State}
  {observe : Record → State → Label → State → Record}

theorem Monitored.step_after (sound : ∀ state label, legal state label = true → step state label (next state label))
    (w : Monitored State Record) (label : Label) (fits : legal w.sys label = true) :
    Monitored.Step step observe w label (w.after next observe label) :=
  ⟨sound w.sys label fits, rfl⟩

/-- A list of legal and good labels gives a monitored run of good entries. -/
theorem Monitored.run_entries (sound : ∀ state label, legal state label = true → step state label (next state label))
    {good : Monitored State Record → Label → Prop} [∀ w label, Decidable (good w label)] {labels : List Label}
    {start : Monitored State Record}
    (played : plays (fun w label => legal w.sys label && decide (good w label)) (Monitored.after next observe) start
      labels = true) :
    Run (Monitored.Step step observe) start (entries (Monitored.after next observe) start labels)
        (labels.foldl (Monitored.after next observe) start) ∧
      ∀ entry ∈ entries (Monitored.after next observe) start labels, good entry.1 entry.2 :=
  TransitionSystem.run_entries (fun w label fits => step_after sound w label (Bool.and_eq_true_iff.mp fits).1)
    (fun _ _ fits => of_decide_eq_true (Bool.and_eq_true_iff.mp fits).2) played

/-- A list of legal labels reaches the monitored state that it computes. -/
theorem Monitored.reachable_of_plays
    (sound : ∀ state label, legal state label = true → step state label (next state label)) {labels : List Label}
    {start : Monitored State Record}
    (played : plays (fun w label => legal w.sys label) (Monitored.after next observe) start labels = true) :
    Reachable (Monitored.Step step observe) start (labels.foldl (Monitored.after next observe) start) :=
  TransitionSystem.reachable_of_plays (step_after sound) played

end Monitored

/-- The state that a label computes, or the same state if it computes none. -/
def computed (next : State → Label → Option State) (state : State) (label : Label) : State :=
  (next state label).getD state

theorem next_computed {next : State → Label → Option State} (state : State) (label : Label)
    (computes : (next state label).isSome = true) : next state label = some (computed next state label) := by
  obtain ⟨after, found⟩ := Option.isSome_iff_exists.mp computes
  simp only [computed, found, Option.getD_some]

/-- A list whose labels all compute a state gives the run of the states that it visits. -/
theorem run_computed {next : State → Label → Option State} {labels : List Label} {start : State}
    (played : plays (fun state label => (next state label).isSome) (computed next) start labels = true) :
    Run (fun state label after => next state label = some after) start (entries (computed next) start labels)
      (labels.foldl (computed next) start) :=
  (run_entries next_computed (fun _ _ _ => trivial) played).1

/-- A list whose labels all compute a state and meet a condition gives a run that meets it. -/
theorem run_computed_where {next : State → Label → Option State} {good : State → Label → Prop}
    [∀ state label, Decidable (good state label)] {labels : List Label} {start : State}
    (played : plays (fun state label => (next state label).isSome && decide (good state label)) (computed next) start
      labels = true) :
    Run (fun state label after => next state label = some after) start (entries (computed next) start labels)
        (labels.foldl (computed next) start) ∧
      ∀ entry ∈ entries (computed next) start labels, good entry.1 entry.2 :=
  run_entries (fun state label fits => next_computed state label (Bool.and_eq_true_iff.mp fits).1)
    (fun _ _ fits => of_decide_eq_true (Bool.and_eq_true_iff.mp fits).2) played

theorem mem_entries {next : State → Label → State} {labels : List Label} {start : State}
    {entry : State × Label} (inside : entry ∈ entries next start labels) : entry.2 ∈ labels := by
  induction labels generalizing start with
  | nil => cases inside
  | cons label labels ih =>
      rcases List.mem_cons.mp inside with rfl | later
      · exact List.mem_cons_self
      · exact List.mem_cons_of_mem _ (ih later)

/-- A property of the trace and the state that every allowed step keeps holds after a run of allowed
steps. -/
theorem Run.history {start finish : State} {trace : List (State × Label)}
    {holds : List (State × Label) → State → Prop} (run : Run step start trace finish)
    (allowed : State → Label → Prop)
    (keeps : ∀ trace state label next, allowed state label → holds trace state →
      step state label next → holds (trace ++ [(state, label)]) next)
    (steps : ∀ entry ∈ trace, allowed entry.1 entry.2) (initial : holds [] start) :
    holds trace finish := by
  induction run with
  | refl => exact initial
  | tail _ stepped ih =>
      have before := ih fun entry inside => steps entry (List.mem_append_left _ inside)
      exact keeps _ _ _ _ (steps _ (List.mem_append_right _ (List.mem_singleton_self _))) before stepped

/-- An invariant that every allowed step keeps holds after a run of allowed steps. -/
theorem Run.invariant {start finish : State} {trace : List (State × Label)}
    {holds : State → Prop} (run : Run step start trace finish)
    (allowed : State → Label → Prop)
    (keeps : ∀ state label next, allowed state label → holds state →
      step state label next → holds next)
    (steps : ∀ entry ∈ trace, allowed entry.1 entry.2) (initial : holds start) :
    holds finish :=
  run.history allowed (fun _ => keeps) steps initial

/-- An invariant that every step keeps holds in every reachable state. -/
theorem Reachable.invariant {start state : State} {holds : State → Prop}
    (reached : Reachable step start state)
    (keeps : ∀ state label next, holds state → step state label next → holds next)
    (initial : holds start) : holds state := by
  obtain ⟨trace, run⟩ := reached
  exact run.invariant (fun _ _ => True)
    (fun state label next _ before stepped => keeps state label next before stepped)
    (fun _ _ => trivial) initial

/-- A machine that matches every step of another one has a run with the same labels. -/
theorem Run.simulates {Abstract : Type*} {step' : Abstract → Label → Abstract → Prop} {start finish : State}
    {start' : Abstract} {trace : List (State × Label)} (relates : State → Abstract → Prop)
    (run : Run step start trace finish)
    (matched : ∀ state label next abstract, relates state abstract → step state label next →
      ∃ next', step' abstract label next' ∧ relates next next')
    (initial : relates start start') :
    ∃ trace' finish', Run step' start' trace' finish' ∧ trace'.map Prod.snd = trace.map Prod.snd ∧
      relates finish finish' := by
  induction run with
  | refl => exact ⟨[], start', .refl, rfl, initial⟩
  | tail _ taken ih =>
      obtain ⟨trace', state', run', labels, related⟩ := ih
      obtain ⟨next', taken', related'⟩ := matched _ _ _ _ related taken
      refine ⟨_, next', run'.tail taken', ?_, related'⟩
      rw [List.map_append, List.map_append, labels]
      rfl

end TransitionSystem
