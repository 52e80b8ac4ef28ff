/-
This file follows the scan of the first-come scheduler: which records it has examined, which process it keeps, and
which locks it has released.
-/

import Xv6.Kernel.CpuSystem
import Xv6.Lib.Run
import Xv6.Proof.Fcfs.Safe

namespace Xv6.FirstCome
open Spinlocks TransitionSystem

section Monitor

variable {n : Nat} (c : Fin n)

/-- The records that the scheduler of a CPU has examined in its present scan. -/
def examinedStep (seen : List (Slot × Proc)) (entry : Fcfs n × FcfsEvent n) : List (Slot × Proc) :=
  match entry.2 with
  | .step d =>
      if d = c then match entry.1.pc c with
        | .top => []
        | .examine p _ => seen ++ [(p, entry.1.proc p)]
        | _ => seen
      else seen
  | _ => seen

def examined (trace : List (Fcfs n × FcfsEvent n)) : List (Slot × Proc) := trace.foldl (examinedStep c) []

/-- The processes whose locks the scheduler of a CPU has released in its present scan. -/
def releasedStep (gone : List Slot) (entry : Fcfs n × FcfsEvent n) : List Slot :=
  match entry.2 with
  | .step d =>
      if d = c then match entry.1.pc c with
        | .top => []
        | .handover _ first => gone ++ [first]
        | .drop p _ => gone ++ [p]
        | _ => gone
      else gone
  | _ => gone

def released (trace : List (Fcfs n × FcfsEvent n)) : List Slot := trace.foldl (releasedStep c) []

theorem examined_append (trace : List (Fcfs n × FcfsEvent n)) (entry : Fcfs n × FcfsEvent n) :
    examined c (trace ++ [entry]) = examinedStep c (examined c trace) entry := by
  simp [examined]

theorem released_append (trace : List (Fcfs n × FcfsEvent n)) (entry : Fcfs n × FcfsEvent n) :
    released c (trace ++ [entry]) = releasedStep c (released c trace) entry := by
  simp [released]

end Monitor

section Scan

variable {n : Nat} {s t : Fcfs n} {c : Fin n} {proc : Slot → Proc} {i : Nat} {p : Slot} {first : Option Slot}
  {seen : List (Slot × Proc)} {gone : List Slot}

/-- The candidate of a scan of the slots below `i`: the runnable process with the least creation time, and the least
index of those. -/
structure Scanned (proc : Slot → Proc) (i : Nat) (first : Option Slot) (seen : List (Slot × Proc)) : Prop where
  slots : seen.map Prod.fst = (List.finRange nproc).take i
  empty : first = none → ∀ entry ∈ seen, entry.2.state ≠ .runnable
  found : ∀ f, first = some f → (f, proc f) ∈ seen ∧ (proc f).state = .runnable
  least : ∀ f, first = some f → ∀ entry ∈ seen, entry.2.state = .runnable →
    (proc f).ctime < entry.2.ctime ∨ (proc f).ctime = entry.2.ctime ∧ f ≤ entry.1

/-- Every examined process but the candidate has been released once. -/
def Dropped (i : Nat) (first : Option Slot) (gone : List Slot) : Prop :=
  ∀ j, gone.count j = if j.val < i ∧ first ≠ some j then 1 else 0

theorem take_succ (p : Slot) :
    (List.finRange nproc).take (p.val + 1) = (List.finRange nproc).take p.val ++ [p] := by
  have inside : p.val < (List.finRange nproc).length := by
    rw [List.length_finRange]
    exact p.isLt
  rw [List.take_add_one, List.getElem?_eq_getElem inside, List.getElem_finRange]
  rfl

/-- The scan passes over a process that is not better. -/
theorem Scanned.skip (scanned : Scanned proc p.val first seen)
    (worse : (proc p).state = .runnable → ∃ f, first = some f ∧ ¬ (proc p).ctime < (proc f).ctime) :
    Scanned proc (p.val + 1) first (seen ++ [(p, proc p)]) := by
  refine ⟨?_, ?_, ?_, ?_⟩
  · rw [List.map_append, scanned.slots, take_succ]
    rfl
  · intro none entry inside
    rcases List.mem_append.mp inside with old | new
    · exact scanned.empty none entry old
    · rw [List.mem_singleton.mp new]
      intro ready
      obtain ⟨f, chosen, _⟩ := worse ready
      rw [none] at chosen
      cases chosen
  · intro f chosen
    exact ⟨List.mem_append_left _ (scanned.found f chosen).1, (scanned.found f chosen).2⟩
  · intro f chosen entry inside ready
    rcases List.mem_append.mp inside with old | new
    · exact scanned.least f chosen entry old ready
    · rw [List.mem_singleton.mp new] at ready ⊢
      obtain ⟨g, same, later⟩ := worse ready
      obtain rfl : f = g := Option.some.inj (chosen.symm.trans same)
      have slot : f ∈ (List.finRange nproc).take p.val := by
        rw [← scanned.slots]
        exact List.mem_map_of_mem (scanned.found f chosen).1
      obtain ⟨k, small, here⟩ := List.mem_take_iff_getElem.mp slot
      have index : f.val = k := by
        rw [← here]
        simp
      have below : k < p.val := lt_of_lt_of_le small (min_le_left _ _)
      have order : f ≤ p := by
        rw [Fin.le_def]
        omega
      rcases Nat.lt_or_eq_of_le (BitVec.le_def.mp (BitVec.not_lt.mp later)) with less | same
      · exact .inl (BitVec.lt_def.mpr less)
      · exact .inr ⟨BitVec.eq_of_toNat_eq same, order⟩

/-- The scan takes a better process. -/
theorem Scanned.take (scanned : Scanned proc p.val first seen) (ready : (proc p).state = .runnable)
    (better : ∀ f, first = some f → (proc p).ctime < (proc f).ctime) :
    Scanned proc (p.val + 1) (some p) (seen ++ [(p, proc p)]) := by
  refine ⟨?_, nofun, ?_, ?_⟩
  · rw [List.map_append, scanned.slots, take_succ]
    rfl
  · intro f same
    obtain rfl := Option.some.inj same
    exact ⟨List.mem_append_right _ List.mem_cons_self, ready⟩
  · intro f same entry inside runnable
    obtain rfl := Option.some.inj same
    rcases List.mem_append.mp inside with old | new
    · cases first with
      | none => exact absurd runnable (scanned.empty rfl entry old)
      | some g =>
          have less := better g rfl
          rcases scanned.least g rfl entry old runnable with later | ⟨equal, _⟩
          · exact .inl (BitVec.lt_trans less later)
          · rw [← equal]
            exact .inl less
    · rw [List.mem_singleton.mp new]
      exact .inr ⟨rfl, le_rfl⟩

theorem count_snoc (gone : List Slot) (p j : Slot) :
    (gone ++ [p]).count j = gone.count j + if j = p then 1 else 0 := by
  rw [List.count_append, List.count_singleton]
  by_cases same : j = p
  · simp [same]
  · simp [same, Ne.symm same]

/-- The lock of a process that is not taken is released. -/
theorem Dropped.skip (dropped : Dropped p.val first gone) (other : first ≠ some p) :
    Dropped (p.val + 1) first (gone ++ [p]) := by
  intro j
  rw [count_snoc, dropped j]
  by_cases here : j = p
  · subst here
    simp [other]
  · have apart : j.val ≠ p.val := fun same => here (Fin.ext same)
    have order : j.val < p.val + 1 ↔ j.val < p.val := by omega
    simp [here, order]

/-- The lock of the old candidate is released. -/
theorem Dropped.handover {f : Slot} (dropped : Dropped p.val (some f) gone) (below : f.val < p.val) :
    Dropped (p.val + 1) (some p) (gone ++ [f]) := by
  intro j
  rw [count_snoc, dropped j]
  by_cases here : j = p
  · subst here
    have other : j ≠ f := by
      rintro rfl
      exact lt_irrefl _ below
    simp [other]
  · have apart : j.val ≠ p.val := fun same => here (Fin.ext same)
    have order : j.val < p.val + 1 ↔ j.val < p.val := by omega
    by_cases old : j = f
    · subst old
      simp [order, below, Ne.symm here]
    · simp [order, old, Ne.symm old, Ne.symm here]

/-- The first candidate. -/
theorem Dropped.take (dropped : Dropped p.val none gone) : Dropped (p.val + 1) (some p) gone := by
  intro j
  rw [dropped j]
  by_cases here : j = p
  · subst here
    simp
  · have apart : j.val ≠ p.val := fun same => here (Fin.ext same)
    have order : j.val < p.val + 1 ↔ j.val < p.val := by omega
    simp [order, Ne.symm here]

theorem scanned_nil (proc : Slot → Proc) : Scanned proc 0 none [] :=
  ⟨rfl, fun _ _ inside => absurd inside List.not_mem_nil, nofun, nofun⟩

/-- A scan depends only on the record of its candidate. -/
theorem Scanned.congr {other : Slot → Proc} (scanned : Scanned proc i first seen)
    (same : ∀ f, first = some f → other f = proc f) : Scanned other i first seen := by
  refine ⟨scanned.slots, scanned.empty, fun f chosen => ?_, fun f chosen => ?_⟩
  · rw [same f chosen]
    exact scanned.found f chosen
  · rw [same f chosen]
    exact scanned.least f chosen

/-- What the monitors know at each position of the scheduler. -/
def At (proc : Slot → Proc) (seen : List (Slot × Proc)) (gone : List Slot) : FcfsPc → Prop
  | .scan i first => i ≤ nproc ∧ Scanned proc i first seen ∧ Dropped i first gone
  | .examine p first => Scanned proc p.val first seen ∧ Dropped p.val first gone
  | .handover p f => Scanned proc (p.val + 1) (some p) seen ∧ Dropped p.val (some f) gone
  | .drop p first => Scanned proc (p.val + 1) first seen ∧ Dropped p.val first gone
  | .dispatch p => Scanned proc nproc (some p) seen ∧ Dropped nproc (some p) gone
  | _ => True

/-- The candidate of a position. -/
def candidate : FcfsPc → Option Slot
  | .scan _ first => first
  | .examine _ first => first
  | .handover p _ => some p
  | .drop _ first => first
  | .dispatch p => some p
  | _ => none

theorem candidate_held {pc : FcfsPc} {f : Slot} (chosen : candidate pc = some f) : .proc f ∈ pcHeld pc := by
  cases pc with
  | scan i first => exact mem_firstHeld.mpr chosen
  | examine p first | drop p first => exact List.mem_cons_of_mem _ (mem_firstHeld.mpr chosen)
  | handover p first | dispatch p =>
      obtain rfl := Option.some.inj chosen
      exact List.mem_cons_self
  | _ => cases chosen

theorem At.congr {other : Slot → Proc} {pc : FcfsPc} (known : At proc seen gone pc)
    (same : ∀ f, candidate pc = some f → other f = proc f) : At other seen gone pc := by
  cases pc with
  | scan i first => exact ⟨known.1, known.2.1.congr same, known.2.2⟩
  | examine p first | handover p first | drop p first | dispatch p => exact ⟨known.1.congr same, known.2⟩
  | _ => trivial

theorem acquireTo_ok {lk : KLock} {pc : FcfsPc} (done : s.acquireTo c lk pc = some (.ok t)) :
    ∃ locks, t = (s.setLocks locks).setPc c pc := by
  obtain ⟨inner, _, mapped⟩ := Option.map_eq_some_iff.mp done
  cases inner with
  | error panic => cases mapped
  | ok locks =>
      injection mapped with same
      exact ⟨locks, same.symm⟩

theorem releaseTo_ok {lk : KLock} {pc : FcfsPc} (done : s.releaseTo c lk pc = .ok t) :
    ∃ locks, t = (s.setLocks locks).setPc c pc := by
  unfold Fcfs.releaseTo at done
  cases released : s.locks.release c lk with
  | error panic =>
      rw [released] at done
      cases done
  | ok locks =>
      rw [released] at done
      injection done with same
      exact ⟨locks, same.symm⟩

/-- A section that only moves the CPU. -/
theorem At.move {locks : Spinlocks n KLock} {pc : FcfsPc} (known : At s.proc seen gone pc) :
    At ((s.setLocks locks).setPc c pc).proc seen gone (((s.setLocks locks).setPc c pc).pc c) := by
  have here : ((s.setLocks locks).setPc c pc).pc c = pc := by simp [Fcfs.setPc]
  rw [here]
  exact known

theorem examinedStep_examine (position : s.pc c = .examine p first) :
    examinedStep c seen (s, .step c) = seen ++ [(p, s.proc p)] := by
  unfold examinedStep
  dsimp only
  rw [if_pos rfl, position]

/-- A process that takes its new state enters `sched`. -/
theorem at_leaving {locks : Spinlocks n KLock} {how : Departure} {record : Proc} :
    At (((s.setLocks locks).setPc c (.run p (.inSched how))).setProc p record).proc seen gone
      ((((s.setLocks locks).setPc c (.run p (.inSched how))).setProc p record).pc c) := by
  have here : (((s.setLocks locks).setPc c (.run p (.inSched how))).setProc p record).pc c = .run p (.inSched how) := by
    simp [Fcfs.setPc, Fcfs.setProc]
  rw [here]
  trivial

/-- The scheduler prefers a process to its candidate as in the machine of the CPUs. -/
theorem examine_prefers (m : Machine n) (same : m.proc = s.proc) : (s.examine c p first).pc c =
    if m.prefers first p then first.elim (.scan (p.val + 1) (some p)) (.handover p) else .drop p first := by
  unfold Fcfs.examine
  by_cases ready : (s.proc p).state = .runnable
  · cases first with
    | none => simp [ready, Fcfs.setPc, Machine.prefers, same]
    | some f =>
        by_cases older : (s.proc p).ctime < (s.proc f).ctime <;>
          simp [ready, older, Fcfs.setPc, Machine.prefers, same]
  · simp [ready, Fcfs.setPc, Machine.prefers, same]

/-- The test of one process. -/
theorem at_examine (known : At s.proc seen gone (.examine p first)) :
    At (s.examine c p first).proc (seen ++ [(p, s.proc p)]) gone ((s.examine c p first).pc c) := by
  obtain ⟨scanned, dropped⟩ := known
  have inside : p.val + 1 ≤ nproc := p.isLt
  unfold Fcfs.examine
  split_ifs with ready
  · cases first with
    | none => exact At.move ⟨inside, scanned.take ready nofun, dropped.take⟩
    | some f =>
        dsimp only
        split_ifs with better
        · refine At.move ⟨scanned.take ready fun g same => ?_, dropped⟩
          obtain rfl := Option.some.inj same
          exact better
        · exact At.move ⟨scanned.skip fun _ => ⟨f, rfl, better⟩, dropped⟩
  · exact At.move ⟨scanned.skip fun runnable => absurd runnable ready, dropped⟩

/-- A section of a process. -/
theorem at_run {code : Code} (position : s.pc c = .run p code) (done : s.sectionStep c = some (.ok t)) :
    At t.proc seen gone (t.pc c) := by
  unfold Fcfs.sectionStep at done
  rw [position] at done
  cases code with
  | resumed =>
      have resumed : s.resume c p = .ok t := Option.some.inj done
      unfold Fcfs.resume at resumed
      cases saved : s.saved p with
      | none | some how =>
          rw [saved] at resumed
          obtain ⟨locks, rfl⟩ := releaseTo_ok resumed
          exact At.move trivial
  | reacquire lk =>
      obtain ⟨locks, rfl⟩ := acquireTo_ok done
      exact At.move trivial
  | work list => cases done
  | parting lk how =>
      have parted := Option.some.inj done
      cases released : s.releaseTo c lk (.run p (.inSched how)) with
      | error panic =>
          rw [released] at parted
          cases parted
      | ok u =>
          obtain ⟨locks, rfl⟩ := releaseTo_ok released
          rw [released] at parted
          injection parted with same
          subst same
          exact at_leaving
  | inSched how =>
      have left : s.sched c p how = .ok t := Option.some.inj done
      unfold Fcfs.sched at left
      split_ifs at left <;>
      · injection left with same
        subst same
        exact At.move trivial

/-- A section of the scheduler keeps what the monitors know. -/
theorem at_section (good : Good s c) (done : s.sectionStep c = some (.ok t)) (known : At s.proc seen gone (s.pc c)) :
    At t.proc (examinedStep c seen (s, .step c)) (releasedStep c gone (s, .step c)) (t.pc c) := by
  have ordered := good.ordered
  unfold Fcfs.sectionStep at done
  cases position : s.pc c with
  | top =>
      rw [position] at done
      injection done with same
      injection same with same
      subst same
      have seen' : examinedStep c seen (s, .step c) = [] := by
        simp only [examinedStep, position, if_true]
      have gone' : releasedStep c gone (s, .step c) = [] := by
        simp only [releasedStep, position, if_true]
      rw [seen', gone']
      refine At.move ⟨Nat.zero_le _, scanned_nil _, fun j => ?_⟩
      rw [if_neg fun both => Nat.not_lt_zero _ both.1]
      rfl
  | scan i first =>
      rw [position] at done known
      have seen' : examinedStep c seen (s, .step c) = seen := by
        simp only [examinedStep, position, if_true]
      have gone' : releasedStep c gone (s, .step c) = gone := by
        simp only [releasedStep, position, if_true]
      rw [seen', gone']
      dsimp only at done
      split_ifs at done with inside
      · obtain ⟨locks, rfl⟩ := acquireTo_ok done
        exact At.move known.2
      · have all : i = nproc := le_antisymm known.1 (not_lt.mp inside)
        rw [all] at known
        cases first with
        | none =>
            injection done with same
            injection same with same
            subst same
            exact At.move trivial
        | some p =>
            injection done with same
            injection same with same
            subst same
            exact At.move known.2
  | examine p first =>
      rw [position] at done known
      injection done with same
      injection same with same
      subst same
      have gone' : releasedStep c gone (s, .step c) = gone := by
        simp only [releasedStep, position, if_true]
      rw [examinedStep_examine position, gone']
      exact at_examine known
  | handover p first =>
      rw [position] at done known ordered
      obtain ⟨locks, rfl⟩ := releaseTo_ok (Option.some.inj done)
      have seen' : examinedStep c seen (s, .step c) = seen := by
        simp only [examinedStep, position, if_true]
      have gone' : releasedStep c gone (s, .step c) = gone ++ [first] := by
        simp only [releasedStep, position, if_true]
      rw [seen', gone']
      exact At.move ⟨p.isLt, known.1, known.2.handover ordered⟩
  | drop p first =>
      rw [position] at done known ordered
      obtain ⟨locks, rfl⟩ := releaseTo_ok (Option.some.inj done)
      have seen' : examinedStep c seen (s, .step c) = seen := by
        simp only [examinedStep, position, if_true]
      have gone' : releasedStep c gone (s, .step c) = gone ++ [p] := by
        simp only [releasedStep, position, if_true]
      have other : first ≠ some p := fun same => lt_irrefl _ (ordered p same)
      rw [seen', gone']
      exact At.move ⟨p.isLt, known.1, known.2.skip other⟩
  | dispatch p =>
      rw [position] at done
      injection done with same
      injection same with same
      subst same
      have here : (((s.setSie c false).setProc p { s.proc p with state := .running }).setPc c
        (.run p .resumed)).pc c = .run p .resumed := by simp [Fcfs.setPc]
      rw [here]
      trivial
  | back p =>
      rw [position] at done
      obtain ⟨locks, rfl⟩ := releaseTo_ok (Option.some.inj done)
      exact At.move trivial
  | run p code => exact at_run position done

theorem at_setWork {locks : Spinlocks n KLock} {list : List KLock} (known : At s.proc seen gone (s.pc c)) :
    At ((s.setLocks locks).setWork c list).proc seen gone (((s.setLocks locks).setWork c list).pc c) := by
  unfold Fcfs.setWork
  split
  · exact At.move trivial
  · exact known

/-- The record that a handler or a process changes is not the candidate. -/
theorem at_store (good : Good s c) {mine : List KLock} {j : Slot} {record : Proc} (working : s.workList c = some mine)
    (known : At s.proc seen gone (s.pc c)) : At (s.setProc j record).proc seen gone (s.pc c) := by
  cases busy : s.handler c with
  | some list =>
      apply known.congr
      intro f chosen
      have inside := candidate_held chosen
      rw [good.quiet list busy] at inside
      cases inside
  | none =>
      unfold Fcfs.workList at working
      rw [busy] at working
      cases position : s.pc c with
      | run p code => trivial
      | _ =>
          rw [position] at working
          cases working

theorem at_depart {how : Departure} (done : s.depart c how = some (.ok t)) : At t.proc seen gone (t.pc c) := by
  unfold Fcfs.depart at done
  split at done
  · split_ifs at done
    split at done
    · obtain ⟨locks, rfl⟩ := acquireTo_ok done
      exact At.move trivial
    · obtain ⟨inner, acquired, mapped⟩ := Option.map_eq_some_iff.mp done
      cases inner with
      | error panic => cases mapped
      | ok u =>
          obtain ⟨locks, rfl⟩ := acquireTo_ok acquired
          injection mapped with same
          subst same
          exact at_leaving
  · cases done

/-- An event of the CPU that is not a section of it. -/
theorem at_event {event : FcfsEvent n} (good : Good s c) (stepped : s.Step event t) (mine : cpuOf event = c)
    (other : event ≠ .step c) (known : At s.proc seen gone (s.pc c)) : At t.proc seen gone (t.pc c) := by
  subst mine
  unfold Fcfs.Step at stepped
  cases event with
  | step d => exact absurd rfl other
  | interrupt d | iret d | intr d on =>
      simp only [Fcfs.next] at stepped
      split_ifs at stepped
      injection stepped with same
      injection same with same
      subst same
      exact known
  | acquire d lk =>
      obtain ⟨list, _, inner⟩ := Option.bind_eq_some_iff.mp stepped
      split_ifs at inner
      obtain ⟨outcome, _, mapped⟩ := Option.map_eq_some_iff.mp inner
      cases outcome with
      | error panic => cases mapped
      | ok locks =>
          injection mapped with same
          subst same
          exact at_setWork known
  | release d lk =>
      obtain ⟨list, _, inner⟩ := Option.bind_eq_some_iff.mp stepped
      split_ifs at inner
      have released := Option.some.inj inner
      cases outcome : s.locks.release d lk with
      | error panic =>
          rw [outcome] at released
          cases released
      | ok locks =>
          rw [outcome] at released
          injection released with same
          subst same
          exact at_setWork known
  | store d j record =>
      obtain ⟨list, working, inner⟩ := Option.bind_eq_some_iff.mp stepped
      split_ifs at inner
      injection inner with same
      injection same with same
      subst same
      exact at_store good working known
  | depart d how => exact at_depart stepped

theorem examinedStep_skip {event : FcfsEvent n} (other : event ≠ .step c) :
    examinedStep c seen (s, event) = seen := by
  cases event with
  | step d =>
      have apart : d ≠ c := fun same => other (by rw [same])
      exact if_neg apart
  | _ => rfl

theorem releasedStep_skip {event : FcfsEvent n} (other : event ≠ .step c) :
    releasedStep c gone (s, event) = gone := by
  cases event with
  | step d =>
      have apart : d ≠ c := fun same => other (by rw [same])
      exact if_neg apart
  | _ => rfl

/-- Every event keeps what the monitors know of each CPU. -/
theorem at_step {event : FcfsEvent n} (good : ∀ d, Good s d) (stepped : s.Step event t)
    (known : At s.proc seen gone (s.pc c)) :
    At t.proc (examinedStep c seen (s, event)) (releasedStep c gone (s, event)) (t.pc c) := by
  by_cases steps : event = .step c
  · subst steps
    have done : (if s.handler c = none then s.sectionStep c else none) = some (.ok t) := stepped
    split_ifs at done
    exact at_section (good c) done known
  rw [examinedStep_skip steps, releasedStep_skip steps]
  by_cases mine : cpuOf event = c
  · exact at_event (good c) stepped mine steps known
  · obtain ⟨frame, after⟩ := good_step good stepped
    rw [frame.pc c (Ne.symm mine)]
    apply known.congr
    intro f chosen
    exact frame.kept (good _) (after _) (Ne.symm mine) (good c) ((good c).pc_held (candidate_held chosen))

/-- All CPUs are good and their monitors are right, in every run. -/
theorem run_at {start : Fcfs n} {trace : List (Fcfs n × FcfsEvent n)} (fresh : start.Fresh)
    (run : Run Fcfs.Step start trace s) :
    (∀ c, Good s c) ∧ ∀ c, At s.proc (examined c trace) (released c trace) (s.pc c) := by
  have keeps (trace : List (Fcfs n × FcfsEvent n)) (s : Fcfs n) (event : FcfsEvent n) (t : Fcfs n) (_ : True)
      (before : (∀ c, Good s c) ∧ ∀ c, At s.proc (examined c trace) (released c trace) (s.pc c))
      (stepped : s.Step event t) : (∀ c, Good t c) ∧
        ∀ c, At t.proc (examined c (trace ++ [(s, event)])) (released c (trace ++ [(s, event)])) (t.pc c) := by
    refine ⟨(good_step before.1 stepped).2, fun c => ?_⟩
    rw [examined_append, released_append]
    exact at_step before.1 stepped (before.2 c)
  refine run.history (fun _ _ => True) keeps (fun _ _ => trivial) ⟨good_fresh fresh, fun c => ?_⟩
  rw [fresh.pc c]
  trivial

/-- The end of a scan with the process that the scheduler has chosen. -/
structure ScanEnds (s : Fcfs n) (c : Fin n) (trace : List (Fcfs n × FcfsEvent n)) (chosen : Option Slot) : Prop where
  every : (examined c trace).map Prod.fst = List.finRange nproc
  holds : ∀ lk, s.locks.holder lk = some c ↔ ∃ p, chosen = some p ∧ lk = .proc p
  noff : (s.locks.off c).noff = chosen.toList.length
  empty : chosen = none → ∀ entry ∈ examined c trace, entry.2.state ≠ .runnable
  found : ∀ p, chosen = some p → (p, s.proc p) ∈ examined c trace ∧ (s.proc p).state = .runnable
  least : ∀ p, chosen = some p → ∀ entry ∈ examined c trace, entry.2.state = .runnable →
    (s.proc p).ctime < entry.2.ctime ∨ (s.proc p).ctime = entry.2.ctime ∧ p ≤ entry.1
  released : ∀ j, (released c trace).count j = if chosen = some j then 0 else 1

theorem scanEnds {trace : List (Fcfs n × FcfsEvent n)} (owns : Owns s.locks c (firstHeld first))
    (scanned : Scanned s.proc nproc first (examined c trace)) (dropped : Dropped nproc first (released c trace)) :
    ScanEnds s c trace first := by
  refine ⟨?_, fun lk => ?_, ?_, scanned.empty, scanned.found, scanned.least, fun j => ?_⟩
  · rw [scanned.slots]
    exact List.take_of_length_le (by rw [List.length_finRange])
  · rw [owns.holder]
    simp [firstHeld, eq_comm]
  · rw [owns.noff]
    simp [firstHeld]
  · rw [dropped j]
    by_cases mine : first = some j
    · simp [mine]
    · simp [mine, j.isLt]

/-- From any process table, in every run of the first-come schedulers, at the end of a scan the CPU holds exactly the
lock of the process that it has chosen, which is the first created of the processes found runnable. All other locks of
the scan have been released once, `noff` is 1 at each switch, and no panic can occur. -/
theorem fcfs_pass {start : Fcfs n} {trace : List (Fcfs n × FcfsEvent n)} (fresh : start.Fresh)
    (run : Run Fcfs.Step start trace s) :
    (∀ c first, s.handler c = none → s.pc c = .scan nproc first → ScanEnds s c trace first) ∧
    (∀ c p, s.pc c = .dispatch p → ScanEnds s c trace (some p)) ∧
    (∀ c p how, s.pc c = .run p (.inSched how) → (s.locks.off c).noff = 1) ∧
    ∀ event panic, ¬ s.Panics event panic := by
  obtain ⟨good, known⟩ := run_at fresh run
  refine ⟨?_, ?_, ?_, ?_⟩
  · intro c first free position
    have owns := (good c).section free
    have here := known c
    rw [position] at owns here
    exact scanEnds owns here.2.1 here.2.2
  · intro c p position
    have here := known c
    have busy : pcHeld (s.pc c) = [.proc p] := by
      rw [position]
      rfl
    have owns := (good c).section ((good c).free (by rw [busy]; exact List.cons_ne_nil _ _))
    rw [position] at owns here
    exact scanEnds owns here.1 here.2
  · intro c p how position
    have busy : pcHeld (s.pc c) = [.proc p] := by
      rw [position]
      rfl
    have owns := (good c).section ((good c).free (by rw [busy]; exact List.cons_ne_nil _ _))
    rw [busy] at owns
    exact owns.noff
  · intro event panic panics
    obtain ⟨t, result, _⟩ := fine_next (good (cpuOf event)) panics
    cases result

end Scan

section OnePass

/-- The state after an event, or the same state if the event does not fit. -/
def after {n : Nat} (s : Fcfs n) (event : FcfsEvent n) : Fcfs n :=
  match s.next event with
  | some (.ok t) => t
  | _ => s

def possible {n : Nat} (s : Fcfs n) (event : FcfsEvent n) : Bool :=
  match s.next event with
  | some (.ok _) => true
  | _ => false

theorem step_after {n : Nat} (s : Fcfs n) (event : FcfsEvent n) (fits : possible s event = true) :
    s.Step event (after s event) := by
  unfold possible at fits
  unfold Fcfs.Step after
  split at fits
  · assumption
  · cases fits

/-- One CPU, and two runnable processes of which the one in the later slot was created first. -/
def twoReady : Fcfs 1 where
  proc i := if i.val = 2 then { Proc.zero with state := .runnable, ctime := 9 }
    else if i.val = 5 then { Proc.zero with state := .runnable, ctime := 4 } else Proc.zero
  locks := ⟨fun _ => none, fun _ => ⟨false, 0, false⟩⟩
  pc _ := .top
  handler _ := none
  saved _ := none

/-- The sections of one scan: the two candidates, one handover and 62 drops. -/
def oneScan : List (FcfsEvent 1) := List.replicate 192 (.step 0)

theorem twoReady_fresh : twoReady.Fresh := ⟨fun _ => rfl, fun _ => rfl, fun _ => rfl, fun _ => rfl⟩

theorem oneScan_plays : plays possible after twoReady oneScan = true := by
  decide +kernel

theorem oneScan_end : (oneScan.foldl after twoReady).pc 0 = .scan nproc (some 5) := by
  decide +kernel

theorem oneScan_handler : (oneScan.foldl after twoReady).handler 0 = none := by
  decide +kernel

/-- The scan of `twoReady` ends with the process that was created first. -/
theorem fcfs_pass_oldest : twoReady.Fresh ∧ ∃ trace s, Run Fcfs.Step twoReady trace s ∧
    s.pc 0 = .scan nproc (some 5) ∧ ScanEnds s 0 trace (some 5) := by
  obtain ⟨run, _⟩ := run_entries step_after (fun _ _ _ => trivial) oneScan_plays
  have ends := (fcfs_pass twoReady_fresh run).1 0 (some 5) oneScan_handler oneScan_end
  exact ⟨twoReady_fresh, _, _, run, oneScan_end, ends⟩

end OnePass

end Xv6.FirstCome
