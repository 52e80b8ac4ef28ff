/-
This file shows that no CPU of the first-come scheduler panics: each CPU holds exactly the locks that its code
position names.
-/

import Xv6.Kernel.Fcfs
import Xv6.Proof.Fcfs.Owns

namespace Xv6.FirstCome
open Spinlocks

variable {n : Nat} {s t : Fcfs n} {c d : Fin n}

/-- The locks that the code of a process holds. -/
def codeHeld (p : Slot) : Code → List KLock
  | .resumed => [.proc p]
  | .reacquire _ => []
  | .work held => held
  | .parting lk _ => [.proc p, lk]
  | .inSched _ => [.proc p]

/-- The lock of the candidate of a scan. -/
def firstHeld (first : Option Slot) : List KLock := first.toList.map .proc

/-- The locks that a section of a CPU holds. -/
def pcHeld : FcfsPc → List KLock
  | .top => []
  | .scan _ first => firstHeld first
  | .examine p first => .proc p :: firstHeld first
  | .handover p first => [.proc p, .proc first]
  | .drop p first => .proc p :: firstHeld first
  | .dispatch p => [.proc p]
  | .run p code => codeHeld p code
  | .back p => [.proc p]

/-- The locks of a CPU. -/
def held (s : Fcfs n) (c : Fin n) : List KLock := (s.handler c).getD (pcHeld (s.pc c))

/-- The candidate of a scan comes before the slots that are still to be examined. -/
def Ordered : FcfsPc → Prop
  | .scan i first => ∀ f ∈ first, f.val < i
  | .examine p first => ∀ f ∈ first, f.val < p.val
  | .handover p first => first.val < p.val
  | .drop p first => ∀ f ∈ first, f.val < p.val
  | _ => True

/-- What holds of one CPU: it holds the locks of its code, an interrupt comes only without locks, and a process in
`sched` is not running. -/
structure Good (s : Fcfs n) (c : Fin n) : Prop where
  owns : Owns s.locks c (held s c)
  quiet : ∀ locks, s.handler c = some locks → pcHeld (s.pc c) = []
  calm : ∀ p how, s.pc c = .run p (.inSched how) → (s.proc p).state ≠ .running
  ordered : Ordered (s.pc c)

/-- What an operation of a CPU leaves as it was: the code and the locks of the other CPUs, and every record whose lock
the CPU does not hold. -/
structure Frame (s : Fcfs n) (c : Fin n) (t : Fcfs n) : Prop where
  pc : ∀ d, d ≠ c → t.pc d = s.pc d
  handler : ∀ d, d ≠ c → t.handler d = s.handler d
  owns : ∀ d locks, d ≠ c → Owns s.locks d locks → Owns t.locks d locks
  proc : ∀ j, t.proc j = s.proc j ∨ .proc j ∈ held s c ∨ .proc j ∈ held t c

/-- The CPU of an event. -/
def cpuOf : FcfsEvent n → Fin n
  | .step c | .interrupt c | .iret c | .acquire c _ | .release c _ | .store c _ _ | .depart c _ | .intr c _ => c

theorem Owns.disjoint {lk : KLock} {mine others : List KLock} (owns : Owns s.locks c mine) (owns' : Owns s.locks d others)
    (apart : d ≠ c) (inside : lk ∈ mine) : lk ∉ others := by
  intro inside'
  have first := (owns.holder lk).mpr inside
  have second := (owns'.holder lk).mpr inside'
  exact apart (Option.some.inj (second.symm.trans first))

/-- The locks of the code of a CPU, in its handler or not. -/
theorem Good.pc_held (good : Good s c) {lk : KLock} (inside : lk ∈ pcHeld (s.pc c)) : lk ∈ held s c := by
  unfold held
  cases busy : s.handler c with
  | none => exact inside
  | some locks =>
      rw [good.quiet locks busy] at inside
      cases inside

/-- A CPU whose code holds a lock runs no handler. -/
theorem Good.free (good : Good s c) (busy : pcHeld (s.pc c) ≠ []) : s.handler c = none := by
  cases handler : s.handler c with
  | none => rfl
  | some locks => exact absurd (good.quiet locks handler) busy

/-- A CPU keeps the record of a process that another CPU has locked. -/
theorem Frame.kept (frame : Frame s c t) (before : Good s c) (after : Good t c) (apart : d ≠ c) (good : Good s d)
    {p : Slot} (mine : .proc p ∈ held s d) : t.proc p = s.proc p := by
  rcases frame.proc p with kept | old | new
  · exact kept
  · exact absurd mine (Owns.disjoint before.owns good.owns apart old)
  · exact absurd mine (Owns.disjoint after.owns (frame.owns d _ apart good.owns) apart new)

/-- The other CPUs stay good. -/
theorem Frame.good (frame : Frame s c t) (before : Good s c) (after : Good t c) (apart : d ≠ c) (good : Good s d) :
    Good t d := by
  have same : held t d = held s d := by
    unfold held
    rw [frame.pc d apart, frame.handler d apart]
  have owns : Owns t.locks d (held s d) := frame.owns d _ apart good.owns
  refine ⟨by rw [same]; exact owns, ?_, ?_, ?_⟩
  · rw [frame.pc d apart, frame.handler d apart]
    exact good.quiet
  · intro p how departs
    rw [frame.pc d apart] at departs
    have mine : .proc p ∈ held s d := by
      apply good.pc_held
      rw [departs]
      exact List.mem_cons_self
    rw [frame.kept before after apart good mine]
    exact good.calm p how departs
  · rw [frame.pc d apart]
    exact good.ordered

section Sections

variable {locks : Spinlocks n KLock} {pc : FcfsPc} {lk : KLock} {mine : List KLock}

/-- The locks of the other CPUs are as before. -/
def Apart (before after : Spinlocks n KLock) (c : Fin n) : Prop :=
  ∀ d held, d ≠ c → Owns before d held → Owns after d held

theorem Apart.refl : Apart locks locks c := fun _ _ _ owns => owns

theorem apart_setOff (off : CpuOff) : Apart locks (locks.setOff c off) c :=
  fun _ _ apart owns => owns.setOff_other apart off

theorem Apart.trans {middle after : Spinlocks n KLock} (first : Apart locks middle c) (second : Apart middle after c) :
    Apart locks after c :=
  fun d held apart owns => second d held apart (first d held apart owns)

/-- A CPU at a new section with its locks. -/
theorem good_section (free : s.handler c = none) (owns : Owns locks c (pcHeld pc)) (ordered : Ordered pc)
    (calm : ∀ p how, pc = .run p (.inSched how) → (s.proc p).state ≠ .running) :
    Good ((s.setLocks locks).setPc c pc) c := by
  have here : ((s.setLocks locks).setPc c pc).pc c = pc := by simp [Fcfs.setPc]
  have idle : ((s.setLocks locks).setPc c pc).handler c = none := free
  refine ⟨?_, ?_, ?_, ?_⟩
  · unfold held
    rw [here, idle]
    exact owns
  · intro locks busy
    rw [idle] at busy
    cases busy
  · intro p how there
    rw [here] at there
    exact calm p how there
  · rw [here]
    exact ordered

theorem frame_section (apart : Apart s.locks locks c) : Frame s c ((s.setLocks locks).setPc c pc) :=
  ⟨fun _ other => Function.update_of_ne other _ _, fun _ _ => rfl, apart, fun _ => .inl rfl⟩

/-- A section without a change of the locks. -/
theorem section_same (pc : FcfsPc) (good : Good s c) (free : s.handler c = none) (same : pcHeld pc = pcHeld (s.pc c))
    (ordered : Ordered pc) (calm : ∀ p how, pc = .run p (.inSched how) → (s.proc p).state ≠ .running) :
    Frame s c (s.setPc c pc) ∧ Good (s.setPc c pc) c := by
  have owns := good.owns
  unfold held at owns
  rw [free, Option.getD_none, ← same] at owns
  exact ⟨frame_section .refl, good_section free owns ordered calm⟩

theorem acquireTo_cases (owns : Owns s.locks c mine) (absent : lk ∉ mine) {result : Except LockPanic (Fcfs n)}
    (done : s.acquireTo c lk pc = some result) :
    ∃ locks, result = .ok ((s.setLocks locks).setPc c pc) ∧ Owns locks c (lk :: mine) ∧ Apart s.locks locks c := by
  unfold Fcfs.acquireTo at done
  obtain ⟨inner, acquired, rfl⟩ := Option.map_eq_some_iff.mp done
  obtain ⟨locks, rfl, taken, others⟩ := acquire_cases owns absent acquired
  exact ⟨locks, rfl, taken, others⟩

theorem releaseTo_cases (pc : FcfsPc) (owns : Owns s.locks c mine) (inside : lk ∈ mine) :
    ∃ locks, s.releaseTo c lk pc = .ok ((s.setLocks locks).setPc c pc) ∧ Owns locks c (mine.erase lk) ∧
      Apart s.locks locks c := by
  obtain ⟨locks, released, left, others⟩ := release_ok owns inside
  refine ⟨locks, ?_, left, others⟩
  unfold Fcfs.releaseTo
  rw [released]
  rfl

/-- The result of an event that keeps the machine good. -/
def Fine (s : Fcfs n) (c : Fin n) (result : Except LockPanic (Fcfs n)) : Prop :=
  ∃ t, result = .ok t ∧ Frame s c t ∧ Good t c

/-- The release of a lock at the end of a section. -/
theorem fine_release (good : Good s c) (free : s.handler c = none) (inside : lk ∈ pcHeld (s.pc c))
    (left : (pcHeld (s.pc c)).erase lk = pcHeld pc) (ordered : Ordered pc)
    (calm : ∀ p how, pc = .run p (.inSched how) → (s.proc p).state ≠ .running) :
    Fine s c (s.releaseTo c lk pc) := by
  have owns := good.owns
  unfold held at owns
  rw [free, Option.getD_none] at owns
  obtain ⟨locks, released, rest, others⟩ := releaseTo_cases pc owns inside
  rw [left] at rest
  exact ⟨_, released, frame_section others, good_section free rest ordered calm⟩

/-- The acquisition of a lock at the start of a section. -/
theorem fine_acquire (good : Good s c) (free : s.handler c = none) {result : Except LockPanic (Fcfs n)}
    (done : s.acquireTo c lk pc = some result) (absent : lk ∉ pcHeld (s.pc c))
    (taken : pcHeld pc = lk :: pcHeld (s.pc c)) (ordered : Ordered pc)
    (calm : ∀ p how, pc = .run p (.inSched how) → (s.proc p).state ≠ .running) : Fine s c result := by
  have owns := good.owns
  unfold held at owns
  rw [free, Option.getD_none] at owns
  obtain ⟨locks, rfl, more, others⟩ := acquireTo_cases owns absent done
  rw [← taken] at more
  exact ⟨_, rfl, frame_section others, good_section free more ordered calm⟩

theorem mem_firstHeld {first : Option Slot} {j : Slot} : .proc j ∈ firstHeld first ↔ first = some j := by
  cases first with
  | none => simp [firstHeld]
  | some f => simp [firstHeld, eq_comm]

/-- One section of the scheduler. -/
theorem fine_examine (good : Good s c) (free : s.handler c = none) {p : Slot} {first : Option Slot}
    (position : s.pc c = .examine p first) : Fine s c (.ok (s.examine c p first)) := by
  have ordered := good.ordered
  rw [position] at ordered
  have next {pc : FcfsPc} (same : pcHeld pc = pcHeld (.examine p first)) (order : Ordered pc)
      (other : ∀ p how, pc ≠ .run p (.inSched how)) : Fine s c (.ok (s.setPc c pc)) :=
    ⟨_, rfl, section_same _ good free (by rw [position]; exact same) order fun p how there => absurd there (other p how)⟩
  unfold Fcfs.examine
  split_ifs with ready
  · cases first with
    | none =>
        refine next rfl ?_ nofun
        intro f found
        obtain rfl := Option.some.inj found
        exact Nat.lt_succ_self _
    | some f =>
        dsimp only
        split_ifs
        · exact next rfl (ordered f rfl) nofun
        · exact next rfl ordered nofun
  · exact next rfl ordered nofun

/-- The locks of a CPU without a handler. -/
theorem Good.section (good : Good s c) (free : s.handler c = none) : Owns s.locks c (pcHeld (s.pc c)) := by
  have owns := good.owns
  unfold held at owns
  rwa [free, Option.getD_none] at owns

theorem fine_sched (good : Good s c) (free : s.handler c = none) {p : Slot} {how : Departure}
    (position : s.pc c = .run p (.inSched how)) : Fine s c (s.sched c p how) := by
  have owns := good.section free
  rw [position] at owns
  have mine : s.locks.holding c (.proc p) = true := by
    simp only [holding, decide_eq_true_eq, owns.holder]
    exact List.mem_cons_self
  have one : (s.locks.off c).noff = 1 := owns.noff
  have closed : (s.locks.off c).sie = false := owns.off (List.cons_ne_nil _ _)
  unfold Fcfs.sched
  rw [if_neg (by rw [mine]; decide), if_neg (not_not.mpr one), if_neg (good.calm p how position), closed,
    if_neg (by decide)]
  obtain ⟨frame, after⟩ := section_same (.back p) good free (by rw [position]; rfl) trivial (by rintro _ _ ⟨⟩)
  exact ⟨_, rfl, ⟨frame.pc, frame.handler, frame.owns, frame.proc⟩, ⟨after.owns, after.quiet, after.calm, after.ordered⟩⟩

theorem fine_resume (good : Good s c) (free : s.handler c = none) {p : Slot}
    (position : s.pc c = .run p .resumed) : Fine s c (s.resume c p) := by
  have owns := good.section free
  rw [position] at owns
  unfold Fcfs.resume
  cases s.saved p with
  | none =>
      refine fine_release good free ?_ ?_ trivial (by rintro _ _ ⟨⟩)
      · rw [position]
        exact List.mem_cons_self
      · rw [position]
        exact List.erase_cons_head ..
  | some saved =>
      obtain ⟨how, intena⟩ := saved
      dsimp only
      have restored : Owns (s.locks.setOff c { s.locks.off c with intena := intena }) c [.proc p] :=
        owns.setOff rfl owns.off
      have ends (pc : FcfsPc) (empty : pcHeld pc = []) (ordered : Ordered pc)
          (calm : ∀ q how, pc = .run q (.inSched how) → (s.proc q).state ≠ .running) :
          Fine s c ((s.setLocks (s.locks.setOff c { s.locks.off c with intena := intena })).releaseTo c (.proc p) pc) := by
        obtain ⟨locks, released, rest, others⟩ := releaseTo_cases
          (s := s.setLocks (s.locks.setOff c { s.locks.off c with intena := intena })) pc restored List.mem_cons_self
        rw [List.erase_cons_head, ← empty] at rest
        exact ⟨_, released, frame_section ((apart_setOff _).trans others), good_section free rest ordered calm⟩
      cases how <;> exact ends _ rfl trivial (by rintro _ _ ⟨⟩)

theorem fine_dispatch (good : Good s c) (free : s.handler c = none) {p : Slot} (position : s.pc c = .dispatch p) :
    Fine s c (.ok (((s.setSie c false).setProc p { s.proc p with state := .running }).setPc c (.run p .resumed))) := by
  have owns := good.section free
  rw [position] at owns
  have quiet : Owns (s.locks.setOff c { s.locks.off c with sie := false }) c [.proc p] := owns.setOff rfl fun _ => rfl
  have after : Good ((s.setLocks (s.locks.setOff c { s.locks.off c with sie := false })).setPc c (.run p .resumed)) c :=
    good_section free quiet trivial nofun
  have frame : Frame s c ((s.setLocks (s.locks.setOff c { s.locks.off c with sie := false })).setPc c (.run p .resumed)) :=
    frame_section (apart_setOff _)
  refine ⟨_, rfl, ⟨frame.pc, frame.handler, frame.owns, fun j => ?_⟩, ⟨after.owns, after.quiet, ?_, after.ordered⟩⟩
  · by_cases here : j = p
    · refine .inr (.inl ?_)
      unfold held
      rw [free, position, here]
      exact List.mem_cons_self
    · exact .inl (Function.update_of_ne here _ _)
  · intro q how there
    have place : (((s.setSie c false).setProc p { s.proc p with state := .running }).setPc c (.run p .resumed)).pc c =
      .run p .resumed := by simp [Fcfs.setPc]
    rw [place] at there
    cases there

theorem departure_state (how : Departure) : how.state ≠ .running := by
  cases how <;> nofun

/-- A process that holds its lock takes its new state and enters `sched`. -/
theorem good_leaving (free : s.handler c = none) {p : Slot} {how : Departure} (owns : Owns locks c [.proc p]) :
    Good (((s.setLocks locks).setPc c (.run p (.inSched how))).setProc p { s.proc p with state := how.state }) c := by
  have place : (((s.setLocks locks).setPc c (.run p (.inSched how))).setProc p
      { s.proc p with state := how.state }).pc c = .run p (.inSched how) := by simp [Fcfs.setPc, Fcfs.setProc]
  refine ⟨?_, ?_, ?_, ?_⟩
  · unfold held
    rw [place]
    have idle : (((s.setLocks locks).setPc c (.run p (.inSched how))).setProc p
      { s.proc p with state := how.state }).handler c = none := free
    rw [idle]
    exact owns
  · intro held busy
    have idle : s.handler c = some held := busy
    rw [free] at idle
    cases idle
  · intro q other there
    rw [place] at there
    cases there
    simp only [Fcfs.setProc, Function.update_self]
    exact departure_state how
  · rw [place]
    trivial

theorem frame_leaving (apart : Apart s.locks locks c) {p : Slot} {how : Departure} {record : Proc}
    (free : s.handler c = none) :
    Frame s c (((s.setLocks locks).setPc c (.run p (.inSched how))).setProc p record) := by
  refine ⟨fun _ other => Function.update_of_ne other _ _, fun _ _ => rfl, apart, fun j => ?_⟩
  by_cases here : j = p
  · refine .inr (.inr ?_)
    have place : (((s.setLocks locks).setPc c (.run p (.inSched how))).setProc p record).pc c = .run p (.inSched how) := by
      simp [Fcfs.setPc, Fcfs.setProc]
    have idle : (((s.setLocks locks).setPc c (.run p (.inSched how))).setProc p record).handler c = none := free
    unfold held
    rw [place, idle, here]
    exact List.mem_cons_self
  · exact .inl (Function.update_of_ne here _ _)

theorem fine_parting (good : Good s c) (free : s.handler c = none) {p : Slot} {how : Departure}
    (position : s.pc c = .run p (.parting lk how)) :
    Fine s c ((s.releaseTo c lk (.run p (.inSched how))).map (·.setProc p { s.proc p with state := how.state })) := by
  have owns := good.section free
  rw [position] at owns
  have distinct : .proc p ≠ lk := fun same => (List.nodup_cons.mp owns.nodup).1 (same ▸ List.mem_cons_self)
  obtain ⟨locks, released, rest, others⟩ := releaseTo_cases (.run p (.inSched how)) owns
    (List.mem_cons_of_mem _ List.mem_cons_self)
  have left : (codeHeld p (.parting lk how)).erase lk = [.proc p] := by
    unfold codeHeld
    rw [List.erase_cons_tail (by simpa using distinct), List.erase_cons_head]
  rw [released]
  exact ⟨_, rfl, frame_leaving others free, good_leaving free (left ▸ rest)⟩

/-- One section of the scheduler or of `sched`. -/
theorem fine_section (good : Good s c) (free : s.handler c = none) {result : Except LockPanic (Fcfs n)}
    (done : s.sectionStep c = some result) : Fine s c result := by
  have owns := good.section free
  have ordered := good.ordered
  unfold Fcfs.sectionStep at done
  cases position : s.pc c with
  | top =>
      rw [position] at done owns
      obtain rfl := Option.some.inj done
      have quiet : Owns (s.locks.setOff c { s.locks.off c with sie := true }) c [] :=
        owns.setOff rfl fun locked => absurd rfl locked
      exact ⟨_, rfl, frame_section (apart_setOff _), good_section free quiet nofun nofun⟩
  | scan i first =>
      rw [position] at done ordered
      dsimp only at done
      split_ifs at done with inside
      · refine fine_acquire good free done ?_ ?_ ordered nofun
        · rw [position]
          intro mine
          have below := ordered _ (mem_firstHeld.mp mine)
          exact lt_irrefl _ below
        · rw [position]
          rfl
      · cases first with
        | none | some p =>
            obtain rfl := Option.some.inj done
            exact ⟨_, rfl, section_same _ good free (by rw [position]; rfl) trivial nofun⟩
  | examine p first =>
      rw [position] at done
      obtain rfl := Option.some.inj done
      exact fine_examine good free position
  | handover p first =>
      rw [position] at done ordered
      obtain rfl := Option.some.inj done
      have distinct : KLock.proc p ≠ .proc first := by
        intro same
        have below : first.val < p.val := ordered
        rw [KLock.proc.inj same] at below
        exact lt_irrefl _ below
      refine fine_release good free ?_ ?_ ?_ nofun
      · rw [position]
        exact List.mem_cons_of_mem _ List.mem_cons_self
      · rw [position]
        unfold pcHeld
        rw [List.erase_cons_tail (by simpa using distinct), List.erase_cons_head]
        rfl
      · intro f found
        obtain rfl := Option.some.inj found
        exact Nat.lt_succ_self _
  | drop p first =>
      rw [position] at done ordered
      obtain rfl := Option.some.inj done
      refine fine_release good free ?_ ?_ ?_ nofun
      · rw [position]
        exact List.mem_cons_self
      · rw [position]
        exact List.erase_cons_head ..
      · exact fun f found => Nat.lt_succ_of_lt (ordered f found)
  | dispatch p =>
      rw [position] at done
      obtain rfl := Option.some.inj done
      exact fine_dispatch good free position
  | back p =>
      rw [position] at done
      obtain rfl := Option.some.inj done
      refine fine_release good free ?_ ?_ trivial nofun
      · rw [position]
        exact List.mem_cons_self
      · rw [position]
        exact List.erase_cons_head ..
  | run p code =>
      rw [position] at done
      cases code with
      | resumed =>
          obtain rfl := Option.some.inj done
          exact fine_resume good free position
      | reacquire lk =>
          refine fine_acquire good free done ?_ ?_ trivial nofun
          · rw [position]
            exact List.not_mem_nil
          · rw [position]
            rfl
      | work held => cases done
      | parting lk how =>
          obtain rfl := Option.some.inj done
          exact fine_parting good free position
      | inSched how =>
          obtain rfl := Option.some.inj done
          exact fine_sched good free position

/-- The code of a handler or of a process with a new list of locks. -/
theorem setWork_good (good : Good s c) {before after : List KLock} (working : s.workList c = some before)
    (owns : Owns locks c after) : Good ((s.setLocks locks).setWork c after) c := by
  unfold Fcfs.workList at working
  cases busy : s.handler c with
  | some list =>
      rw [busy] at working
      have same : (s.setLocks locks).setWork c after = (s.setLocks locks).setHandler c (some after) := by
        have kept : (s.setLocks locks).handler c = some list := busy
        unfold Fcfs.setWork
        rw [kept]
      have now : ((s.setLocks locks).setHandler c (some after)).handler c = some after := by simp [Fcfs.setHandler]
      rw [same]
      refine ⟨?_, fun _ _ => good.quiet list busy, good.calm, good.ordered⟩
      unfold held
      rw [now]
      exact owns
  | none =>
      rw [busy] at working
      cases position : s.pc c with
      | run p code =>
          have same : (s.setLocks locks).setWork c after = (s.setLocks locks).setPc c (.run p (.work after)) := by
            have kept : (s.setLocks locks).handler c = none := busy
            have place : (s.setLocks locks).pc c = .run p code := position
            unfold Fcfs.setWork
            rw [kept, place]
          rw [same]
          exact good_section busy owns trivial nofun
      | _ =>
          rw [position] at working
          cases working

theorem workList_held {mine : List KLock} (working : s.workList c = some mine) : held s c = mine := by
  unfold Fcfs.workList at working
  unfold held
  cases busy : s.handler c with
  | some list =>
      rw [busy] at working
      exact Option.some.inj working
  | none =>
      rw [busy] at working
      cases position : s.pc c with
      | run p code =>
          rw [position] at working
          cases code with
          | work list => exact Option.some.inj working
          | _ => cases working
      | _ =>
          rw [position] at working
          cases working

theorem Good.working (good : Good s c) (working : s.workList c = some mine) : Owns s.locks c mine := by
  rw [← workList_held working]
  exact good.owns

/-- Code that works with locks is not in `sched`. -/
theorem Good.not_in_sched (good : Good s c) (working : s.workList c = some mine) (p : Slot) (how : Departure) :
    s.pc c ≠ .run p (.inSched how) := by
  intro position
  unfold Fcfs.workList at working
  cases busy : s.handler c with
  | some list =>
      have empty := good.quiet list busy
      rw [position] at empty
      cases empty
  | none =>
      rw [busy, position] at working
      cases working

theorem frame_setWork (apart : Apart s.locks locks c) {after : List KLock} :
    Frame s c ((s.setLocks locks).setWork c after) := by
  unfold Fcfs.setWork
  split
  · exact frame_section apart
  · exact ⟨fun _ _ => rfl, fun _ other => Function.update_of_ne other _ _, apart, fun _ => .inl rfl⟩

/-- A change of the interrupt bit of a CPU that holds no lock. -/
theorem good_setSie (good : Good s c) (none : held s c = []) (sie : Bool) : Good (s.setSie c sie) c := by
  refine ⟨good.owns.setOff rfl fun locked => absurd none locked, good.quiet, good.calm, good.ordered⟩

theorem frame_setSie (sie : Bool) : Frame s c (s.setSie c sie) :=
  ⟨fun _ _ => rfl, fun _ _ => rfl, apart_setOff _, fun _ => .inl rfl⟩

theorem fine_depart (good : Good s c) {how : Departure} {result : Except LockPanic (Fcfs n)}
    (done : s.depart c how = some result) : Fine s c result := by
  unfold Fcfs.depart at done
  cases free : s.handler c with
  | some list =>
      rw [free] at done
      cases done
  | none =>
  rw [free] at done
  cases position : s.pc c with
  | run p code =>
      rw [position] at done
      cases code with
      | work list =>
          dsimp only at done
          split_ifs at done with fits
          obtain ⟨rfl, distinct⟩ := fits
          cases lock : how.lock with
          | some lk =>
              rw [lock] at done distinct position
              refine fine_acquire good free done ?_ ?_ trivial nofun
              · rw [position]
                intro inside
                have same : KLock.proc p = lk := by simpa [pcHeld, codeHeld] using inside
                exact distinct (by rw [same])
              · rw [position]
                rfl
          | none =>
              rw [lock] at done position
              have owns := good.section free
              rw [position] at owns
              obtain ⟨inner, acquired, rfl⟩ := Option.map_eq_some_iff.mp done
              obtain ⟨locks, rfl, taken, others⟩ := acquireTo_cases owns (by simp [pcHeld, codeHeld]) acquired
              exact ⟨_, rfl, frame_leaving others free, good_leaving free taken⟩
      | _ => cases done
  | _ =>
      rw [position] at done
      cases done

theorem fine_interrupt (good : Good s c) (free : s.handler c = none) (enabled : (s.locks.off c).sie = true) :
    Fine s c (.ok ((s.setSie c false).setHandler c (some []))) := by
  have empty : held s c = [] := by
    by_contra more
    have closed := good.owns.off more
    rw [enabled] at closed
    cases closed
  have idle : pcHeld (s.pc c) = [] := by
    unfold held at empty
    rwa [free, Option.getD_none] at empty
  have now : ((s.setSie c false).setHandler c (some [])).handler c = some [] := by simp [Fcfs.setHandler]
  have after : Owns (s.setSie c false).locks c (held s c) := (good_setSie good empty false).owns
  rw [empty] at after
  refine ⟨_, rfl, ?_, ⟨?_, fun _ _ => idle, good.calm, good.ordered⟩⟩
  · exact ⟨fun _ _ => rfl, fun _ other => Function.update_of_ne other _ _, apart_setOff _, fun _ => .inl rfl⟩
  · unfold held
    rw [now]
    exact after

theorem fine_iret (good : Good s c) (ends : s.handler c = some []) :
    Fine s c (.ok ((s.setSie c true).setHandler c none)) := by
  have empty : held s c = [] := by
    unfold held
    rw [ends]
    rfl
  have idle := good.quiet [] ends
  have now : ((s.setSie c true).setHandler c none).handler c = none := by simp [Fcfs.setHandler]
  have place : ((s.setSie c true).setHandler c none).pc c = s.pc c := rfl
  have after : Owns (s.setSie c true).locks c (held s c) := (good_setSie good empty true).owns
  rw [empty] at after
  refine ⟨_, rfl, ?_, ⟨?_, fun list busy => ?_, good.calm, good.ordered⟩⟩
  · exact ⟨fun _ _ => rfl, fun _ other => Function.update_of_ne other _ _, apart_setOff _, fun _ => .inl rfl⟩
  · unfold held
    rw [now, place, Option.getD_none, idle]
    exact after
  · rw [now] at busy
    cases busy

/-- No event of a good machine panics, and every event keeps it good. -/
theorem fine_next {event : FcfsEvent n} (good : Good s (cpuOf event)) {result : Except LockPanic (Fcfs n)}
    (done : s.next event = some result) : Fine s (cpuOf event) result := by
  cases event with
  | step c =>
      simp only [Fcfs.next] at done
      split_ifs at done with free
      exact fine_section good free done
  | interrupt c =>
      simp only [Fcfs.next] at done
      split_ifs at done with enabled
      obtain rfl := Option.some.inj done
      exact fine_interrupt good enabled.1 enabled.2
  | iret c =>
      simp only [Fcfs.next] at done
      split_ifs at done with ends
      obtain rfl := Option.some.inj done
      exact fine_iret good ends
  | acquire c lk =>
      obtain ⟨mine, working, inner⟩ := Option.bind_eq_some_iff.mp done
      split_ifs at inner with taken
      obtain ⟨outcome, acquired, rfl⟩ := Option.map_eq_some_iff.mp inner
      have owns : Owns s.locks c mine := good.working working
      obtain ⟨locks, rfl, more, others⟩ := acquire_cases owns taken acquired
      exact ⟨_, rfl, frame_setWork others, setWork_good good working more⟩
  | release c lk =>
      obtain ⟨mine, working, inner⟩ := Option.bind_eq_some_iff.mp done
      split_ifs at inner with inside
      obtain rfl := Option.some.inj inner
      have owns : Owns s.locks c mine := good.working working
      obtain ⟨locks, released, rest, others⟩ := release_ok owns inside
      rw [released]
      exact ⟨_, rfl, frame_setWork others, setWork_good good working rest⟩
  | store c j record =>
      obtain ⟨mine, working, inner⟩ := Option.bind_eq_some_iff.mp done
      split_ifs at inner with inside
      obtain rfl := Option.some.inj inner
      have calm (p : Slot) (how : Departure) : s.pc c ≠ .run p (.inSched how) := good.not_in_sched working p how
      refine ⟨_, rfl, ⟨fun _ _ => rfl, fun _ _ => rfl, Apart.refl, fun i => ?_⟩,
        ⟨good.owns, good.quiet, fun p how there => absurd there (calm p how), good.ordered⟩⟩
      by_cases here : i = j
      · refine .inr (.inl ?_)
        have same : held s c = mine := workList_held working
        rw [here]
        show KLock.proc j ∈ held s c
        rw [same]
        exact inside
      · exact .inl (Function.update_of_ne here _ _)
  | depart c how => exact fine_depart good done
  | intr c on =>
      simp only [Fcfs.next] at done
      split_ifs at done with idle
      obtain rfl := Option.some.inj done
      have none : held s c = [] := workList_held idle.2
      exact ⟨_, rfl, frame_setSie on, good_setSie good none on⟩

theorem good_fresh (fresh : s.Fresh) (c : Fin n) : Good s c := by
  have none : held s c = [] := by
    unfold held
    rw [fresh.handler, fresh.pc]
    rfl
  refine ⟨?_, ?_, ?_, ?_⟩
  · rw [none]
    refine ⟨fun lk => ?_, List.nodup_nil, fresh.noff c, fun locked => absurd rfl locked⟩
    rw [fresh.holder]
    simp
  · intro list busy
    rw [fresh.handler] at busy
    cases busy
  · intro p how there
    rw [fresh.pc] at there
    cases there
  · rw [fresh.pc]
    trivial

/-- A step keeps all CPUs good. -/
theorem good_step {event : FcfsEvent n} (good : ∀ d, Good s d) (stepped : s.Step event t) :
    Frame s (cpuOf event) t ∧ ∀ d, Good t d := by
  obtain ⟨u, same, frame, after⟩ := fine_next (good (cpuOf event)) stepped
  obtain rfl : t = u := by
    injection same
  refine ⟨frame, fun d => ?_⟩
  by_cases here : d = cpuOf event
  · rw [here]
    exact after
  · exact frame.good (good _) after here (good d)

end Sections

end Xv6.FirstCome
