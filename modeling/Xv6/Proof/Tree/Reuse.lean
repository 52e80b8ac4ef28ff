import Xv6.Proof.Tree.Records

namespace Xv6.ProcTree
open TransitionSystem

/-- The marks that `kill` leaves: on an unused slot since it became unused, and on a process since
its creation. -/
structure Marks where
  struck : Slot → Bool
  hit : Slot → Bool

/-- The marks after one event. A mark on a process is left by a `kill` of its own pid. -/
def Marks.observe (m : Marks) (s : ProcSystem) (event : ProcEvent) : Marks where
  struck := fun i => match occurrence s event i with
    | .hit => if (s.proc i).state = .unused then true else m.struck i
    | .born _ _ | .failed | .freed => false
    | _ => m.struck i
  hit := fun i => match occurrence s event i with
    | .hit => if (s.proc i).state = .unused then m.hit i else true
    | .born _ _ => false
    | _ => m.hit i

/-- The machine together with the marks. -/
abbrev Marked := Monitored ProcSystem Marks

def Marked.Step (build : Build) : Marked → ProcEvent → Marked → Prop :=
  Monitored.Step (fun s => s.Step build) fun m s event _ => m.observe s event

def Marked.boot (build : Build) (table cwd : Uint64) : Marked :=
  ⟨ProcSystem.boot build table cwd, ⟨fun _ => false, fun _ => false⟩⟩

/-- A new process depends on nothing but its pid, the time and the memory that it gets. -/
def freshProc (pid : CInt) (ticks : Uint) (page : Trapframe) (table : Uint64) : Proc :=
  { Proc.zero with
    pid := pid
    state := .used
    trapframe := some page
    pagetable := some table
    ctime := ticks }

/-- The event is the section of `fork` in which `allocproc` returns the new process. -/
def Allocates (build : Build) (s : ProcSystem) (event : ProcEvent) (slot : Slot) (page : Trapframe)
    (table : Uint64) (np : Proc) : Prop :=
  ∃ p copied k, event = .advance p ⟨some page, some table, copied⟩ ∧
    s.pc p = .fork k ∧ slotAt k = some slot ∧ (s.proc slot).state = .unused ∧
    allocproc build s.nextpid s.ticks (some page) (some table) (s.proc slot) = (some np, np)

/-- Every new process is fresh, and every killed process was killed under its own pid since its
creation. -/
def Isolated (build : Build) (w : Marked) (event : ProcEvent) : Prop :=
  (∀ slot page table np, Allocates build w.sys event slot page table np →
    np = freshProc w.sys.nextpid w.sys.ticks page table) ∧
  ∀ i, (w.sys.proc i).state ≠ .unused → (w.sys.proc i).killed = true → w.mon.hit i = true

/-- No `kill` has struck the slot that `allocproc` takes. -/
def Unstruck (build : Build) (w : Marked) (event : ProcEvent) : Prop :=
  ∀ slot page table np, Allocates build w.sys event slot page table np → w.mon.struck slot = false

/-- An unused record is zero, except for the mark of `kill` and the times. -/
def Blank (struck : Bool) (p : Proc) : Prop :=
  p = { Proc.zero with
    killed := struck
    rtime := p.rtime
    ctime := p.ctime
    etime := p.etime
    ticksElapsed := p.ticksElapsed }

/-- The files are closed. -/
def Closed (p : Proc) : Prop := p.ofile = (fun _ => none) ∧ p.cwd = none

/-- The sections of `exit` after it has closed its files. -/
def closing : CallPc → Bool
  | .exitLock _ | .exitReparent _ _ | .exitReparentWake _ _ _ => true
  | .exitWakeParent _ _ _ | .exitZombie _ => true
  | _ => false

/-- The records agree with the marks. -/
structure Reuse (build : Build) (w : Marked) : Prop where
  tree : TreeInv (tree w.sys)
  blank : ∀ i, (w.sys.proc i).state = .unused → Blank (w.mon.struck i) (w.sys.proc i)
  closed : ∀ i, (w.sys.proc i).state = .zombie ∨ closing (w.sys.pc i) = true → Closed (w.sys.proc i)
  mlfq : build ≠ .mlfq → ∀ i, (w.sys.proc i).mlfqData = .zero

/-- Freeing a closed record makes it blank. -/
theorem freeproc_blank {build : Build} {p : Proc} (closed : Closed p)
    (mlfq : build ≠ .mlfq → p.mlfqData = .zero) : Blank false (freeproc build p) := by
  obtain ⟨ofile, cwd⟩ := closed
  cases build <;> simp [Blank, freeproc, Proc.zero, ofile, cwd, mlfq]

/-- A failed `fork` makes its slot blank again. -/
theorem forkFailed_blank {build : Build} {pid : CInt} {ticks : Uint} {page : Option Trapframe}
    {table : Option Uint64} {p : Proc} {struck : Bool} (blank : Blank struck p) :
    Blank false (forkFailed build pid ticks page table p) := by
  rw [Blank] at blank
  rw [blank]
  cases page <;> cases table <;> cases build <;> rfl

/-- The new process in a blank slot is fresh but for the mark. -/
theorem allocproc_blank {build : Build} {pid : CInt} {ticks : Uint} {page : Trapframe}
    {table : Uint64} {p np : Proc} {struck : Bool} (blank : Blank struck p)
    (done : allocproc build pid ticks (some page) (some table) p = (some np, np)) :
    np = { freshProc pid ticks page table with killed := struck } := by
  rw [Blank] at blank
  rw [blank] at done
  exact (congrArg Prod.snd done).symm

section Positions

variable {build : Build} {s t : ProcSystem} {p : Slot}

theorem forkSlot_pc (build : Build) (s : ProcSystem) (p slot : Slot) (memory : Memory) :
    ∃ pc, closing pc = false ∧ (s.forkSlot build p slot memory).pc = Function.update s.pc p pc := by
  unfold ProcSystem.forkSlot
  dsimp only
  split
  · exact ⟨.user, rfl, rfl⟩
  · split_ifs
    · exact ⟨.forkParent slot, rfl, rfl⟩
    · exact ⟨.user, rfl, rfl⟩

theorem reap_pc (child : Slot) (call : WaitCall) (memory : Memory) :
    (s.reap build p child call memory).pc = Function.update s.pc p .user := by
  unfold ProcSystem.reap
  split_ifs <;> rfl

theorem wakeupAt_goto_pc (j : Slot) (chan : Option Slot) (pc : CallPc) :
    ((s.wakeupAt p j chan).goto p pc).pc = Function.update s.pc p pc := by
  simp [ProcSystem.goto]

/-- A section moves only its own process, and only `exit` goes on to close. -/
theorem advance_pc {memory : Memory} (advanced : s.advance build p memory = some t) :
    ∃ pc, t.pc = Function.update s.pc p pc ∧
      (closing pc = true → closing (s.pc p) = true ∨ ∃ status, s.pc p = .exitClose status) := by
  cases position : s.pc p <;> simp only [ProcSystem.advance, position] at advanced
  case user => cases advanced
  case fork =>
    split at advanced
    · split_ifs at advanced <;> obtain rfl := Option.some.inj advanced
      · obtain ⟨pc, quiet, moved⟩ := forkSlot_pc build s p _ memory
        exact ⟨pc, moved, fun closed => by simp [quiet] at closed⟩
      · exact ⟨_, rfl, fun closed => by cases closed⟩
    · obtain rfl := Option.some.inj advanced
      exact ⟨_, rfl, fun closed => by cases closed⟩
  case waitScan =>
    split at advanced
    · split_ifs at advanced <;> obtain rfl := Option.some.inj advanced
      · exact ⟨_, reap_pc _ _ _, fun closed => by cases closed⟩
      all_goals exact ⟨_, rfl, fun closed => by cases closed⟩
    · split_ifs at advanced <;> obtain rfl := Option.some.inj advanced <;>
        exact ⟨_, rfl, fun closed => by cases closed⟩
  case kill =>
    split at advanced
    · split_ifs at advanced <;> obtain rfl := Option.some.inj advanced <;>
        exact ⟨_, rfl, fun closed => by cases closed⟩
    · obtain rfl := Option.some.inj advanced
      exact ⟨_, rfl, fun closed => by cases closed⟩
  case exitReparent =>
    split at advanced
    · split_ifs at advanced <;> obtain rfl := Option.some.inj advanced <;>
        exact ⟨_, rfl, fun _ => .inl rfl⟩
    · obtain rfl := Option.some.inj advanced
      exact ⟨_, rfl, fun _ => .inl rfl⟩
  case exitReparentWake | exitWakeParent =>
    split at advanced <;> obtain rfl := Option.some.inj advanced
    · exact ⟨_, wakeupAt_goto_pc _ _ _, fun _ => .inl rfl⟩
    · exact ⟨_, rfl, fun _ => .inl rfl⟩
  case exitLock =>
    split_ifs at advanced
    obtain rfl := Option.some.inj advanced
    exact ⟨_, rfl, fun _ => .inl rfl⟩
  case forkParent | waitLock =>
    split_ifs at advanced
    obtain rfl := Option.some.inj advanced
    exact ⟨_, rfl, fun closed => by cases closed⟩
  case exitClose status =>
    obtain rfl := Option.some.inj advanced
    exact ⟨_, rfl, fun _ => .inr ⟨status, rfl⟩⟩
  all_goals
    obtain rfl := Option.some.inj advanced
    exact ⟨_, rfl, fun closed => by cases closed⟩

/-- A process is past the closing of its files only if it was so before or closes them now. -/
theorem closing_step {event : ProcEvent} (stepped : s.Step build event t) {i : Slot}
    (closed : closing (t.pc i) = true) :
    closing (s.pc i) = true ∨ occurrence s event i = .closed := by
  have opened {pc : CallPc} {u : ProcSystem} {p : Slot} (quiet : closing pc = false)
      (moved : u.pc = Function.update s.pc p pc) (same : u = t) : closing (s.pc i) = true := by
    rw [← same, moved] at closed
    by_cases caller : i = p
    · simp [caller, quiet] at closed
    · simpa [caller] using closed
  unfold ProcSystem.Step at stepped
  cases event with
  | advance p memory =>
      simp only [ProcSystem.next] at stepped
      split_ifs at stepped with running
      obtain ⟨pc, moved, origin⟩ := advance_pc stepped
      rw [moved] at closed
      by_cases caller : i = p
      · subst caller
        rw [Function.update_self] at closed
        rcases origin closed with before | ⟨status, position⟩
        · exact .inl before
        · exact .inr (by simp [occurrence, position])
      · exact .inl (by simpa [caller] using closed)
  | call p call =>
      simp only [ProcSystem.next] at stepped
      split_ifs at stepped
      cases call with
      | fork | wait | kill => exact .inl (opened rfl rfl (Option.some.inj stepped))
      | exit status =>
          simp only [ProcSystem.start] at stepped
          split_ifs at stepped
          exact .inl (opened rfl rfl (Option.some.inj stepped))
      | sleep chan =>
          simp only [ProcSystem.start] at stepped
          split at stepped
          · cases stepped
          · exact .inl (opened rfl rfl (Option.some.inj stepped))
  | sigalarm p | sigreturn p | alarmTick p page =>
      simp only [ProcSystem.next] at stepped
      split_ifs at stepped
      obtain ⟨result, _, rfl⟩ := Option.map_eq_some_iff.mp stepped
      exact .inl closed
  | clock | charge j =>
      obtain rfl := Option.some.inj stepped
      exact .inl closed
  | wake chan j =>
      simp only [ProcSystem.next] at stepped
      split at stepped
      · cases stepped
      · obtain rfl := Option.some.inj stepped
        exact .inl closed
  | run p | yield p | trap p user | files p ofile cwd | exec p table entry sp size name | age j
  | scan j | demote p =>
      simp only [ProcSystem.next] at stepped
      split_ifs at stepped
      obtain rfl := Option.some.inj stepped
      exact .inl closed

end Positions

section Runs

variable {build : Build} {w v : Marked} {event : ProcEvent}

/-- A process past the closing of its files is alive. -/
theorem Reuse.closing_alive (inv : Reuse build w) {i : Slot}
    (closed : closing (w.sys.pc i) = true) : Alive (w.sys.proc i).state := by
  refine inv.tree.busy i fun user => ?_
  rw [show w.sys.pc i = .user from user] at closed
  exact (nomatch closed)

/-- A process that has closed its files, or has exited, is not in user space. -/
theorem done_not_user {s : ProcSystem} {i : Slot}
    (done : (s.proc i).state = .zombie ∨ closing (s.pc i) = true) : ¬ s.InUser i := by
  rintro ⟨running, user⟩
  rcases done with dead | closed
  · simp [running] at dead
  · rw [user] at closed
    exact (nomatch closed)

/-- Every step leaves the unused records blank. -/
theorem blank_step (inv : Reuse build w) (stepped : w.Step build event v) (i : Slot)
    (free : (v.sys.proc i).state = .unused) : Blank (v.mon.struck i) (v.sys.proc i) := by
  have change := effect_step inv.tree stepped.1 i
  rw [stepped.2]
  cases happened : occurrence w.sys event i with
  | none =>
      simp only [Effect, happened] at change
      have before := change.unused.mp free
      simpa only [Marks.observe, happened, change.blank before] using inv.blank i before
  | born parent memory =>
      simp only [Effect, happened] at change
      obtain ⟨np, done, filled⟩ := change
      simp [filled, (allocproc_some done).1] at free
  | failed =>
      simp only [Effect, happened] at change
      obtain ⟨memory, freed⟩ := change
      simp only [Marks.observe, happened, freed]
      exact forkFailed_blank (inv.blank i (occurrence_failed happened))
  | hit =>
      simp only [Effect, happened] at change
      have killed := change.unused.mp free
      have before := (killSlot_unused _).mp killed
      have blank := inv.blank i before
      simp only [Marks.observe, happened, before, if_true, change.blank killed]
      rw [Blank] at blank
      rw [blank]
      rfl
  | closed =>
      simp only [Effect, happened] at change
      obtain ⟨status, position⟩ := occurrence_closed happened
      have alive : Alive (w.sys.proc i).state :=
        inv.tree.busy i (by rw [show (tree w.sys).pc i = _ from position]; simp)
      rw [change] at free
      rcases alive with state | state | state <;> simp [exitClose, state] at free
  | died status =>
      simp only [Effect, happened] at change
      simp [change, exitZombie] at free
  | freed =>
      simp only [Effect, happened] at change
      simp only [Marks.observe, happened, change]
      exact freeproc_blank (inv.closed i (.inl (occurrence_freed happened).1))
        fun other => inv.mlfq other i

/-- Every step keeps the files of exiting processes closed. -/
theorem closed_step (inv : Reuse build w) (stepped : w.Step build event v) (i : Slot)
    (done : (v.sys.proc i).state = .zombie ∨ closing (v.sys.pc i) = true) :
    Closed (v.sys.proc i) := by
  have change := effect_step inv.tree stepped.1 i
  have later (closed : closing (v.sys.pc i) = true) := closing_step stepped.1 closed
  cases happened : occurrence w.sys event i with
  | none =>
      simp only [Effect, happened] at change
      have before : (w.sys.proc i).state = .zombie ∨ closing (w.sys.pc i) = true :=
        done.imp change.zombie.mp fun closed => (later closed).resolve_right (by simp [happened])
      obtain ⟨ofile, cwd⟩ := change.files.resolve_left (done_not_user before)
      obtain ⟨ofile', cwd'⟩ := inv.closed i before
      exact ⟨ofile.trans ofile', cwd.trans cwd'⟩
  | hit =>
      simp only [Effect, happened] at change
      have before : (w.sys.proc i).state = .zombie ∨ closing (w.sys.pc i) = true :=
        done.imp (fun dead => (killSlot_zombie _).mp (change.zombie.mp dead))
          fun closed => (later closed).resolve_right (by simp [happened])
      obtain ⟨ofile, cwd⟩ := change.files.resolve_left (done_not_user before)
      obtain ⟨ofile', cwd'⟩ := inv.closed i before
      obtain ⟨_, _, _, sameFiles, sameDir, _⟩ := killSlot_kept (w.sys.proc i)
      exact ⟨ofile.trans (sameFiles.trans ofile'), cwd.trans (sameDir.trans cwd')⟩
  | closed =>
      simp only [Effect, happened] at change
      rw [change]
      exact ⟨rfl, rfl⟩
  | died status =>
      simp only [Effect, happened] at change
      rw [change]
      exact inv.closed i (.inr (by rw [occurrence_died happened]; rfl))
  | born parent memory =>
      simp only [Effect, happened] at change
      obtain ⟨np, filled, same⟩ := change
      have unused := (occurrence_born happened).2.1
      rcases done with dead | closed
      · simp [same, (allocproc_some filled).1] at dead
      · have alive := inv.closing_alive ((later closed).resolve_right (by simp [happened]))
        rcases alive with state | state | state <;> simp [state] at unused
  | failed =>
      simp only [Effect, happened] at change
      obtain ⟨memory, same⟩ := change
      have unused := occurrence_failed happened
      rcases done with dead | closed
      · simp [same, (forkFailed_free _ _ _ _ _ _).1] at dead
      · have alive := inv.closing_alive ((later closed).resolve_right (by simp [happened]))
        rcases alive with state | state | state <;> simp [state] at unused
  | freed =>
      simp only [Effect, happened] at change
      have zombie := occurrence_freed happened
      rcases done with dead | closed
      · simp [change, freeproc] at dead
      · have alive := inv.closing_alive ((later closed).resolve_right (by simp [happened]))
        rcases alive with state | state | state <;> simp [state] at zombie

/-- Outside the feedback scheduler no step touches its records. -/
theorem mlfq_step (inv : Reuse build w) (stepped : w.Step build event v) (other : build ≠ .mlfq)
    (i : Slot) : (v.sys.proc i).mlfqData = .zero := by
  have change := effect_step inv.tree stepped.1 i
  have before := inv.mlfq other i
  cases happened : occurrence w.sys event i with
  | none =>
      simp only [Effect, happened] at change
      exact (change.mlfq other).trans before
  | hit =>
      simp only [Effect, happened] at change
      obtain ⟨_, _, _, _, _, same, _⟩ := killSlot_kept (w.sys.proc i)
      exact (change.mlfq other).trans (same.trans before)
  | born parent memory =>
      simp only [Effect, happened] at change
      obtain ⟨np, done, same⟩ := change
      obtain ⟨page, table, copied⟩ := memory
      cases page <;> cases table <;> simp [allocproc] at done
      rw [same, forkCopy, ← done]
      exact before
  | failed =>
      simp only [Effect, happened] at change
      obtain ⟨⟨page, table, copied⟩, same⟩ := change
      rw [same]
      cases build <;> first
        | exact absurd rfl other
        | (cases page <;> cases table <;> exact before)
  | closed | died =>
      simp only [Effect, happened] at change
      rw [change]
      exact before
  | freed =>
      simp only [Effect, happened] at change
      rw [change]
      cases build <;> first | exact absurd rfl other | exact before

/-- Every step keeps the records in agreement with the marks. -/
theorem reuse_step (inv : Reuse build w) (stepped : w.Step build event v) : Reuse build v where
  tree := treeInv_path (refines_step inv.tree stepped.1) inv.tree
  blank := blank_step inv stepped
  closed := closed_step inv stepped
  mlfq := mlfq_step inv stepped

theorem reuse_boot (build : Build) (table cwd : Uint64) :
    Reuse build (Marked.boot build table cwd) := by
  have records (i : Slot) : (Marked.boot build table cwd).sys.proc i =
      if i = initproc then userinit build table cwd else Proc.zero := boot_state build table cwd i
  refine ⟨treeInv_boot build table cwd, fun i free => ?_, fun i done => ?_, fun other i => ?_⟩
  · by_cases first : i = initproc
    · rw [records, if_pos first] at free
      cases build <;> exact (nomatch free)
    · rw [records, if_neg first]
      rfl
  · rcases done with dead | closed
    · by_cases first : i = initproc
      · rw [records, if_pos first] at dead
        cases build <;> exact (nomatch dead)
      · rw [records, if_neg first] at dead
        exact (nomatch dead)
    · exact (nomatch closed)
  · rw [records]
    split_ifs
    · cases build <;> first | exact absurd rfl other | rfl
    · rfl

/-- Every killed process was killed under its own pid since its creation. -/
def Hits (w : Marked) : Prop :=
  ∀ i, (w.sys.proc i).state ≠ .unused → (w.sys.proc i).killed = true → w.mon.hit i = true

/-- A step that takes no struck slot keeps the marks on processes. -/
theorem hits_step (inv : Reuse build w) (hits : Hits w) (unstruck : Unstruck build w event)
    (stepped : w.Step build event v) : Hits v := by
  intro i started killed
  have change := effect_step inv.tree stepped.1 i
  rw [stepped.2]
  cases happened : occurrence w.sys event i with
  | none =>
      simp only [Effect, happened] at change
      simp only [Marks.observe, happened]
      exact hits i (fun free => started (change.unused.mpr free)) (change.killed ▸ killed)
  | born parent memory =>
      simp only [Effect, happened] at change
      obtain ⟨np, done, filled⟩ := change
      obtain ⟨same, free, ⟨pages, tables, _⟩, k, position, found⟩ := occurrence_born happened
      obtain ⟨page, table, copied⟩ := memory
      obtain ⟨page, rfl⟩ := Option.isSome_iff_exists.mp pages
      obtain ⟨table, rfl⟩ := Option.isSome_iff_exists.mp tables
      have clear := unstruck i page table np
        ⟨parent, copied, k, same, position, found, free, done⟩
      have fresh := allocproc_blank (inv.blank i free) done
      rw [filled, fresh, clear] at killed
      cases killed
  | failed =>
      simp only [Effect, happened] at change
      obtain ⟨memory, same⟩ := change
      exact absurd (same ▸ (forkFailed_free _ _ _ _ _ _).1) started
  | hit =>
      simp only [Effect, happened] at change
      have before : (w.sys.proc i).state ≠ .unused := fun free =>
        started (change.unused.mpr ((killSlot_unused _).mpr free))
      simp only [Marks.observe, happened, before, if_false]
  | closed =>
      simp only [Effect, happened] at change
      simp only [Marks.observe, happened]
      rw [change] at started killed
      exact hits i started killed
  | died status =>
      simp only [Effect, happened] at change
      simp only [Marks.observe, happened]
      have running : (w.sys.proc i).state = .running :=
        inv.tree.running i (by rw [show (tree w.sys).pc i = _ from occurrence_died happened]; rfl)
      rw [change] at killed
      exact hits i (by simp [running]) killed
  | freed =>
      simp only [Effect, happened] at change
      exact absurd (by rw [change]; rfl) started

/-- With the marks in agreement, an event is isolated exactly when it takes no struck slot. -/
theorem isolated_iff_unstruck (inv : Reuse build w) (hits : Hits w) :
    Isolated build w event ↔ Unstruck build w event := by
  have fresh {slot : Slot} {page : Trapframe} {table : Uint64} {np : Proc}
      (allocates : Allocates build w.sys event slot page table np) :
      np = { freshProc w.sys.nextpid w.sys.ticks page table with
        killed := w.mon.struck slot } := by
    obtain ⟨p, copied, k, _, _, _, free, done⟩ := allocates
    exact allocproc_blank (inv.blank slot free) done
  constructor
  · intro isolated slot page table np allocates
    have same := (fresh allocates).symm.trans (isolated.1 slot page table np allocates)
    exact congrArg Proc.killed same
  · intro unstruck
    refine ⟨fun slot page table np allocates => ?_, hits⟩
    rw [fresh allocates, unstruck slot page table np allocates]
    rfl

/-- The marks stay in agreement in every run that takes no struck slot. -/
theorem hits_run {table cwd : Uint64} {trace : List (Marked × ProcEvent)}
    (run : Run (Marked.Step build) (Marked.boot build table cwd) trace w)
    (unstruck : ∀ entry ∈ trace, Unstruck build entry.1 entry.2) : Reuse build w ∧ Hits w := by
  have keeps (w : Marked) (event : ProcEvent) (v : Marked) (unstruck : Unstruck build w event)
      (inv : Reuse build w ∧ Hits w) (stepped : w.Step build event v) : Reuse build v ∧ Hits v :=
    ⟨reuse_step inv.1 stepped, hits_step inv.1 inv.2 unstruck stepped⟩
  have start : Hits (Marked.boot build table cwd) := fun i _ killed => by
    rw [show (Marked.boot build table cwd).sys.proc i = _ from boot_state build table cwd i] at killed
    split_ifs at killed
    · cases build <;> exact (nomatch killed)
    · exact (nomatch killed)
  exact run.invariant (Unstruck build) keeps unstruck ⟨reuse_boot build table cwd, start⟩

end Runs

/-- In every run, every step isolates the new processes and the killed ones exactly when no step
gives a process a slot that `kill` has struck. -/
theorem slot_reuse_iff (build : Build) (table cwd : Uint64) (trace : List (Marked × ProcEvent))
    (w : Marked) (run : Run (Marked.Step build) (Marked.boot build table cwd) trace w) :
    (∀ entry ∈ trace, Isolated build entry.1 entry.2) ↔
      ∀ entry ∈ trace, Unstruck build entry.1 entry.2 := by
  induction run with
  | refl => simp
  | @tail trace w v event run stepped ih =>
      simp only [List.mem_append, List.mem_singleton, or_imp, forall_and, forall_eq]
      rw [ih]
      refine and_congr_right fun unstruck => ?_
      obtain ⟨inv, hits⟩ := hits_run run unstruck
      exact isolated_iff_unstruck inv hits

section Struck

def Marked.after (build : Build) : Marked → ProcEvent → Marked :=
  Monitored.after (computed fun s => s.next build) fun m s event _ => m.observe s event

/-- The slot that `fork` visits is not struck. -/
def forksClean (w : Marked) : ProcEvent → Bool
  | .advance p _ => match w.sys.pc p with
      | .fork k => (slotAt k).all fun slot => !w.mon.struck slot
      | _ => true
  | _ => true

theorem unstruck_of_forksClean {build : Build} {w : Marked} {event : ProcEvent} (clean : forksClean w event = true) :
    Unstruck build w event := by
  rintro slot page table np ⟨p, copied, k, rfl, position, found, _⟩
  simpa [forksClean, position, found] using clean

/-- The first process makes a child, kills it by its pid, waits for it, and makes another child. -/
def killedChild : List ProcEvent :=
  childBorn ++ [.call 0 (.kill 2)] ++ advances 0 2 ++ childReaped ++ [.call 0 .fork] ++ advances 0 2

/-- The second child takes the slot of the killed one, and every step of the run is isolated. -/
theorem slot_reuse_killed_child :
    ((killedChild.foldl (Marked.after .rr) (Marked.boot .rr 0 0)).sys.proc 1).pid = 3 ∧
      ∀ entry ∈ entries (Marked.after .rr) (Marked.boot .rr 0 0) killedChild, Isolated .rr entry.1 entry.2 := by
  have played : plays (fun w event => (w.sys.next .rr event).isSome && decide (forksClean w event = true))
      (Marked.after .rr) (Marked.boot .rr 0 0) killedChild = true := by decide +kernel
  obtain ⟨run, clean⟩ := Monitored.run_entries (possible_step .rr) played
  exact ⟨by decide +kernel, (slot_reuse_iff .rr 0 0 _ _ run).mpr fun entry inside =>
    unstruck_of_forksClean (clean entry inside)⟩

/-- The first process calls `kill(0)` and starts a `fork`. -/
def killZero : List ProcEvent :=
  [.run 0, .call 0 (.kill 0)] ++ advances 0 2 ++ [.call 0 .fork] ++ advances 0 1

def killedZero : Marked := killZero.foldl (Marked.after .rr) (Marked.boot .rr 0 0)

/-- After `kill(0)` the next child is born killed. -/
theorem child_born_killed :
    ∃ trace w, Run (Marked.Step .rr) (Marked.boot .rr 0 0) trace w ∧
      ¬ ∀ entry ∈ trace, Isolated .rr entry.1 entry.2 := by
  obtain ⟨trace, run⟩ : Reachable (Marked.Step .rr) (Marked.boot .rr 0 0) killedZero :=
    Monitored.reachable_of_plays (possible_step .rr) (by decide)
  have forks : killedZero.Step .rr _ _ :=
    Monitored.step_after (possible_step .rr) killedZero (.advance 0 plenty) (by decide)
  refine ⟨_, _, run.tail forks, fun isolated => ?_⟩
  have fresh := (isolated _ (List.mem_append_right _ (List.mem_singleton_self _))).1 1 junkFrame 0 _
    ⟨0, true, 1, rfl, rfl, rfl, rfl, rfl⟩
  have killed := congrArg Proc.killed fresh
  exact (nomatch killed)

end Struck

end Xv6.ProcTree
