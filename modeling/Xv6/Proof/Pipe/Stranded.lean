/-
This file shows that no process is left asleep on a pipe with work to do, in every run in which `kill` does
not hit a process inside the loop of `pipewrite`. Such a writer returns without a wakeup of the readers.
-/

import Xv6.Proof.Pipe.Move

namespace Xv6.Pipes
open TransitionSystem

variable {Thread : Type}

/-- Every sleeping reader has nothing to read, and a writer can still come. -/
def ReadersWait (pi : Pipe) (pcs : Thread → PipePc) : Prop :=
  ∀ t n, pcs t = .readSleep n → pi.nread = pi.nwrite ∧ pi.writeopen = true

/-- Every sleeping writer has no room, and a reader can still come. -/
def WritersWait (pi : Pipe) (pcs : Thread → PipePc) : Prop :=
  ∀ t n i, pcs t = .writeSleep n i → pi.nwrite = pi.nread + BitVec.ofNat 32 pipesize ∧ pi.readopen = true

/-- What holds at each position inside the lock. A writer that has stored bytes owes the readers a wakeup,
and a reader that has taken bytes owes it to the writers. -/
def Outline (pi : Pipe) (killed : Bool) (pcs : Thread → PipePc) : PipePc → Prop
  | .write _ _ => WritersWait pi pcs ∧ (ReadersWait pi pcs ∨ killed = false ∧ pi.readopen = true)
  | .writeByte _ _ => WritersWait pi pcs ∧ killed = false ∧ pi.readopen = true
  | .writeDone _ => WritersWait pi pcs
  | .read _ => ReadersWait pi pcs ∧ WritersWait pi pcs
  | .readKilled _ | .readPark _ =>
      ReadersWait pi pcs ∧ WritersWait pi pcs ∧ pi.nread = pi.nwrite ∧ pi.writeopen = true
  | .readByte _ _ | .readDone _ => ReadersWait pi pcs
  | _ => True

/-- The outline holds at the holder of the lock, and with the lock free every sleeper has to wait. -/
def Outlined (s : PipeMachine Thread) : Prop :=
  match s.lock with
  | none => ReadersWait s.pipe s.pc ∧ WritersWait s.pipe s.pc
  | some t => Outline s.pipe (s.killed t) s.pc (s.pc t)

/-- The step is not a `kill` of a process that is inside the loop of `pipewrite` with the lock. -/
def SparesWriter (s : PipeMachine Thread) : PipeEvent Thread → Prop
  | .kill t => ∀ n i, s.pc t ≠ .write n i ∧ s.pc t ≠ .writeByte n i
  | _ => True

section Waits

variable {pi : Pipe} {pcs : Thread → PipePc}

theorem ReadersWait.mono {more : Thread → PipePc} (waits : ReadersWait pi more)
    (fewer : ∀ t n, pcs t = .readSleep n → more t = .readSleep n) : ReadersWait pi pcs :=
  fun t n asleep => waits t n (fewer t n asleep)

theorem WritersWait.mono {more : Thread → PipePc} (waits : WritersWait pi more)
    (fewer : ∀ t n i, pcs t = .writeSleep n i → more t = .writeSleep n i) : WritersWait pi pcs :=
  fun t n i asleep => waits t n i (fewer t n i asleep)

theorem wakeReader_ne (pc : PipePc) (n : CInt) : wakeReader pc ≠ .readSleep n := by
  cases pc <;> nofun

theorem wakeWriter_ne (pc : PipePc) (n : CInt) (i : Nat) : wakeWriter pc ≠ .writeSleep n i := by
  cases pc <;> nofun

theorem wakeReader_asleep {pc : PipePc} {n : CInt} {i : Nat} (asleep : wakeReader pc = .writeSleep n i) :
    pc = .writeSleep n i := by
  cases pc <;> first | exact asleep | cases asleep

theorem wakeWriter_asleep {pc : PipePc} {n : CInt} (asleep : wakeWriter pc = .readSleep n) :
    pc = .readSleep n := by
  cases pc <;> first | exact asleep | cases asleep

/-- A wakeup of the readers leaves no sleeping reader. -/
theorem readersWait_woken : ReadersWait pi fun t => wakeReader (pcs t) :=
  fun _ _ asleep => absurd asleep (wakeReader_ne _ _)

/-- A wakeup of the writers leaves no sleeping writer. -/
theorem writersWait_woken : WritersWait pi fun t => wakeWriter (pcs t) :=
  fun _ _ _ asleep => absurd asleep (wakeWriter_ne _ _ _)

theorem WritersWait.wakeReaders (waits : WritersWait pi pcs) : WritersWait pi fun t => wakeReader (pcs t) :=
  waits.mono fun _ _ _ asleep => wakeReader_asleep asleep

theorem ReadersWait.wakeWriters (waits : ReadersWait pi pcs) : ReadersWait pi fun t => wakeWriter (pcs t) :=
  waits.mono fun _ _ asleep => wakeWriter_asleep asleep

/-- No reader sleeps while there is something to read, so it may be taken. -/
theorem ReadersWait.take (waits : ReadersWait pi pcs) (left : pi.nread ≠ pi.nwrite) (other : Pipe) :
    ReadersWait other pcs :=
  fun t n asleep => absurd (waits t n asleep).1 left

/-- No writer sleeps while there is room, so it may be filled. -/
theorem WritersWait.store (waits : WritersWait pi pcs)
    (room : pi.nwrite ≠ pi.nread + BitVec.ofNat 32 pipesize) (other : Pipe) : WritersWait other pcs :=
  fun t n i asleep => absurd (waits t n i asleep).1 room

/-- A thread that takes the lock finds every sleeper waiting. -/
theorem outline_enter {killed : Bool} {pc next : PipePc} (enters : Enters pc next)
    (readers : ReadersWait pi pcs) (writers : WritersWait pi pcs) : Outline pi killed pcs next := by
  cases enters with
  | write n i => exact ⟨writers, .inl readers⟩
  | read n => exact ⟨readers, writers⟩

theorem Outline.mono {more : Thread → PipePc} {killed before : Bool} {pc : PipePc}
    (outline : Outline pi before more pc)
    (readers : ReadersWait pi more → ReadersWait pi pcs) (writers : WritersWait pi more → WritersWait pi pcs)
    (spared : killed = before ∨ ∀ n i, pc ≠ .write n i ∧ pc ≠ .writeByte n i) :
    Outline pi killed pcs pc := by
  cases pc with
  | write n i =>
      rcases spared with rfl | spared
      · exact ⟨writers outline.1, outline.2.imp_left readers⟩
      · exact absurd rfl (spared n i).1
  | writeByte n i =>
      rcases spared with rfl | spared
      · exact ⟨writers outline.1, outline.2⟩
      · exact absurd rfl (spared n i).2
  | writeDone i => exact writers outline
  | read n => exact ⟨readers outline.1, writers outline.2⟩
  | readKilled n | readPark n => exact ⟨readers outline.1, writers outline.2.1, outline.2.2⟩
  | readByte n got => exact readers outline
  | readDone got => exact readers outline
  | _ => trivial

variable [DecidableEq Thread]

/-- A thread that moves to a position goes to sleep there only if it may. -/
theorem ReadersWait.update (waits : ReadersWait pi pcs) {t : Thread} {pc : PipePc}
    (may : ∀ n, pc = .readSleep n → pi.nread = pi.nwrite ∧ pi.writeopen = true) :
    ReadersWait pi (Function.update pcs t pc) := by
  intro v n asleep
  by_cases here : v = t
  · subst here
    rw [Function.update_self] at asleep
    exact may n asleep
  · rw [Function.update_of_ne here] at asleep
    exact waits v n asleep

theorem WritersWait.update (waits : WritersWait pi pcs) {t : Thread} {pc : PipePc}
    (may : ∀ n i, pc = .writeSleep n i →
      pi.nwrite = pi.nread + BitVec.ofNat 32 pipesize ∧ pi.readopen = true) :
    WritersWait pi (Function.update pcs t pc) := by
  intro v n i asleep
  by_cases here : v = t
  · subst here
    rw [Function.update_self] at asleep
    exact may n i asleep
  · rw [Function.update_of_ne here] at asleep
    exact waits v n i asleep

end Waits

section Steps

variable {s u : PipeMachine Thread} {event : PipeEvent Thread}

theorem Outlined.holder {t : Thread} (outlined : Outlined s) (owner : s.lock = some t) :
    Outline s.pipe (s.killed t) s.pc (s.pc t) := by
  simpa only [Outlined, owner] using outlined

theorem Outlined.free (outlined : Outlined s) (free : s.lock = none) :
    ReadersWait s.pipe s.pc ∧ WritersWait s.pipe s.pc := by
  simpa only [Outlined, free] using outlined

/-- A thread that returns without a wakeup owes none. -/
theorem outline_quit {t : Thread} (outline : Outline s.pipe (s.killed t) s.pc (s.pc t))
    (quits : Quits s.pipe (s.killed t) (s.pc t)) : ReadersWait s.pipe s.pc ∧ WritersWait s.pipe s.pc := by
  cases position : s.pc t <;> rw [position] at quits outline <;> cases quits
  case write.write n i refused =>
      obtain ⟨writers, readers | ⟨alive, opened⟩⟩ := outline
      · exact ⟨readers, writers⟩
      · rw [alive, opened] at refused
        simp at refused
  case readKilled.read n _ => exact ⟨outline.1, outline.2.1⟩

variable [DecidableEq Thread]

/-- A thread that looks at the pipe moves from one position of the outline to another. -/
theorem outline_look {t : Thread} {pc : PipePc} (outline : Outline s.pipe (s.killed t) s.pc (s.pc t))
    (looks : Looks s.pipe (s.killed t) (s.pc t) pc) :
    Outline s.pipe (s.killed t) (Function.update s.pc t pc) pc := by
  cases position : s.pc t <;> rw [position] at looks outline <;> cases looks
  case write.byte n i opened alive => exact ⟨outline.1.update nofun, alive, opened⟩
  case write.written n i => exact outline.1.update nofun
  case read.empty n same opened => exact ⟨outline.1.update nofun, outline.2.update nofun, same, opened⟩
  case read.ready n _ => exact outline.1.update nofun
  case readKilled.alive n _ => exact ⟨outline.1.update nofun, outline.2.1.update nofun, outline.2.2⟩
  case readByte.taken n got => exact outline.update nofun

/-- A step of a thread outside the lock keeps the outline if it puts no thread to sleep. -/
theorem outlined_outside (outlined : Outlined s) {t : Thread} {pc : PipePc}
    (outside : s.lock ≠ some t) (readers : ∀ n, pc ≠ .readSleep n) (writers : ∀ n i, pc ≠ .writeSleep n i) :
    Outlined (s.goto t pc) := by
  have readersKept (waits : ReadersWait s.pipe s.pc) : ReadersWait s.pipe (Function.update s.pc t pc) :=
    waits.update fun n asleep => absurd asleep (readers n)
  have writersKept (waits : WritersWait s.pipe s.pc) : WritersWait s.pipe (Function.update s.pc t pc) :=
    waits.update fun n i asleep => absurd asleep (writers n i)
  cases owner : s.lock with
  | none =>
      have waits := outlined.free owner
      simp only [Outlined, PipeMachine.goto, owner]
      exact ⟨readersKept waits.1, writersKept waits.2⟩
  | some v =>
      have other : v ≠ t := by
        rintro rfl
        exact outside owner
      simp only [Outlined, PipeMachine.goto, owner, Function.update_of_ne other]
      exact (outlined.holder owner).mono readersKept writersKept (.inl rfl)

/-- `kill` wakes a sleeper, and a holder of the lock that is spared stays where the outline puts it. -/
theorem outlined_kill (outlined : Outlined s) {t : Thread} (locked : Locked s)
    (spares : SparesWriter s (.kill t)) : Outlined (s.kill t) := by
  have readersKept (waits : ReadersWait s.pipe s.pc) :
      ReadersWait s.pipe (Function.update s.pc t (wakeReader (wakeWriter (s.pc t)))) :=
    waits.update fun n asleep => absurd asleep (wakeReader_ne _ _)
  have writersKept (waits : WritersWait s.pipe s.pc) :
      WritersWait s.pipe (Function.update s.pc t (wakeReader (wakeWriter (s.pc t)))) :=
    waits.update fun n i asleep => absurd (wakeReader_asleep asleep) (wakeWriter_ne _ _ _)
  cases owner : s.lock with
  | none =>
      have waits := outlined.free owner
      simp only [Outlined, PipeMachine.kill, PipeMachine.goto, owner]
      exact ⟨readersKept waits.1, writersKept waits.2⟩
  | some v =>
      simp only [Outlined, PipeMachine.kill, PipeMachine.goto, owner]
      by_cases here : v = t
      · subst here
        have inside := (locked v).mpr owner
        have stays : wakeReader (wakeWriter (s.pc v)) = s.pc v := by
          cases position : s.pc v <;> first | rfl | (rw [position] at inside; cases inside)
        rw [Function.update_self, Function.update_self, stays]
        rw [stays] at readersKept writersKept
        exact (outlined.holder owner).mono readersKept writersKept (.inr spares)
      · rw [Function.update_of_ne here, Function.update_of_ne here]
        exact (outlined.holder owner).mono readersKept writersKept (.inl rfl)

/-- Every step that spares the writers keeps the outline. -/
theorem outlined_step (locked : Locked s) (outlined : Outlined s) (spares : SparesWriter s event)
    (move : Move s event u) : Outlined u := by
  have outside {t : Thread} (out : holds (s.pc t) = false) : s.lock ≠ some t := by
    rw [ne_eq, ← locked t, out]
    exact Bool.false_ne_true
  have here {t : Thread} {pc : PipePc} (position : s.pc t = pc) (inside : holds pc = true) :
      s.lock = some t ∧ Outline s.pipe (s.killed t) s.pc pc := by
    have owner := (locked t).mp (position ▸ inside)
    exact ⟨owner, position ▸ outlined.holder owner⟩
  cases move with
  | call t call idle =>
      apply outlined_outside outlined (outside (by rw [idle]; rfl))
      · cases call <;> rintro _ ⟨⟩
      · cases call <;> rintro _ _ ⟨⟩
  | kill t => exact outlined_kill outlined locked spares
  | enter t copy pc free enters =>
      obtain ⟨readers, writers⟩ := outlined.free free
      simp only [Outlined, PipeMachine.goto, Function.update_self]
      apply outline_enter enters
      · exact readers.update fun n asleep => absurd enters.holds.2 (by rw [asleep]; rintro ⟨⟩)
      · exact writers.update fun n i asleep => absurd enters.holds.2 (by rw [asleep]; rintro ⟨⟩)
  | look t copy pc looks =>
      have owner := (locked t).mp looks.holds.1
      simp only [Outlined, PipeMachine.goto, owner, Function.update_self]
      exact outline_look (outlined.holder owner) looks
  | quit t copy quits =>
      have owner := (locked t).mp quits.holds
      obtain ⟨readers, writers⟩ := outline_quit (outlined.holder owner) quits
      exact ⟨readers.update (by rintro _ ⟨⟩), writers.update (by rintro _ _ ⟨⟩)⟩
  | park t copy n position =>
      obtain ⟨_, readers, writers, same, opened⟩ := here position rfl
      exact ⟨readers.update fun _ _ => ⟨same, opened⟩, writers.update (by rintro _ _ ⟨⟩)⟩
  | full t copy n i position full =>
      obtain ⟨_, writers, _, opened⟩ := here position rfl
      exact ⟨readersWait_woken.update (by rintro _ ⟨⟩), writers.wakeReaders.update fun _ _ _ => ⟨full, opened⟩⟩
  | store t copy n i position room ok =>
      obtain ⟨owner, writers, alive, opened⟩ := here position rfl
      simp only [Outlined, PipeMachine.goto, owner, Function.update_self]
      exact ⟨(writers.store room _).update (by rintro _ _ ⟨⟩), .inr ⟨alive, opened⟩⟩
  | unreadable t copy n i position bad =>
      obtain ⟨owner, writers, _⟩ := here position rfl
      simp only [Outlined, PipeMachine.goto, owner, Function.update_self]
      exact writers.update (by rintro _ _ ⟨⟩)
  | take t copy n got pc position more left moved =>
      obtain ⟨owner, readers⟩ := here position rfl
      simp only [Outlined, PipeMachine.goto, owner, Function.update_self]
      rw [moved]
      split_ifs <;> exact (readers.take left _).update (by rintro _ ⟨⟩)
  | written t copy i position =>
      obtain ⟨_, writers⟩ := here position rfl
      exact ⟨readersWait_woken.update (by rintro _ ⟨⟩), WritersWait.update writers.wakeReaders (by rintro _ _ ⟨⟩)⟩
  | returned t copy got position =>
      obtain ⟨_, readers⟩ := here position rfl
      exact ⟨ReadersWait.update readers.wakeWriters (by rintro _ ⟨⟩), writersWait_woken.update (by rintro _ _ ⟨⟩)⟩
  | close t copy writable free position =>
      obtain ⟨readers, writers⟩ := outlined.free free
      cases writable with
      | true =>
          simp only [Outlined, PipeMachine.goto, PipeMachine.close, PipeMachine.wakeReaders, if_true, free]
          exact ⟨readersWait_woken.update (by rintro _ ⟨⟩), WritersWait.update writers.wakeReaders (by rintro _ _ ⟨⟩)⟩
      | false =>
          simp only [Outlined, PipeMachine.goto, PipeMachine.close, PipeMachine.wakeWriters, free]
          exact ⟨ReadersWait.update readers.wakeWriters (by rintro _ ⟨⟩), writersWait_woken.update (by rintro _ _ ⟨⟩)⟩

end Steps

variable [DecidableEq Thread]

/-- In every run in which `kill` spares the writers, whenever the lock is free, a process that sleeps on a
pipe has to: a reader has nothing to read and the write end is open, and a writer has no room and the read
end is open. -/
theorem pipe_never_strands (data : Fin pipesize → Byte)
    {trace : List (PipeMachine Thread × PipeEvent Thread)} {s : PipeMachine Thread}
    (run : Run PipeMachine.Step (PipeMachine.boot data) trace s)
    (spares : ∀ entry ∈ trace, SparesWriter entry.1 entry.2) (free : s.lock = none) :
    (∀ t n, s.pc t = .readSleep n → s.pipe.nread = s.pipe.nwrite ∧ s.pipe.writeopen = true) ∧
      ∀ t n i, s.pc t = .writeSleep n i →
        s.pipe.nwrite = s.pipe.nread + BitVec.ofNat 32 pipesize ∧ s.pipe.readopen = true := by
  have kept : Locked s ∧ Outlined s := by
    have keeps (s : PipeMachine Thread) (event : PipeEvent Thread) (u : PipeMachine Thread)
        (good : SparesWriter s event) (before : Locked s ∧ Outlined s) (stepped : s.Step event u) :
        Locked u ∧ Outlined u := by
      have move := move_next stepped
      exact ⟨locked_step before.1 move, outlined_step before.1 before.2 good move⟩
    exact run.invariant SparesWriter keeps spares ⟨locked_boot data, nofun, nofun⟩
  exact kept.2.free free

/-- The reader `false` goes to sleep on an empty pipe. -/
def readerSleeps : List (PipeEvent Bool) :=
  .call false (.read 1) :: List.replicate 4 (.step false ⟨0, true⟩)

/-- The writer `true` stores one byte of two. -/
def writerStores : List (PipeEvent Bool) :=
  .call true (.write 2) :: List.replicate 3 (.step true ⟨97, true⟩)

/-- A writer that is killed after it has stored a byte leaves the reader asleep. -/
theorem killed_writer_strands_reader :
    ∃ trace s, Run PipeMachine.Step (PipeMachine.boot fun _ => 0 : PipeMachine Bool) trace s ∧
      s.lock = none ∧ s.pc false = .readSleep 1 ∧ s.pipe.nread ≠ s.pipe.nwrite :=
  have played : plays (fun s event => (PipeMachine.next s event).isSome) (computed PipeMachine.next)
      (PipeMachine.boot fun _ => 0) (readerSleeps ++ writerStores ++ [.kill true, .step true ⟨0, true⟩]) = true := by
    decide +kernel
  ⟨_, _, run_computed played, by decide +kernel, by decide +kernel, by decide +kernel⟩

/-- A reader that sleeps on an empty pipe has nothing to read. -/
theorem pipe_never_strands_reader :
    ∃ trace s, Run PipeMachine.Step (PipeMachine.boot fun _ => 0 : PipeMachine Bool) trace s ∧
      s.pc false = .readSleep 1 ∧ s.pipe.nread = s.pipe.nwrite ∧ s.pipe.writeopen = true := by
  have played : plays (fun s event => (PipeMachine.next s event).isSome) (computed PipeMachine.next)
      (PipeMachine.boot fun _ => 0) readerSleeps = true := by
    decide +kernel
  have run := run_computed played
  have spares : ∀ entry ∈ entries (computed PipeMachine.next) (PipeMachine.boot fun _ => 0) readerSleeps,
      SparesWriter entry.1 entry.2 := by
    intro entry inside
    have listed := mem_entries inside
    have calm : ∀ event ∈ readerSleeps, ∀ t, event ≠ .kill t := by
      simp [readerSleeps]
    obtain ⟨s, event⟩ := entry
    cases event with
    | kill t => exact absurd rfl (calm _ listed t)
    | _ => trivial
  have asleep : (readerSleeps.foldl (computed PipeMachine.next) (PipeMachine.boot fun _ => 0)).pc false
      = .readSleep 1 := by
    decide +kernel
  exact ⟨_, _, run, asleep, (pipe_never_strands _ run spares (by decide +kernel)).1 false 1 asleep⟩

end Xv6.Pipes
