/-
This file lists what a step of the threads on a pipe can do, and shows that at most one thread is inside
the lock.
-/

import Xv6.Kernel.Pipe

namespace Xv6.Pipes
open TransitionSystem

variable {Thread : Type} [DecidableEq Thread]

/-- The thread is between the lock and its release. -/
def holds : PipePc → Bool
  | .write _ _ | .writeByte _ _ | .writeDone _ | .read _ | .readKilled _ | .readPark _ | .readByte _ _
  | .readDone _ => true
  | _ => false

/-- The position after the lock has been taken. -/
inductive Enters : PipePc → PipePc → Prop where
  | write (n : CInt) (i : Nat) : Enters (.writeLock n i) (.write n i)
  | read (n : CInt) : Enters (.readLock n) (.read n)

/-- A part of a call that only looks at the pipe and keeps the lock. -/
inductive Looks (pi : Pipe) (killed : Bool) : PipePc → PipePc → Prop where
  | byte (n : CInt) (i : Nat) : pi.readopen = true → killed = false → Looks pi killed (.write n i) (.writeByte n i)
  | written (n : CInt) (i : Nat) : Looks pi killed (.write n i) (.writeDone i)
  | empty (n : CInt) : pi.nread = pi.nwrite → pi.writeopen = true → Looks pi killed (.read n) (.readKilled n)
  | ready (n : CInt) :
      ¬ (pi.nread = pi.nwrite ∧ pi.writeopen = true) → Looks pi killed (.read n) (.readByte n [])
  | alive (n : CInt) : killed = false → Looks pi killed (.readKilled n) (.readPark n)
  | taken (n : CInt) (got : List Byte) : Looks pi killed (.readByte n got) (.readDone got)

/-- A part of a call that returns without a wakeup. -/
inductive Quits (pi : Pipe) (killed : Bool) : PipePc → Prop where
  | write (n : CInt) (i : Nat) : pi.readopen = false ∨ killed = true → Quits pi killed (.write n i)
  | read (n : CInt) : killed = true → Quits pi killed (.readKilled n)

/-- What a step can do. -/
inductive Move (s : PipeMachine Thread) : PipeEvent Thread → PipeMachine Thread → Prop where
  | call (t : Thread) (call : PipeCall) :
      s.pc t = .idle → Move s (.call t call) (s.goto t (PipeMachine.start call))
  | kill (t : Thread) : Move s (.kill t) (s.kill t)
  | enter (t : Thread) (copy : UserByte) (pc : PipePc) :
      s.lock = none → Enters (s.pc t) pc → Move s (.step t copy) { s.goto t pc with lock := some t }
  | look (t : Thread) (copy : UserByte) (pc : PipePc) :
      Looks s.pipe (s.killed t) (s.pc t) pc → Move s (.step t copy) (s.goto t pc)
  | quit (t : Thread) (copy : UserByte) :
      Quits s.pipe (s.killed t) (s.pc t) → Move s (.step t copy) (s.goto t .idle).release
  | park (t : Thread) (copy : UserByte) (n : CInt) :
      s.pc t = .readPark n → Move s (.step t copy) (s.goto t (.readSleep n)).release
  | full (t : Thread) (copy : UserByte) (n : CInt) (i : Nat) :
      s.pc t = .writeByte n i → s.pipe.nwrite = s.pipe.nread + BitVec.ofNat 32 pipesize →
      Move s (.step t copy) (s.wakeReaders.goto t (.writeSleep n i)).release
  | store (t : Thread) (copy : UserByte) (n : CInt) (i : Nat) :
      s.pc t = .writeByte n i → s.pipe.nwrite ≠ s.pipe.nread + BitVec.ofNat 32 pipesize → copy.ok = true →
      Move s (.step t copy) { s.goto t (.write n (i + 1)) with
        pipe := { s.pipe with
          data := Function.update s.pipe.data (RingBuffer.slot s.pipe.nwrite) copy.byte
          nwrite := s.pipe.nwrite + 1 } }
  | unreadable (t : Thread) (copy : UserByte) (n : CInt) (i : Nat) :
      s.pc t = .writeByte n i → copy.ok = false → Move s (.step t copy) (s.goto t (.writeDone i))
  | take (t : Thread) (copy : UserByte) (n : CInt) (got : List Byte) (pc : PipePc) :
      s.pc t = .readByte n got → (got.length : Int) < n.toInt → s.pipe.nread ≠ s.pipe.nwrite →
      pc = (if copy.ok then .readByte n (got ++ [s.pipe.data (RingBuffer.slot s.pipe.nread)])
        else .readDone got) →
      Move s (.step t copy) { s.goto t pc with pipe := { s.pipe with nread := s.pipe.nread + 1 } }
  | written (t : Thread) (copy : UserByte) (i : Nat) :
      s.pc t = .writeDone i → Move s (.step t copy) (s.wakeReaders.goto t .idle).release
  | returned (t : Thread) (copy : UserByte) (got : List Byte) :
      s.pc t = .readDone got → Move s (.step t copy) (s.wakeWriters.goto t .idle).release
  | close (t : Thread) (copy : UserByte) (writable : Bool) :
      s.lock = none → s.pc t = .closeLock writable →
      Move s (.step t copy) ((s.close writable).goto t .idle)

variable {s u : PipeMachine Thread} {event : PipeEvent Thread}

theorem move_writeByte {t : Thread} {n : CInt} {i : Nat} (copy : UserByte)
    (position : s.pc t = .writeByte n i) : Move s (.step t copy) (s.writeByte t n i copy) := by
  unfold PipeMachine.writeByte
  split_ifs with full ok
  · exact .full t copy n i position full
  · exact .store t copy n i position full ok
  · exact .unreadable t copy n i position (Bool.eq_false_iff.mpr ok)

theorem move_readByte {t : Thread} {n : CInt} {got : List Byte} (copy : UserByte)
    (position : s.pc t = .readByte n got) : Move s (.step t copy) (s.readByte t n got copy) := by
  have done : Move s (.step t copy) (s.goto t (.readDone got)) := by
    apply Move.look
    rw [position]
    exact .taken n got
  unfold PipeMachine.readByte
  dsimp only
  split_ifs with more empty ok
  · exact done
  · exact .take t copy n got _ position more empty (by rw [if_pos ok])
  · exact .take t copy n got _ position more empty (by rw [if_neg ok])
  · exact done

/-- Every step makes one of the listed moves. -/
theorem move_next (stepped : s.Step event u) : Move s event u := by
  unfold PipeMachine.Step PipeMachine.next at stepped
  cases event with
  | call t call =>
      dsimp only at stepped
      split_ifs at stepped with idle
      obtain rfl := Option.some.inj stepped
      exact .call t call idle
  | kill t =>
      obtain rfl := Option.some.inj stepped
      exact .kill t
  | step t copy =>
      dsimp only [PipeMachine.step] at stepped
      cases position : s.pc t with
      | idle => simp [position] at stepped
      | writeSleep n i => simp [position] at stepped
      | readSleep n => simp [position] at stepped
      | writeLock n i =>
          simp only [position, PipeMachine.acquire] at stepped
          split_ifs at stepped with free
          obtain rfl := Option.some.inj stepped
          exact .enter t copy _ free (position ▸ .write n i)
      | readLock n =>
          simp only [position, PipeMachine.acquire] at stepped
          split_ifs at stepped with free
          obtain rfl := Option.some.inj stepped
          exact .enter t copy _ free (position ▸ .read n)
      | write n i =>
          simp only [position] at stepped
          split_ifs at stepped with more refused
          · obtain rfl := Option.some.inj stepped
            exact .quit t copy (position ▸ .write n i refused)
          · obtain rfl := Option.some.inj stepped
            have fine : s.pipe.readopen = true ∧ s.killed t = false := by simpa using refused
            exact .look t copy _ (position ▸ .byte n i fine.1 fine.2)
          · obtain rfl := Option.some.inj stepped
            exact .look t copy _ (position ▸ .written n i)
      | writeByte n i =>
          simp only [position, Option.some.injEq] at stepped
          subst stepped
          exact move_writeByte copy position
      | writeDone i =>
          simp only [position, Option.some.injEq] at stepped
          subst stepped
          exact .written t copy i position
      | read n =>
          simp only [position] at stepped
          split_ifs at stepped with empty
          · obtain rfl := Option.some.inj stepped
            exact .look t copy _ (position ▸ .empty n empty.1 empty.2)
          · obtain rfl := Option.some.inj stepped
            exact .look t copy _ (position ▸ .ready n empty)
      | readKilled n =>
          simp only [position] at stepped
          split_ifs at stepped with dead
          · obtain rfl := Option.some.inj stepped
            exact .quit t copy (position ▸ .read n dead)
          · obtain rfl := Option.some.inj stepped
            exact .look t copy _ (position ▸ .alive n (Bool.eq_false_iff.mpr dead))
      | readPark n =>
          simp only [position, Option.some.injEq] at stepped
          subst stepped
          exact .park t copy n position
      | readByte n got =>
          simp only [position, Option.some.injEq] at stepped
          subst stepped
          exact move_readByte copy position
      | readDone got =>
          simp only [position, Option.some.injEq] at stepped
          subst stepped
          exact .returned t copy got position
      | closeLock writable =>
          simp only [position] at stepped
          split_ifs at stepped with free
          obtain rfl := Option.some.inj stepped
          exact .close t copy writable free position

section Lock

/-- The thread inside the lock is the one that the lock names. -/
def Locked (s : PipeMachine Thread) : Prop := ∀ t, holds (s.pc t) = true ↔ s.lock = some t

@[simp] theorem holds_wakeReader (pc : PipePc) : holds (wakeReader pc) = holds pc := by
  cases pc <;> rfl

@[simp] theorem holds_wakeWriter (pc : PipePc) : holds (wakeWriter pc) = holds pc := by
  cases pc <;> rfl

theorem Enters.holds {pc next : PipePc} (enters : Enters pc next) :
    holds pc = false ∧ holds next = true := by
  cases enters <;> exact ⟨rfl, rfl⟩

theorem Looks.holds {pi : Pipe} {killed : Bool} {pc next : PipePc} (looks : Looks pi killed pc next) :
    holds pc = true ∧ holds next = true := by
  cases looks <;> exact ⟨rfl, rfl⟩

theorem Quits.holds {pi : Pipe} {killed : Bool} {pc : PipePc} (quits : Quits pi killed pc) :
    holds pc = true := by
  cases quits <;> rfl

theorem locked_step (locked : Locked s) (move : Move s event u) : Locked u := by
  have keep {t : Thread} {pc : PipePc} {pcs : Thread → PipePc} (same : ∀ v, holds (pcs v) = holds (s.pc v))
      (kept : holds pc = holds (s.pc t)) (v : Thread) :
      holds (Function.update pcs t pc v) = true ↔ s.lock = some v := by
    by_cases here : v = t
    · subst here
      rw [Function.update_self, kept]
      exact locked v
    · rw [Function.update_of_ne here, same]
      exact locked v
  have leave {t : Thread} {pc : PipePc} {pcs : Thread → PipePc} (same : ∀ v, holds (pcs v) = holds (s.pc v))
      (inside : holds (s.pc t) = true) (out : holds pc = false) (v : Thread) :
      holds (Function.update pcs t pc v) = true ↔ none = some v := by
    have owner := (locked t).mp inside
    by_cases here : v = t
    · subst here
      simp [out]
    · rw [Function.update_of_ne here, same, locked v, owner]
      simp [Ne.symm here]
  have plain (v : Thread) : holds (s.pc v) = holds (s.pc v) := rfl
  cases move with
  | call t call idle =>
      refine keep plain ?_
      rw [idle]
      cases call <;> rfl
  | kill t => exact keep plain (by simp)
  | enter t copy pc free enters =>
      intro v
      by_cases here : v = t
      · subst here
        simp [PipeMachine.goto, enters.holds.2]
      · have out : holds (s.pc v) = false := by
          rw [Bool.eq_false_iff, ne_eq, locked v, free]
          nofun
        simp [PipeMachine.goto, here, out, Ne.symm here]
  | look t copy pc looks => exact keep plain (looks.holds.2.trans looks.holds.1.symm)
  | quit t copy quits => exact leave plain quits.holds rfl
  | park t copy n position => exact leave plain (by rw [position]; rfl) rfl
  | full t copy n i position => exact leave (fun v => holds_wakeReader _) (by rw [position]; rfl) rfl
  | store t copy n i position | unreadable t copy n i position => exact keep plain (by rw [position]; rfl)
  | take t copy n got pc position _ _ moved =>
      refine keep plain ?_
      rw [moved, position]
      split_ifs <;> rfl
  | written t copy i position => exact leave (fun v => holds_wakeReader _) (by rw [position]; rfl) rfl
  | returned t copy got position => exact leave (fun v => holds_wakeWriter _) (by rw [position]; rfl) rfl
  | close t copy writable free position =>
      cases writable with
      | true => exact keep (fun v => holds_wakeReader _) (by rw [position]; rfl)
      | false => exact keep (fun v => holds_wakeWriter _) (by rw [position]; rfl)

omit [DecidableEq Thread] in
theorem locked_boot (data : Fin pipesize → Byte) : Locked (PipeMachine.boot data : PipeMachine Thread) :=
  fun _ => ⟨nofun, nofun⟩

end Lock

end Xv6.Pipes
