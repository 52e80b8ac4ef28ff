/-
This file shows that a pipe is a first-in first-out queue in every run in which `piperead` can copy out each
byte that it takes. A byte that it cannot copy out is gone.
-/

import Xv6.Proof.Pipe.Move

namespace Xv6.Pipes
open TransitionSystem

variable {Thread : Type}

/-- The bytes that a step puts into the buffer. -/
def storedBy (s : PipeMachine Thread) : PipeEvent Thread → List Byte
  | .step t copy =>
      match s.pc t with
      | .writeByte _ _ =>
          if s.pipe.nwrite = s.pipe.nread + BitVec.ofNat 32 pipesize then []
          else if copy.ok then [copy.byte] else []
      | _ => []
  | _ => []

/-- The bytes that a call of `piperead` has copied out when it returns in this step. -/
def reportedBy (s : PipeMachine Thread) : PipeEvent Thread → List Byte
  | .step t _ =>
      match s.pc t with
      | .readDone got => got
      | _ => []
  | _ => []

def stored (trace : List (PipeMachine Thread × PipeEvent Thread)) : List Byte :=
  trace.flatMap fun entry => storedBy entry.1 entry.2

def reported (trace : List (PipeMachine Thread × PipeEvent Thread)) : List Byte :=
  trace.flatMap fun entry => reportedBy entry.1 entry.2

/-- The bytes that a reader has copied out and not yet reported. -/
def hand : PipePc → List Byte
  | .readByte _ got | .readDone got => got
  | _ => []

/-- The bytes that the holder of the lock has copied out and not yet reported. -/
def inHand (s : PipeMachine Thread) : List Byte :=
  match s.lock with
  | none => []
  | some t => hand (s.pc t)

/-- The step is not a `copyout` of `piperead` that fails. -/
def Delivers (s : PipeMachine Thread) : PipeEvent Thread → Prop
  | .step t copy => ∀ n got, s.pc t = .readByte n got → (got.length : Int) < n.toInt →
      s.pipe.nread ≠ s.pipe.nwrite → copy.ok = true
  | _ => True

section Hand

variable {s u : PipeMachine Thread} {event : PipeEvent Thread}

@[simp] theorem hand_wakeReader (pc : PipePc) : hand (wakeReader pc) = hand pc := by
  cases pc <;> rfl

@[simp] theorem hand_wakeWriter (pc : PipePc) : hand (wakeWriter pc) = hand pc := by
  cases pc <;> rfl

theorem hand_start (call : PipeCall) : hand (PipeMachine.start call) = [] := by
  cases call <;> rfl

theorem Enters.hand {pc next : PipePc} (enters : Enters pc next) : hand pc = [] ∧ hand next = [] := by
  cases enters <;> exact ⟨rfl, rfl⟩

theorem Looks.hand {pi : Pipe} {killed : Bool} {pc next : PipePc} (looks : Looks pi killed pc next) :
    hand next = hand pc := by
  cases looks <;> rfl

theorem Quits.hand {pi : Pipe} {killed : Bool} {pc : PipePc} (quits : Quits pi killed pc) :
    hand pc = [] := by
  cases quits <;> rfl

theorem inHand_holder {t : Thread} (owner : s.lock = some t) : inHand s = hand (s.pc t) := by
  simp only [inHand, owner]

theorem inHand_free (free : s.lock = none) : inHand s = [] := by
  simp only [inHand, free]

theorem inHand_congr (lock : u.lock = s.lock) (same : ∀ t, hand (u.pc t) = hand (s.pc t)) :
    inHand u = inHand s := by
  simp only [inHand, lock]
  cases s.lock with
  | none => rfl
  | some t => exact same t

/-- The thread that moves changes its own bytes only. -/
theorem hand_update [DecidableEq Thread] {t : Thread} {pc : PipePc} {pcs : Thread → PipePc}
    (others : ∀ v, hand (pcs v) = hand (s.pc v)) (own : hand pc = hand (s.pc t)) (v : Thread) :
    hand (Function.update pcs t pc v) = hand (s.pc v) := by
  by_cases here : v = t
  · subst here
    rw [Function.update_self, own]
  · rw [Function.update_of_ne here, others]

end Hand

/-- A step that neither stores nor reports a byte. -/
structure Quiet (s : PipeMachine Thread) (event : PipeEvent Thread) (u : PipeMachine Thread) : Prop where
  stored : storedBy s event = []
  reported : reportedBy s event = []
  ring : u.pipe.ring = s.pipe.ring
  hand : inHand u = inHand s

/-- What a step does to the bytes. -/
inductive Effect (s : PipeMachine Thread) (event : PipeEvent Thread) (u : PipeMachine Thread) : Prop where
  | quiet : Quiet s event u → Effect s event u
  | store (byte : Byte) :
      s.pipe.nwrite ≠ s.pipe.nread + BitVec.ofNat 32 pipesize → storedBy s event = [byte] →
      reportedBy s event = [] → u.pipe.ring = s.pipe.ring.push byte → inHand u = inHand s → Effect s event u
  | take :
      s.pipe.nread ≠ s.pipe.nwrite → storedBy s event = [] → reportedBy s event = [] →
      u.pipe.ring = s.pipe.ring.pop →
      (Delivers s event → inHand u = inHand s ++ [s.pipe.ring.cell (RingBuffer.slot s.pipe.ring.head)]) →
      Effect s event u
  | report :
      storedBy s event = [] → reportedBy s event = inHand s → u.pipe.ring = s.pipe.ring → inHand u = [] →
      Effect s event u

section Effects

variable {s u : PipeMachine Thread} {event : PipeEvent Thread}

theorem effect_move [DecidableEq Thread] (locked : Locked s) (move : Move s event u) : Effect s event u := by
  have plain (v : Thread) : hand (s.pc v) = hand (s.pc v) := rfl
  have owner {t : Thread} (inside : holds (s.pc t) = true) : inHand s = hand (s.pc t) :=
    inHand_holder ((locked t).mp inside)
  cases move with
  | call t call idle =>
      refine .quiet ⟨rfl, rfl, rfl, inHand_congr rfl (hand_update plain ?_)⟩
      rw [idle, hand_start]
      rfl
  | kill t => exact .quiet ⟨rfl, rfl, rfl, inHand_congr rfl (hand_update plain (by simp))⟩
  | enter t copy pc free enters =>
      have entered : inHand { s.goto t pc with lock := some t } = [] := by
        simp [inHand, PipeMachine.goto, enters.hand.2]
      refine .quiet ⟨?_, ?_, rfl, entered.trans (inHand_free free).symm⟩
      · cases position : s.pc t <;> rw [position] at enters <;> cases enters <;> simp [storedBy, position]
      · cases position : s.pc t <;> rw [position] at enters <;> cases enters <;> simp [reportedBy, position]
  | look t copy pc looks =>
      refine .quiet ⟨?_, ?_, rfl, inHand_congr rfl (hand_update plain looks.hand)⟩
      · cases position : s.pc t <;> rw [position] at looks <;> cases looks <;> simp [storedBy, position]
      · cases position : s.pc t <;> rw [position] at looks <;> cases looks <;> simp [reportedBy, position]
  | quit t copy quits =>
      refine .quiet ⟨?_, ?_, rfl, (owner quits.holds ▸ quits.hand).symm⟩
      · cases position : s.pc t <;> rw [position] at quits <;> cases quits <;> simp [storedBy, position]
      · cases position : s.pc t <;> rw [position] at quits <;> cases quits <;> simp [reportedBy, position]
  | park t copy n position | written t copy i position =>
      refine .quiet ⟨by simp [storedBy, position], by simp [reportedBy, position], rfl, ?_⟩
      rw [owner (by rw [position]; rfl), position]
      rfl
  | full t copy n i position full =>
      refine .quiet ⟨by simp [storedBy, position, full], by simp [reportedBy, position], rfl, ?_⟩
      rw [owner (by rw [position]; rfl), position]
      rfl
  | store t copy n i position room ok =>
      refine .store copy.byte room (by simp [storedBy, position, room, ok]) (by simp [reportedBy, position]) rfl ?_
      refine inHand_congr rfl (hand_update plain ?_)
      rw [position]
      rfl
  | unreadable t copy n i position bad =>
      refine .quiet ⟨by simp [storedBy, position, bad], by simp [reportedBy, position], rfl, ?_⟩
      refine inHand_congr rfl (hand_update plain ?_)
      rw [position]
      rfl
  | take t copy n got pc position more some_left moved =>
      refine .take some_left (by simp [storedBy, position]) (by simp [reportedBy, position]) rfl ?_
      intro delivers
      have inside : holds (s.pc t) = true := by
        rw [position]
        rfl
      have mine := (locked t).mp inside
      rw [owner inside, moved, if_pos (delivers n got position more some_left), position]
      simp [inHand, mine, PipeMachine.goto, hand, Pipe.ring]
  | returned t copy got position =>
      refine .report (by simp [storedBy, position]) ?_ rfl rfl
      rw [owner (by rw [position]; rfl)]
      simp [reportedBy, position, hand]
  | close t copy writable free position =>
      have stays (v : Thread) : hand (((s.close writable).pc) v) = hand (s.pc v) := by
        cases writable
        · exact hand_wakeWriter _
        · exact hand_wakeReader _
      have same : (s.close writable).lock = s.lock ∧ (s.close writable).pipe.ring = s.pipe.ring := by
        cases writable <;> exact ⟨rfl, rfl⟩
      refine .quiet ⟨by simp [storedBy, position], by simp [reportedBy, position], same.2, ?_⟩
      refine inHand_congr same.1 (hand_update stays ?_)
      rw [position]
      rfl

end Effects

section Ring

variable {pi : Pipe}

theorem count_room (bounded : pi.ring.count ≤ pipesize)
    (room : pi.nwrite ≠ pi.nread + BitVec.ofNat 32 pipesize) : pi.ring.count < pipesize := by
  refine lt_of_le_of_ne bounded fun full => room ?_
  have tail := pi.ring.tail_eq
  rw [full] at tail
  exact tail

theorem count_left (left : pi.nread ≠ pi.nwrite) : pi.ring.count ≠ 0 := by
  intro empty
  have tail := pi.ring.tail_eq
  rw [empty] at tail
  exact left (by simpa [Pipe.ring] using tail.symm)

end Ring

section Bounded

variable {s u : PipeMachine Thread} {event : PipeEvent Thread}

/-- The buffer never holds more bytes than it has cells. -/
theorem count_step (bounded : s.pipe.ring.count ≤ pipesize) (effect : Effect s event u) :
    u.pipe.ring.count ≤ pipesize := by
  cases effect with
  | quiet quiet =>
      rw [quiet.ring]
      exact bounded
  | store byte room _ _ ring _ =>
      have small := count_room bounded room
      rw [ring, s.pipe.ring.count_push byte (by simp only [pipesize] at small; omega)]
      exact small
  | take left _ _ ring _ =>
      have popped := s.pipe.ring.count_pop (count_left left)
      rw [ring]
      omega
  | report _ _ ring _ =>
      rw [ring]
      exact bounded

/-- The bytes stored so far were reported, are in the hand of a reader or are in the buffer. -/
def Lossless (trace : List (PipeMachine Thread × PipeEvent Thread)) (s : PipeMachine Thread) : Prop :=
  stored trace = reported trace ++ inHand s ++ s.pipe.ring.contents

theorem lossless_step {trace : List (PipeMachine Thread × PipeEvent Thread)}
    (bounded : s.pipe.ring.count ≤ pipesize) (lossless : Lossless trace s) (delivers : Delivers s event)
    (effect : Effect s event u) : Lossless (trace ++ [(s, event)]) u := by
  have storedAll : stored (trace ++ [(s, event)]) = stored trace ++ storedBy s event := by
    simp [stored]
  have reportedAll : reported (trace ++ [(s, event)]) = reported trace ++ reportedBy s event := by
    simp [reported]
  unfold Lossless at lossless ⊢
  rw [storedAll, reportedAll, lossless]
  cases effect with
  | quiet quiet => simp [quiet.stored, quiet.reported, quiet.ring, quiet.hand]
  | store byte room stored reported ring hand =>
      have pushed := s.pipe.ring.contents_push byte (by decide) (count_room bounded room) (by decide)
      simp [stored, reported, ring, hand, pushed]
  | take left stored reported ring hand =>
      have popped := s.pipe.ring.contents_pop (count_left left)
      simp [stored, reported, ring, hand delivers, popped]
  | report stored reported ring hand => simp [stored, reported, ring, hand]

end Bounded

/-- At most one thread is inside the lock, and the buffer holds at most as many bytes as it has cells. -/
def Sound (s : PipeMachine Thread) : Prop := Locked s ∧ s.pipe.ring.count ≤ pipesize

theorem sound_boot (data : Fin pipesize → Byte) : Sound (PipeMachine.boot data : PipeMachine Thread) := by
  refine ⟨locked_boot data, ?_⟩
  simp [PipeMachine.boot, pipealloc, Pipe.ring, RingBuffer.count]

theorem lossless_boot (data : Fin pipesize → Byte) :
    Lossless [] (PipeMachine.boot data : PipeMachine Thread) := by
  simp [Lossless, stored, reported, inHand, PipeMachine.boot, pipealloc, Pipe.ring, RingBuffer.contents,
    RingBuffer.count]

variable [DecidableEq Thread]

theorem sound_step {s u : PipeMachine Thread} {event : PipeEvent Thread} (sound : Sound s)
    (stepped : s.Step event u) : Sound u := by
  have move := move_next stepped
  exact ⟨locked_step sound.1 move, count_step sound.2 (effect_move sound.1 move)⟩

/-- In every run the counters are at most the size of the buffer apart. If no `copyout` of `piperead` fails,
the bytes that were stored are those reported, then those that a reader holds, then those in the buffer. -/
theorem pipe_lossless (data : Fin pipesize → Byte) {trace : List (PipeMachine Thread × PipeEvent Thread)}
    {s : PipeMachine Thread} (run : Run PipeMachine.Step (PipeMachine.boot data) trace s) :
    (s.pipe.nwrite - s.pipe.nread).toNat ≤ pipesize ∧
      ((∀ entry ∈ trace, Delivers entry.1 entry.2) →
        stored trace = reported trace ++ inHand s ++ s.pipe.ring.contents ∧
        (s.lock = none → stored trace = reported trace ++ s.pipe.ring.contents)) := by
  have sound : Sound s :=
    Reachable.invariant ⟨trace, run⟩ (fun _ _ _ before stepped => sound_step before stepped) (sound_boot data)
  refine ⟨sound.2, fun delivers => ?_⟩
  have kept : Sound s ∧ Lossless trace s := by
    have keeps (trace : List (PipeMachine Thread × PipeEvent Thread)) (s : PipeMachine Thread)
        (event : PipeEvent Thread) (u : PipeMachine Thread) (good : Delivers s event)
        (before : Sound s ∧ Lossless trace s) (stepped : s.Step event u) :
        Sound u ∧ Lossless (trace ++ [(s, event)]) u := by
      have effect := effect_move before.1.1 (move_next stepped)
      exact ⟨sound_step before.1 stepped, lossless_step before.1.2 before.2 good effect⟩
    exact run.history Delivers keeps delivers ⟨sound_boot data, lossless_boot data⟩
  refine ⟨kept.2, fun free => ?_⟩
  have all := kept.2
  rw [Lossless, inHand_free free, List.append_nil] at all
  exact all

/-- The events of a call, each step with a good copy of the byte. -/
def callOf (call : PipeCall) (copies : List UserByte) : List (PipeEvent Unit) :=
  .call () call :: copies.map fun copy => .step () copy

/-- A byte that the user's page has or takes. -/
def good (byte : Byte) : UserByte := ⟨byte, true⟩

/-- One thread writes two bytes. -/
def writeTwo : List (PipeEvent Unit) :=
  callOf (.write 2) [good 0, good 0, good 97, good 0, good 98, good 0, good 0]

/-- One thread reads one byte, to a page that takes it or not. -/
def readOne (ok : Bool) : List (PipeEvent Unit) :=
  callOf (.read 1) [good 0, good 0, ⟨0, ok⟩, good 0] ++ if ok then [.step () (good 0)] else []

/-- The entries of a run of one thread on a new pipe. -/
def soloTrace (events : List (PipeEvent Unit)) : List (PipeMachine Unit × PipeEvent Unit) :=
  entries (computed PipeMachine.next) (PipeMachine.boot fun _ => 0) events

/-- A run of one thread that reads a byte that it has written. -/
theorem pipe_lossless_solo :
    Run PipeMachine.Step (PipeMachine.boot fun _ => 0) (soloTrace (writeTwo ++ readOne true))
        ((writeTwo ++ readOne true).foldl (computed PipeMachine.next) (PipeMachine.boot fun _ => 0)) ∧
      stored (soloTrace (writeTwo ++ readOne true)) = [97, 98] ∧
      reported (soloTrace (writeTwo ++ readOne true)) = [97] ∧
      stored (soloTrace (writeTwo ++ readOne true)) =
        reported (soloTrace (writeTwo ++ readOne true)) ++
          ((writeTwo ++ readOne true).foldl (computed PipeMachine.next)
            (PipeMachine.boot fun _ => 0)).pipe.ring.contents := by
  have run : Run PipeMachine.Step (PipeMachine.boot fun _ => 0) (soloTrace (writeTwo ++ readOne true)) _ :=
    run_computed (by decide +kernel)
  refine ⟨run, by decide +kernel, by decide +kernel, ?_⟩
  refine ((pipe_lossless (fun _ => 0) run).2 ?_).2 (by decide +kernel)
  have copies : ∀ event ∈ writeTwo ++ readOne true, ∀ t copy, event = .step t copy → copy.ok = true := by
    simp [writeTwo, readOne, callOf, good]
  intro entry inside
  obtain ⟨s, event⟩ := entry
  have listed := mem_entries inside
  cases event with
  | step t copy => exact fun _ _ _ _ _ => copies _ listed t copy rfl
  | _ => trivial

/-- A byte that `piperead` could not copy out is lost: the next byte is reported first. -/
theorem failed_copyout_loses_byte :
    Run PipeMachine.Step (PipeMachine.boot fun _ => 0)
        (soloTrace (writeTwo ++ readOne false ++ readOne true))
        ((writeTwo ++ readOne false ++ readOne true).foldl (computed PipeMachine.next)
          (PipeMachine.boot fun _ => 0)) ∧
      stored (soloTrace (writeTwo ++ readOne false ++ readOne true)) = [97, 98] ∧
      reported (soloTrace (writeTwo ++ readOne false ++ readOne true)) = [98] ∧
      ((writeTwo ++ readOne false ++ readOne true).foldl (computed PipeMachine.next)
        (PipeMachine.boot fun _ => 0)).pipe.ring.contents = [] :=
  ⟨run_computed (by decide +kernel), by decide +kernel, by decide +kernel, by decide +kernel⟩

end Xv6.Pipes
