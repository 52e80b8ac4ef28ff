/-
This file lists what a step of the processes on the buffer cache can do.
-/

import Xv6.Kernel.Bio

namespace Xv6.Bio
open TransitionSystem

variable {Data : Type}

/-- What a step can do. -/
inductive Move (s : Bcache Data) : BioEvent Data → Bcache Data → Prop where
  | read (t : Slot) (key : BlockKey) : s.pc t = .idle → Move s (.read t key) (s.goto t (.get key))
  | store (t : Slot) (b : BufIndex) (data : Data) :
      s.pc t = .idle → (s.buf b).lock = some t →
      Move s (.store t b data) (s.setBuf b { s.buf b with data := data })
  | write (t : Slot) (b : BufIndex) :
      s.pc t = .idle → (s.buf b).lock = some t → Move s (.write t b) (s.goto t (.write b))
  | release (t : Slot) (b : BufIndex) :
      s.pc t = .idle → (s.buf b).lock = some t → Move s (.release t b) (s.goto t (.unlock b))
  | badWrite (t : Slot) (b : BufIndex) :
      (s.buf b).lock ≠ some t → Move s (.write t b) { s with panic := some .bwrite }
  | badRelease (t : Slot) (b : BufIndex) :
      (s.buf b).lock ≠ some t → Move s (.release t b) { s with panic := some .brelse }
  | pin (t : Slot) (b : BufIndex) :
      (s.buf b).lock = some t → s.pins b < logsize →
      Move s (.pin t b) { s.setBuf b { s.buf b with refcnt := (s.buf b).refcnt + 1 } with
        pins := Function.update s.pins b (s.pins b + 1) }
  | unpin (t : Slot) (b : BufIndex) :
      0 < s.pins b →
      Move s (.unpin t b) { s.setBuf b { s.buf b with refcnt := (s.buf b).refcnt - 1 } with
        pins := Function.update s.pins b (s.pins b - 1) }
  | hit (t : Slot) (key : BlockKey) (b : BufIndex) :
      s.pc t = .get key → s.cached key = some b →
      Move s (.step t) ((s.setBuf b { s.buf b with refcnt := (s.buf b).refcnt + 1 }).goto t (.lock b key))
  | recycle (t : Slot) (key : BlockKey) (b : BufIndex) :
      s.pc t = .get key → s.cached key = none → s.unused = some b →
      Move s (.step t)
        ((s.setBuf b { s.buf b with key := key, valid := false, refcnt := 1 }).goto t (.lock b key))
  | full (t : Slot) (key : BlockKey) :
      s.pc t = .get key → s.cached key = none → s.unused = none →
      Move s (.step t) { s with panic := some .bget }
  | lock (t : Slot) (b : BufIndex) (key : BlockKey) :
      s.pc t = .lock b key → (s.buf b).lock = none →
      Move s (.step t) ((s.setBuf b { s.buf b with lock := some t }).goto t (.fill b key))
  | ready (t : Slot) (b : BufIndex) (key : BlockKey) :
      s.pc t = .fill b key → (s.buf b).valid = true → Move s (.step t) (s.goto t .idle)
  | load (t : Slot) (b : BufIndex) (key : BlockKey) :
      s.pc t = .fill b key → (s.buf b).valid = false →
      Move s (.step t) ((s.setBuf b { s.buf b with data := s.disk (s.buf b).key.2 }).goto t (.filled b key))
  | loaded (t : Slot) (b : BufIndex) (key : BlockKey) :
      s.pc t = .filled b key →
      Move s (.step t) ((s.setBuf b { s.buf b with valid := true }).goto t .idle)
  | flush (t : Slot) (b : BufIndex) :
      s.pc t = .write b →
      Move s (.step t)
        ({ s with disk := Function.update s.disk (s.buf b).key.2 (s.buf b).data }.goto t .idle)
  | unlock (t : Slot) (b : BufIndex) :
      s.pc t = .unlock b → Move s (.step t) ((s.setBuf b { s.buf b with lock := none }).goto t (.drop b))
  | drop (t : Slot) (b : BufIndex) : s.pc t = .drop b → Move s (.step t) (s.drop t b)

variable {s u : Bcache Data} {event : BioEvent Data}

theorem move_step {t : Slot} (stepped : s.step t = some u) : Move s (.step t) u := by
  unfold Bcache.step at stepped
  cases position : s.pc t with
  | idle => simp [position] at stepped
  | get key =>
      simp only [position, Option.some.injEq] at stepped
      subst stepped
      unfold Bcache.bget
      cases found : s.cached key with
      | some b => exact .hit t key b position found
      | none =>
          cases free : s.unused with
          | some b => exact .recycle t key b position found free
          | none => exact .full t key position found free
  | lock b key =>
      simp only [position] at stepped
      split_ifs at stepped with free
      obtain rfl := Option.some.inj stepped
      exact .lock t b key position free
  | fill b key =>
      simp only [position] at stepped
      split_ifs at stepped with valid
      · obtain rfl := Option.some.inj stepped
        exact .ready t b key position valid
      · obtain rfl := Option.some.inj stepped
        exact .load t b key position (Bool.eq_false_iff.mpr valid)
  | filled b key =>
      simp only [position, Option.some.injEq] at stepped
      subst stepped
      exact .loaded t b key position
  | write b =>
      simp only [position, Option.some.injEq] at stepped
      subst stepped
      exact .flush t b position
  | unlock b =>
      simp only [position, Option.some.injEq] at stepped
      subst stepped
      exact .unlock t b position
  | drop b =>
      simp only [position, Option.some.injEq] at stepped
      subst stepped
      exact .drop t b position

/-- Every step makes one of the listed moves. -/
theorem move_next (stepped : s.Step event u) : Move s event u := by
  unfold Bcache.Step Bcache.next at stepped
  cases event with
  | step t =>
      dsimp only at stepped
      split_ifs at stepped
      exact move_step stepped
  | read t key =>
      dsimp only at stepped
      split_ifs at stepped with legal
      obtain rfl := Option.some.inj stepped
      exact .read t key legal.2
  | store t b data =>
      dsimp only at stepped
      split_ifs at stepped with legal
      obtain rfl := Option.some.inj stepped
      exact .store t b data legal.2.1 (of_decide_eq_true legal.2.2)
  | write t b =>
      dsimp only at stepped
      split_ifs at stepped with legal held
      · obtain rfl := Option.some.inj stepped
        exact .write t b legal.2 (of_decide_eq_true held)
      · obtain rfl := Option.some.inj stepped
        exact .badWrite t b fun locked => held (decide_eq_true locked)
  | release t b =>
      dsimp only at stepped
      split_ifs at stepped with legal held
      · obtain rfl := Option.some.inj stepped
        exact .release t b legal.2 (of_decide_eq_true held)
      · obtain rfl := Option.some.inj stepped
        exact .badRelease t b fun locked => held (decide_eq_true locked)
  | pin t b =>
      dsimp only at stepped
      split_ifs at stepped with legal
      obtain rfl := Option.some.inj stepped
      exact .pin t b (of_decide_eq_true legal.2.2.1) legal.2.2.2
  | unpin t b =>
      dsimp only at stepped
      split_ifs at stepped with legal
      obtain rfl := Option.some.inj stepped
      exact .unpin t b legal.2.2

end Xv6.Bio
