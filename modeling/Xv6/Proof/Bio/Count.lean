/-
This file shows that the reference count of a buffer is the number of its holders, waiters and pins.
-/

import Xv6.Lib.Tally
import Xv6.Proof.Bio.Move

namespace Xv6.Bio
open TransitionSystem

variable {Data : Type}

/-- The process waits for the buffer's sleep lock in `bget`. -/
def waits (b : BufIndex) : BioPc → Nat
  | .lock c _ => if c = b then 1 else 0
  | _ => 0

/-- The process has given up the buffer's sleep lock in `brelse` and not yet its reference. -/
def leaves (b : BufIndex) : BioPc → Nat
  | .drop c => if c = b then 1 else 0
  | _ => 0

/-- The sleep lock is held. -/
def locked (buf : Buf Data) : Nat := if buf.lock = none then 0 else 1

/-- The processes that got the buffer and have not finished its release. -/
def holders (s : Bcache Data) (b : BufIndex) : Nat := locked (s.buf b) + ∑ t, leaves b (s.pc t)

def waiters (s : Bcache Data) (b : BufIndex) : Nat := ∑ t, waits b (s.pc t)

/-- The references of a process to a buffer whose sleep lock it does not hold. -/
def uses (b : BufIndex) : BioPc → Nat
  | .lock c _ | .drop c => if c = b then 1 else 0
  | _ => 0

/-- All references to a buffer. -/
def refs (s : Bcache Data) (b : BufIndex) : Nat := locked (s.buf b) + ∑ t, uses b (s.pc t) + s.pins b

theorem uses_le (b : BufIndex) (pc : BioPc) : uses b pc ≤ 1 := by
  cases pc <;> simp only [uses, Nat.zero_le] <;> split <;> omega

theorem refs_eq (s : Bcache Data) (b : BufIndex) : refs s b = holders s b + waiters s b + s.pins b := by
  have split (pc : BioPc) : uses b pc = leaves b pc + waits b pc := by
    cases pc <;> simp [uses, leaves, waits]
  have total : ∑ t, uses b (s.pc t) = ∑ t, leaves b (s.pc t) + ∑ t, waits b (s.pc t) := by
    rw [← Finset.sum_add_distrib]
    exact Finset.sum_congr rfl fun t _ => split _
  unfold refs holders waiters
  omega

section Held

variable {s u : Bcache Data} {event : BioEvent Data}

/-- The process is at a position at which it holds the buffer's sleep lock. -/
def inside (b : BufIndex) : BioPc → Prop
  | .fill c _ | .filled c _ | .write c | .unlock c => c = b
  | _ => False

/-- A process inside a call on a buffer holds its sleep lock. -/
def Held (s : Bcache Data) : Prop := ∀ t b, inside b (s.pc t) → (s.buf b).lock = some t

theorem cached_key {key : BlockKey} {b : BufIndex} (found : s.cached key = some b) : (s.buf b).key = key := by
  have holds := Links.findNext_some found
  exact of_decide_eq_true holds

theorem unused_zero {b : BufIndex} (found : s.unused = some b) : (s.buf b).refcnt = 0 := by
  have holds := Links.findNext_some found
  exact of_decide_eq_true holds

/-- One process moves to a position at which it holds what it has to hold. -/
theorem Held.change (held : Held s) (t : Slot) (moved : ∀ v, v ≠ t → u.pc v = s.pc v)
    (locks : ∀ v b, v ≠ t → (s.buf b).lock = some v → (u.buf b).lock = some v)
    (own : ∀ b, inside b (u.pc t) → (u.buf b).lock = some t) : Held u := by
  intro v b within
  by_cases here : v = t
  · subst here
    exact own b within
  · rw [moved v here] at within
    exact locks v b here (held v b within)

theorem Held.goto (held : Held s) {t : Slot} {pc : BioPc}
    (own : ∀ b, inside b pc → (s.buf b).lock = some t) : Held (s.goto t pc) := by
  refine held.change t (fun v other => Function.update_of_ne other _ _) (fun _ _ _ locked => locked) ?_
  simpa [Bcache.goto] using own

theorem Held.setBuf (held : Held s) {t : Slot} {b : BufIndex} {buf : Buf Data} {pc : BioPc}
    (kept : ∀ v, v ≠ t → (s.buf b).lock = some v → buf.lock = some v)
    (own : ∀ c, inside c pc → c = b ∧ buf.lock = some t) : Held ((s.setBuf b buf).goto t pc) := by
  refine held.change t (fun v other => Function.update_of_ne other _ _) (fun v c other locked => ?_) ?_
  · by_cases here : c = b
    · subst here
      simpa [Bcache.goto, Bcache.setBuf] using kept v other locked
    · simpa [Bcache.goto, Bcache.setBuf, here] using locked
  · intro c within
    have at_pc : inside c pc := by simpa [Bcache.goto] using within
    obtain ⟨rfl, locked⟩ := own c at_pc
    simpa [Bcache.goto, Bcache.setBuf] using locked

theorem Held.drop (held : Held s) {t : Slot} {b : BufIndex} : Held (s.drop t b) := by
  have dropped : Held ((s.setBuf b { s.buf b with refcnt := (s.buf b).refcnt - 1 }).goto t .idle) :=
    held.setBuf (fun _ _ locked => locked) fun _ within => within.elim
  unfold Bcache.drop
  dsimp only
  split_ifs
  · exact dropped
  · exact dropped

/-- Every step keeps the holders of the sleep locks. -/
theorem held_step (held : Held s) (move : Move s event u) : Held u := by
  cases move with
  | read t key idle => exact held.goto fun _ within => within.elim
  | store t b data idle locked =>
      refine held.change t (fun _ _ => rfl) (fun v c _ kept => ?_) fun c within => ?_
      · by_cases here : c = b
        · subst here
          simpa [Bcache.setBuf] using kept
        · simpa [Bcache.setBuf, here] using kept
      · have at_idle : inside c (s.pc t) := within
        rw [idle] at at_idle
        exact at_idle.elim
  | write t b idle locked | release t b idle locked =>
      refine held.goto fun c within => ?_
      obtain rfl : b = c := within
      exact locked
  | badWrite t b unheld => exact held
  | badRelease t b unheld => exact held
  | full t key position missing none => exact held
  | pin t b locked room | unpin t b pinned =>
      intro v c within
      have kept := held v c within
      by_cases here : c = b
      · subst here
        simpa [Bcache.setBuf] using kept
      · simpa [Bcache.setBuf, here] using kept
  | hit t key b position found => exact held.setBuf (fun _ _ locked => locked) fun _ within => within.elim
  | recycle t key b position missing found =>
      exact held.setBuf (fun _ _ locked => locked) fun _ within => within.elim
  | lock t b key position free =>
      apply held.setBuf
      · intro v _ locked
        rw [free] at locked
        cases locked
      · intro c within
        exact ⟨within.symm, rfl⟩
  | ready t b key position valid => exact held.goto fun _ within => within.elim
  | load t b key position invalid =>
      apply held.setBuf
      · exact fun _ _ locked => locked
      · intro c within
        exact ⟨within.symm, held t b (by rw [position]; rfl)⟩
  | loaded t b key position => exact held.setBuf (fun _ _ locked => locked) fun _ within => within.elim
  | flush t b position => exact Held.goto (s := { s with disk := _ }) held fun _ within => within.elim
  | unlock t b position =>
      apply held.setBuf
      · intro v other locked
        have mine := held t b (by rw [position]; rfl)
        rw [mine] at locked
        exact absurd (Option.some.inj locked).symm other
      · exact fun _ within => within.elim
  | drop t b position => exact held.drop

end Held

/-- Every buffer counts its references, and the log pins no buffer too often. -/
def Counted (s : Bcache Data) : Prop :=
  ∀ b, (s.buf b).refcnt.toNat = refs s b ∧ s.pins b ≤ logsize

section Counted

variable {s u : Bcache Data} {event : BioEvent Data}

/-- There are too few processes and pins for the count to overflow. -/
theorem Counted.small (counted : Counted s) (b : BufIndex) : (s.buf b).refcnt.toNat ≤ 1 + nproc + logsize := by
  have users := Tally.sum_le_card (uses b) s.pc (uses_le b)
  have bit : locked (s.buf b) ≤ 1 := by
    unfold locked
    split <;> omega
  have total := (counted b).1
  have pinned := (counted b).2
  rw [Fintype.card_fin] at users
  unfold refs at total
  omega

theorem Counted.succ (counted : Counted s) (b : BufIndex) :
    ((s.buf b).refcnt + 1).toNat = (s.buf b).refcnt.toNat + 1 := by
  have small := counted.small b
  simp only [nproc, logsize, maxopblocks] at small
  bv_omega

theorem Counted.pred (b : BufIndex) (positive : 0 < (s.buf b).refcnt.toNat) :
    ((s.buf b).refcnt - 1).toNat + 1 = (s.buf b).refcnt.toNat := by
  bv_omega

/-- A buffer whose count is zero has no lock holder, no waiter and no pin. -/
theorem Counted.free (counted : Counted s) {b : BufIndex} (zero : (s.buf b).refcnt = 0) :
    (s.buf b).lock = none ∧ (∀ t, uses b (s.pc t) = 0) ∧ s.pins b = 0 := by
  have total := (counted b).1
  rw [zero] at total
  have each (t : Slot) := Tally.le_sum (uses b) s.pc t
  have none : refs s b = 0 := total.symm
  unfold refs at none
  refine ⟨?_, fun t => ?_, by omega⟩
  · by_contra held
    have bit : locked (s.buf b) = 1 := if_neg held
    omega
  · have := each t
    omega

/-- A process with a reference keeps the count positive. -/
theorem Counted.positive (counted : Counted s) {b : BufIndex}
    (used : (s.buf b).lock ≠ none ∨ (∃ t, uses b (s.pc t) ≠ 0) ∨ s.pins b ≠ 0) :
    0 < (s.buf b).refcnt.toNat := by
  rw [Nat.pos_iff_ne_zero]
  intro zero
  have none := counted.free (BitVec.eq_of_toNat_eq zero)
  rcases used with held | ⟨t, waiting⟩ | pinned
  · exact held none.1
  · exact waiting (none.2.1 t)
  · exact pinned none.2.2

/-- One process moves, and the count of one buffer follows. -/
theorem Counted.change (counted : Counted s) (t : Slot) (b : BufIndex)
    (moved : u.pc = Function.update s.pc t (u.pc t))
    (others : ∀ c, c ≠ b → (u.buf c).refcnt = (s.buf c).refcnt ∧ (u.buf c).lock = (s.buf c).lock ∧
      u.pins c = s.pins c ∧ uses c (u.pc t) = uses c (s.pc t))
    (own : (u.buf b).refcnt.toNat + locked (s.buf b) + uses b (s.pc t) + s.pins b =
      (s.buf b).refcnt.toNat + locked (u.buf b) + uses b (u.pc t) + u.pins b)
    (room : u.pins b ≤ logsize) : Counted u := by
  intro c
  have sum := Tally.sum_update (uses c) s.pc t (u.pc t)
  rw [← moved] at sum
  have before := counted c
  unfold refs at before ⊢
  by_cases here : c = b
  · subst here
    exact ⟨by omega, room⟩
  · obtain ⟨refcnt, lock, pins, same⟩ := others c here
    have bit : locked (u.buf c) = locked (s.buf c) := by rw [locked, locked, lock]
    rw [refcnt, pins, bit]
    exact ⟨by omega, before.2⟩

/-- A move of one process to a position with the same references changes no count. -/
theorem Counted.goto (counted : Counted s) {t : Slot} {pc : BioPc}
    (same : ∀ b, uses b pc = uses b (s.pc t)) : Counted (s.goto t pc) := by
  have moved : (s.goto t pc).pc t = pc := by simp [Bcache.goto]
  refine counted.change t 0 (by rw [moved]; rfl) (fun c _ => ⟨rfl, rfl, rfl, ?_⟩) ?_ (counted 0).2
  · rw [moved, same]
  · rw [moved, same]
    rfl

/-- A process that moves and changes one buffer, with the count of the buffer following. -/
theorem Counted.setBuf (counted : Counted s) {t : Slot} {b : BufIndex} {buf : Buf Data} {pc : BioPc}
    (others : ∀ c, c ≠ b → uses c pc = uses c (s.pc t))
    (own : buf.refcnt.toNat + locked (s.buf b) + uses b (s.pc t) =
      (s.buf b).refcnt.toNat + locked buf + uses b pc) : Counted ((s.setBuf b buf).goto t pc) := by
  have moved : ((s.setBuf b buf).goto t pc).pc t = pc := by simp [Bcache.goto]
  have changed : ((s.setBuf b buf).goto t pc).buf b = buf := by simp [Bcache.goto, Bcache.setBuf]
  refine counted.change t b (by rw [moved]; rfl) (fun c other => ?_) ?_ (counted b).2
  · have same : ((s.setBuf b buf).goto t pc).buf c = s.buf c := by simp [Bcache.goto, Bcache.setBuf, other]
    rw [moved, same, others c other]
    exact ⟨rfl, rfl, rfl, rfl⟩
  · rw [moved, changed]
    have pins : ((s.setBuf b buf).goto t pc).pins b = s.pins b := rfl
    omega

/-- A change of a pin that the count of its buffer follows. -/
theorem Counted.repin (counted : Counted s) {b : BufIndex} {refcnt : Uint} {pins : Nat}
    (own : refcnt.toNat + s.pins b = (s.buf b).refcnt.toNat + pins) (room : pins ≤ logsize) :
    Counted { s.setBuf b { s.buf b with refcnt := refcnt } with pins := Function.update s.pins b pins } := by
  refine counted.change 0 b ?_ (fun c other => ?_) ?_ ?_
  · simp [Bcache.setBuf]
  · simp [Bcache.setBuf, other]
  · simp only [Bcache.setBuf, Function.update_self, locked]
    omega
  · simpa [Bcache.setBuf] using room

theorem Counted.drop (counted : Counted s) {t : Slot} {b : BufIndex} (position : s.pc t = .drop b) :
    Counted (s.drop t b) := by
  have used : uses b (s.pc t) = 1 := by simp [position, uses]
  have pred := Counted.pred b (counted.positive (.inr (.inl ⟨t, by omega⟩)))
  have dropped : Counted ((s.setBuf b { s.buf b with refcnt := (s.buf b).refcnt - 1 }).goto t .idle) := by
    apply counted.setBuf
    · intro c other
      simp [position, uses, other.symm]
    · have idle : uses b .idle = 0 := rfl
      simp only [locked]
      omega
  unfold Bcache.drop
  dsimp only
  split_ifs
  · exact dropped
  · exact dropped

/-- Every step keeps the counts. -/
theorem counted_step (held : Held s) (counted : Counted s) (move : Move s event u) : Counted u := by
  cases move with
  | read t key idle => exact counted.goto fun b => by rw [idle]; rfl
  | store t b data idle held =>
      have stays : s.setBuf b { s.buf b with data := data } =
          (s.setBuf b { s.buf b with data := data }).goto t (s.pc t) := by
        simp [Bcache.goto, Bcache.setBuf]
      rw [stays]
      exact counted.setBuf (fun _ _ => rfl) rfl
  | write t b idle held => exact counted.goto fun b => by rw [idle]; rfl
  | release t b idle held => exact counted.goto fun b => by rw [idle]; rfl
  | badWrite t b unheld => exact counted
  | badRelease t b unheld => exact counted
  | full t key position missing none => exact counted
  | pin t b held room =>
      have succ := counted.succ b
      exact counted.repin (by omega) (by omega)
  | unpin t b pinned =>
      have pred := Counted.pred b (counted.positive (.inr (.inr (by omega))))
      have room := (counted b).2
      exact counted.repin (by omega) (by omega)
  | hit t key b position found =>
      have succ := counted.succ b
      apply counted.setBuf
      · intro c other
        simp [position, uses, other.symm]
      · simp only [position, uses, locked, if_true]
        omega
  | recycle t key b position missing found =>
      have zero : (s.buf b).refcnt = 0 := unused_zero found
      apply counted.setBuf
      · intro c other
        simp [position, uses, other.symm]
      · simp [position, uses, locked, zero]
        omega
  | lock t b key position free =>
      apply counted.setBuf
      · intro c other
        simp [position, uses, other.symm]
      · simp [position, uses, locked, free]
  | ready t b key position valid => exact counted.goto fun b => by rw [position]; rfl
  | load t b key position invalid | loaded t b key position =>
      apply counted.setBuf
      · intro c other
        simp [position, uses]
      · simp [position, uses, locked]
  | flush t b position =>
      refine Counted.goto (s := { s with disk := _ }) counted fun b => ?_
      rw [position]
      rfl
  | unlock t b position =>
      apply counted.setBuf
      · intro c other
        simp [position, uses, other.symm]
      · have mine := held t b (by rw [position]; rfl)
        simp [position, uses, locked, mine]
  | drop t b position => exact counted.drop position

end Counted

end Xv6.Bio
