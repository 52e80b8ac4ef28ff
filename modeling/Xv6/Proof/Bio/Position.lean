/-
This file follows a buffer through `bread`: a buffer that a call has chosen keeps the block of the call, and
the holder of a buffer finds valid data.
-/

import Xv6.Proof.Bio.Lru

namespace Xv6.Bio
open TransitionSystem

variable {Data : Type}

/-- The process is in a call of `bread` for the block and has chosen the buffer. -/
def chose (b : BufIndex) (key : BlockKey) : BioPc → Prop
  | .lock c k | .fill c k | .filled c k => c = b ∧ k = key
  | _ => False

/-- The process is before or after the disk read of `bread`. -/
def fetches (b : BufIndex) : BioPc → Prop
  | .fill c _ | .filled c _ => c = b
  | _ => False

/-- The process is after the disk read of `bread`. -/
def fetched (b : BufIndex) : BioPc → Prop
  | .filled c _ => c = b
  | _ => False

/-- The buffer holds the data of its block. -/
def Loaded (s : Bcache Data) (b : BufIndex) : Prop := (s.buf b).valid = true ∨ ∃ t, fetched b (s.pc t)

/-- A buffer that a call has chosen has the block of the call. -/
def Chosen (s : Bcache Data) : Prop := ∀ t b key, chose b key (s.pc t) → (s.buf b).key = key

/-- The holder of a buffer finds valid data, or is about to read it. -/
def Ready (s : Bcache Data) : Prop :=
  ∀ t b, (s.buf b).lock = some t → (s.buf b).valid = true ∨ fetches b (s.pc t)

section Frames

variable (s : Bcache Data) (t v : Slot) (b c : BufIndex) (pc : BioPc) (buf : Buf Data)

@[simp] theorem goto_pc : (s.goto t pc).pc v = if v = t then pc else s.pc v := by
  simp [Bcache.goto, Function.update_apply]

@[simp] theorem goto_buf : (s.goto t pc).buf = s.buf := rfl

@[simp] theorem goto_disk : (s.goto t pc).disk = s.disk := rfl

@[simp] theorem setBuf_pc : (s.setBuf b buf).pc = s.pc := rfl

@[simp] theorem setBuf_buf : (s.setBuf b buf).buf c = if c = b then buf else s.buf c := by
  simp [Bcache.setBuf, Function.update_apply]

@[simp] theorem setBuf_disk : (s.setBuf b buf).disk = s.disk := rfl

@[simp] theorem drop_pc : (s.drop t b).pc v = if v = t then .idle else s.pc v := by
  unfold Bcache.drop
  dsimp only
  split_ifs <;> simp [*]

theorem drop_buf : (s.drop t b).buf c =
    if c = b then { s.buf b with refcnt := (s.buf b).refcnt - 1 } else s.buf c := by
  unfold Bcache.drop
  dsimp only
  split_ifs <;> simp [*]

end Frames

section Chosen

variable {s u : Bcache Data} {event : BioEvent Data} {order : List BufIndex}

/-- One process moves and no buffer changes its block. -/
theorem Chosen.keep (chosen : Chosen s) (t : Slot) (moved : ∀ v, v ≠ t → u.pc v = s.pc v)
    (keys : ∀ b, (u.buf b).key = (s.buf b).key) (own : ∀ b key, chose b key (u.pc t) → (s.buf b).key = key) :
    Chosen u := by
  intro v b key asks
  rw [keys]
  by_cases here : v = t
  · subst here
    exact own b key asks
  · rw [moved v here] at asks
    exact chosen v b key asks

/-- A process that has chosen a buffer has a reference to it. -/
theorem chose_used (held : Held s) (counted : Counted s) {t : Slot} {b : BufIndex} {key : BlockKey}
    (asks : chose b key (s.pc t)) : (s.buf b).refcnt ≠ 0 := by
  intro zero
  obtain ⟨unlocked, unwaited, _⟩ := counted.free zero
  have alone := unwaited t
  have outside (within : inside b (s.pc t)) : False := by
    have locked := held t b within
    rw [unlocked] at locked
    cases locked
  cases position : s.pc t <;> rw [position] at asks alone outside
  case lock c k =>
    obtain ⟨rfl, rfl⟩ := asks
    simp [uses] at alone
  case fill c k => exact outside asks.1
  case filled c k => exact outside asks.1
  all_goals exact asks

theorem Chosen.goto (chosen : Chosen s) {t : Slot} {pc : BioPc}
    (own : ∀ b key, chose b key pc → (s.buf b).key = key) : Chosen (s.goto t pc) := by
  apply chosen.keep t
  · intro v other
    simp [other]
  · exact fun _ => rfl
  · simpa using own

theorem Chosen.setBuf (chosen : Chosen s) {t : Slot} {b : BufIndex} {buf : Buf Data} {pc : BioPc}
    (key : buf.key = (s.buf b).key) (own : ∀ b key, chose b key pc → (s.buf b).key = key) :
    Chosen ((s.setBuf b buf).goto t pc) := by
  apply chosen.keep t
  · intro v other
    simp [other]
  · intro c
    simp only [goto_buf, setBuf_buf]
    split_ifs with here
    · rw [here, key]
    · rfl
  · simpa using own

/-- A buffer that changes its block was chosen by no other process. -/
theorem Chosen.recycle (chosen : Chosen s) (held : Held s) (counted : Counted s) {t : Slot} {b : BufIndex}
    {key : BlockKey} (zero : (s.buf b).refcnt = 0) :
    Chosen ((s.setBuf b { s.buf b with key := key, valid := false, refcnt := 1 }).goto t (.lock b key)) := by
  intro v c k asks
  simp only [goto_pc, setBuf_pc] at asks
  simp only [goto_buf, setBuf_buf]
  split_ifs at asks with here
  · obtain ⟨rfl, rfl⟩ := asks
    rw [if_pos rfl]
  · split_ifs with there
    · rw [there] at asks
      exact absurd zero (chose_used held counted asks)
    · exact chosen v c k asks

theorem chosen_step (held : Held s) (counted : Counted s) (chosen : Chosen s) (move : Move s event u) :
    Chosen u := by
  have keep {t : Slot} {b : BufIndex} {buf : Buf Data} (key : buf.key = (s.buf b).key) :
      Chosen (s.setBuf b buf) := by
    have stays : s.setBuf b buf = (s.setBuf b buf).goto t (s.pc t) := by
      simp [Bcache.goto, Bcache.setBuf]
    rw [stays]
    exact chosen.setBuf key fun c k asks => chosen t c k asks
  cases move with
  | read t key idle => exact chosen.goto fun _ _ asks => asks.elim
  | store t b data idle locked => exact keep (t := t) rfl
  | write t b idle locked => exact chosen.goto fun _ _ asks => asks.elim
  | release t b idle locked => exact chosen.goto fun _ _ asks => asks.elim
  | badWrite t b unheld => exact chosen
  | badRelease t b unheld => exact chosen
  | full t key position missing none => exact chosen
  | pin t b locked room => exact keep (t := t) rfl
  | unpin t b pinned => exact keep (t := t) rfl
  | hit t key b position found =>
      apply chosen.setBuf
      · rfl
      · rintro c k ⟨rfl, rfl⟩
        exact cached_key found
  | recycle t key b position missing found => exact chosen.recycle held counted (unused_zero found)
  | lock t b key position free | load t b key position invalid =>
      apply chosen.setBuf
      · rfl
      · rintro c k ⟨rfl, rfl⟩
        exact chosen t b key (by rw [position]; exact ⟨rfl, rfl⟩)
  | ready t b key position valid => exact chosen.goto fun _ _ asks => asks.elim
  | loaded t b key position => exact chosen.setBuf rfl fun _ _ asks => asks.elim
  | flush t b position => exact Chosen.goto (s := { s with disk := _ }) chosen fun _ _ asks => asks.elim
  | unlock t b position => exact chosen.setBuf rfl fun _ _ asks => asks.elim
  | drop t b position =>
      apply chosen.keep t
      · intro v other
        simp [other]
      · intro c
        rw [drop_buf]
        split_ifs with here
        · rw [here]
        · rfl
      · intro c k asks
        simp only [drop_pc, if_true] at asks
        exact asks.elim

end Chosen

section Ready

variable {s u : Bcache Data} {event : BioEvent Data} {order : List BufIndex}

/-- One process moves, no lock is taken and no data becomes invalid. -/
theorem Ready.keep (ready : Ready s) (t : Slot) (moved : ∀ v, v ≠ t → u.pc v = s.pc v)
    (locks : ∀ b v, (u.buf b).lock = some v → (s.buf b).lock = some v)
    (valid : ∀ b, (s.buf b).valid = true → (u.buf b).valid = true)
    (own : ∀ b, fetches b (s.pc t) → (u.buf b).valid = true ∨ fetches b (u.pc t)) : Ready u := by
  intro v b locked
  rcases ready v b (locks b v locked) with known | reads
  · exact .inl (valid b known)
  · by_cases here : v = t
    · subst here
      exact own b reads
    · rw [moved v here]
      exact .inr reads

theorem Ready.goto (ready : Ready s) {t : Slot} {pc : BioPc}
    (own : ∀ b, fetches b (s.pc t) → (s.buf b).valid = true ∨ fetches b pc) : Ready (s.goto t pc) := by
  apply ready.keep t
  · intro v other
    simp [other]
  · exact fun _ _ locked => locked
  · exact fun _ known => known
  · simpa using own

theorem Ready.setBuf (ready : Ready s) {t : Slot} {b : BufIndex} {buf : Buf Data} {pc : BioPc}
    (lock : buf.lock = none ∨ buf.lock = (s.buf b).lock) (valid : (s.buf b).valid = true → buf.valid = true)
    (own : ∀ c, fetches c (s.pc t) → (c = b ∧ buf.valid = true) ∨ fetches c pc) :
    Ready ((s.setBuf b buf).goto t pc) := by
  apply ready.keep t
  · intro v other
    simp [other]
  · intro c v locked
    simp only [goto_buf, setBuf_buf] at locked
    split_ifs at locked with here
    · rw [here]
      rcases lock with none | same
      · rw [none] at locked
        cases locked
      · rwa [same] at locked
    · exact locked
  · intro c known
    simp only [goto_buf, setBuf_buf]
    split_ifs with here
    · rw [here] at known
      exact valid known
    · exact known
  · intro c reads
    rcases own c reads with ⟨rfl, known⟩ | reads
    · exact .inl (by simpa using known)
    · exact .inr (by simpa using reads)

theorem ready_step (counted : Counted s) (ready : Ready s) (move : Move s event u) : Ready u := by
  have keep {t : Slot} {b : BufIndex} {buf : Buf Data} (lock : buf.lock = (s.buf b).lock)
      (valid : buf.valid = (s.buf b).valid) : Ready (s.setBuf b buf) := by
    have stays : s.setBuf b buf = (s.setBuf b buf).goto t (s.pc t) := by
      simp [Bcache.goto, Bcache.setBuf]
    rw [stays]
    exact ready.setBuf (.inr lock) (fun known => by rw [valid, known]) fun _ reads => .inr reads
  have plain {t : Slot} {pc : BioPc} (position : s.pc t = pc) (apart : ∀ c, ¬ fetches c pc) (c : BufIndex) :
      ¬ fetches c (s.pc t) := by
    rw [position]
    exact apart c
  cases move with
  | read t key idle => exact ready.goto fun c reads => absurd reads (plain idle (fun _ => id) c)
  | store t b data idle locked => exact keep (t := t) rfl rfl
  | write t b idle locked => exact ready.goto fun c reads => absurd reads (plain idle (fun _ => id) c)
  | release t b idle locked => exact ready.goto fun c reads => absurd reads (plain idle (fun _ => id) c)
  | badWrite t b unheld => exact ready
  | badRelease t b unheld => exact ready
  | full t key position missing none => exact ready
  | pin t b locked room => exact keep (t := t) rfl rfl
  | unpin t b pinned => exact keep (t := t) rfl rfl
  | hit t key b position found =>
      exact ready.setBuf (.inr rfl) id fun c reads => absurd reads (plain position (fun _ => id) c)
  | recycle t key b position missing found =>
      have free := (counted.free (unused_zero found)).1
      intro v c locked
      simp only [goto_buf, setBuf_buf] at locked ⊢
      split_ifs at locked ⊢ with here
      · dsimp only at locked
        rw [free] at locked
        cases locked
      · rcases ready v c locked with known | reads
        · exact .inl known
        · refine .inr ?_
          by_cases there : v = t
          · subst there
            exact absurd reads (plain position (fun _ => id) c)
          · simpa [there] using reads
  | lock t b key position free =>
      intro v c locked
      simp only [goto_buf, setBuf_buf] at locked ⊢
      split_ifs at locked ⊢ with here
      · obtain rfl : t = v := Option.some.inj locked
        exact .inr (by simp [fetches, here])
      · rcases ready v c locked with known | reads
        · exact .inl known
        · refine .inr ?_
          by_cases there : v = t
          · subst there
            exact absurd reads (plain position (fun _ => id) c)
          · simpa [there] using reads
  | ready t b key position valid =>
      refine ready.goto fun c reads => .inl ?_
      rw [position] at reads
      obtain rfl : b = c := reads
      exact valid
  | load t b key position invalid =>
      refine ready.setBuf (.inr rfl) id fun c reads => .inr ?_
      rw [position] at reads
      exact reads
  | loaded t b key position =>
      refine ready.setBuf (.inr rfl) (fun _ => rfl) fun c reads => .inl ?_
      rw [position] at reads
      exact ⟨Eq.symm reads, rfl⟩
  | flush t b position =>
      exact Ready.goto (s := { s with disk := _ }) ready
        fun c reads => absurd reads (plain position (fun _ => id) c)
  | unlock t b position =>
      exact ready.setBuf (.inl rfl) id fun c reads => absurd reads (plain position (fun _ => id) c)
  | drop t b position =>
      apply ready.keep t
      · intro v other
        simp [other]
      · intro c v locked
        rw [drop_buf] at locked
        split_ifs at locked with here
        · rw [here]
          exact locked
        · exact locked
      · intro c known
        rw [drop_buf]
        split_ifs with here
        · rw [here] at known
          exact known
        · exact known
      · exact fun c reads => absurd reads (plain position (fun _ => id) c)

end Ready

end Xv6.Bio
