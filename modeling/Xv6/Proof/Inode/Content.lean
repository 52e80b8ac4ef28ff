/-
This file shows that an inode in the table is a copy of the inode on the disk, and that `iput` frees an inode
only when nothing else refers to it.
-/

import Xv6.Proof.Inode.Change

namespace Xv6.Inodes
open TransitionSystem

/-- The reference that a position of `iput` gives back after it has freed the inode. -/
def leavesAt : InodePc → Option Reference
  | .call .release r _ | .call .drop r _ => some r
  | _ => none

/-- The reference to a new inode that its process has not locked and read yet. -/
def freshAt : InodePc → Option Reference
  | .call (.lock true) r _ | .call (.load true) r _ => some r
  | _ => none

/-- The inode of the reference has been freed. -/
def Leaving (s : Itable) (r : Reference) : Prop := ∃ t, leavesAt (s.pc t) = some r

/-- The reference is to a new inode. -/
def Fresh (s : Itable) (r : Reference) : Prop := ∃ t, freshAt (s.pc t) = some r

/-- No process is about to mark the entry invalid. -/
def Steady (s : Itable) (e : InodeIndex) : Prop := ∀ t r, s.pc t ≠ .call .release r e

/-- What holds of one entry of the table, its references and its inode on the disk. -/
structure Entry (s : Itable) (e : InodeIndex) : Prop where
  live : ∀ r, s.held r = some e → ¬ Leaving s r → (s.disk (s.inode e).key).type ≠ 0
  dirty : (s.inode e).dirty = true → ∃ t r, (s.inode e).lock = some (t, r) ∧ (s.pc t).puts ≠ some r
  ready : ∀ t r, (s.inode e).lock = some (t, r) →
    (s.inode e).valid = true ∨ ∃ new, s.pc t = .call (.load new) r e
  typed : 0 < (s.inode e).ref → (s.inode e).valid = true → Steady s e → (s.inode e).copy.type ≠ 0
  copied : 0 < (s.inode e).ref → (s.inode e).valid = true → (s.inode e).dirty = false → Steady s e →
    (s.inode e).copy = s.disk (s.inode e).key
  freeing : ∀ t phase r, s.pc t = .call phase r e → phase = .trunc ∨ phase = .erase →
    (∀ q, s.held q = some e → q = r) ∧ (s.inode e).valid = true ∧ (s.inode e).copy.nlink = 0
  released : ∀ t r, s.pc t = .call .release r e →
    (∀ q, s.held q = some e → q = r ∨ Fresh s q) ∧ (s.disk (s.inode e).key).nlink = 0
  settled : ∀ r, s.held r = some e → ¬ Leaving s r → (s.disk (s.inode e).key).nlink = 0 →
    (s.inode e).valid = true ∨ Fresh s r

/-- A process that has allocated an inode and not yet its entry is the only one, and all references to the inode
are old. -/
def Getting (s : Itable) : Prop :=
  ∀ t key r, s.pc t = .get key r → (s.disk key).type ≠ 0 ∧ (s.disk key).nlink = 0 ∧
    (∀ q e, s.held q = some e → (s.inode e).key = key → Leaving s q) ∧ ∀ v q, s.pc v = .get key q → v = t

section Frame

variable {s u : Itable}

theorem call_of_leavesAt {pc : InodePc} {r : Reference} (leaves : leavesAt pc = some r) :
    pc.puts = some r ∧ ∃ phase e, pc = .call phase r e ∧ (phase = .release ∨ phase = .drop) := by
  cases pc with
  | call phase q e =>
      cases phase with
      | release =>
          cases leaves
          exact ⟨rfl, _, e, rfl, .inl rfl⟩
      | drop =>
          cases leaves
          exact ⟨rfl, _, e, rfl, .inr rfl⟩
      | _ => cases leaves
  | _ => cases leaves

theorem call_of_freshAt {pc : InodePc} {r : Reference} (fresh : freshAt pc = some r) :
    ∃ phase e, pc = .call phase r e ∧ (phase = .lock true ∨ phase = .load true) := by
  cases pc with
  | call phase q e =>
      cases phase with
      | lock new =>
          cases new <;> cases fresh
          exact ⟨_, e, rfl, .inl rfl⟩
      | load new =>
          cases new <;> cases fresh
          exact ⟨_, e, rfl, .inr rfl⟩
      | _ => cases fresh
  | _ => cases fresh

/-- A process that is in no call on an entry has no say about its references. -/
theorem others_at {t : Slot} {e : InodeIndex} (wired : Wired s) (away : ∀ phase r, s.pc t ≠ .call phase r e)
    {r : Reference} (held : s.held r = some e) : leavesAt (s.pc t) ≠ some r ∧ freshAt (s.pc t) ≠ some r := by
  have call (phase : InodePhase) (c : InodeIndex) (position : s.pc t = .call phase r c) : False := by
    have same := wired.call t phase r c position
    rw [held] at same
    cases same
    exact away phase r position
  constructor
  · intro leaves
    obtain ⟨_, phase, c, position, _⟩ := call_of_leavesAt leaves
    exact call phase c position
  · intro fresh
    obtain ⟨phase, c, position, _⟩ := call_of_freshAt fresh
    exact call phase c position

/-- A step of a process that is in no call on an entry keeps what holds of the entry. -/
theorem Entry.frame {t : Slot} {e : InodeIndex} (entry : Entry s e) (wired : Wired s) (wired' : Wired u)
    (counted : Counted s) (moved : ∀ v, v ≠ t → u.pc v = s.pc v) (inode : u.inode e = s.inode e)
    (held : ∀ r, u.held r = some e ↔ s.held r = some e)
    (disk : 0 < (s.inode e).ref → u.disk (s.inode e).key = s.disk (s.inode e).key)
    (before : ∀ phase r, s.pc t ≠ .call phase r e) (after : ∀ phase r, u.pc t ≠ .call phase r e) :
    Entry u e := by
  have leaving {r : Reference} (mine : s.held r = some e) : Leaving u r ↔ Leaving s r := by
    refine exists_congr fun v => ?_
    by_cases here : v = t
    · subst here
      exact iff_of_false (others_at wired' after ((held r).mpr mine)).1 (others_at wired before mine).1
    · rw [moved v here]
  have fresh {r : Reference} (mine : s.held r = some e) : Fresh u r ↔ Fresh s r := by
    refine exists_congr fun v => ?_
    by_cases here : v = t
    · subst here
      exact iff_of_false (others_at wired' after ((held r).mpr mine)).2 (others_at wired before mine).2
    · rw [moved v here]
  have call (v : Slot) (phase : InodePhase) (r : Reference) :
      u.pc v = .call phase r e ↔ s.pc v = .call phase r e := by
    by_cases here : v = t
    · subst here
      exact iff_of_false (after phase r) (before phase r)
    · rw [moved v here]
  have steady : Steady u e ↔ Steady s e := by
    simp only [Steady, ne_eq, call]
  have same {r : Reference} (mine : s.held r = some e) := disk (counted.positive mine)
  refine ⟨?_, ?_, ?_, ?_, ?_, ?_, ?_, ?_⟩
  · intro r mine stays
    rw [held] at mine
    rw [leaving mine] at stays
    rw [inode, same mine]
    exact entry.live r mine stays
  · intro changed
    rw [inode] at changed ⊢
    obtain ⟨v, r, locked, keeps⟩ := entry.dirty changed
    refine ⟨v, r, locked, ?_⟩
    by_cases here : v = t
    · intro gives
      obtain ⟨_, phase, at_v, _⟩ := wired'.holder e v v r (by rw [inode]; exact locked) gives
      exact after phase r (here ▸ at_v)
    · rwa [moved v here]
  · intro v r locked
    rw [inode] at locked ⊢
    simp only [call]
    exact entry.ready v r locked
  · rw [inode, steady]
    exact entry.typed
  · rw [inode, steady]
    intro used valid clean calm
    rw [disk used]
    exact entry.copied used valid clean calm
  · intro v phase r at_v frees
    rw [call] at at_v
    simp only [inode, held]
    exact entry.freeing v phase r at_v frees
  · intro v r at_v
    rw [call] at at_v
    have mine := wired.call v _ r e at_v
    obtain ⟨only, unlinked⟩ := entry.released v r at_v
    rw [inode, same mine]
    refine ⟨fun q other => ?_, unlinked⟩
    rw [held] at other
    rw [fresh other]
    exact only q other
  · intro r mine stays unlinked
    rw [held] at mine
    rw [leaving mine] at stays
    rw [inode, same mine] at unlinked
    rw [inode, fresh mine]
    exact entry.settled r mine stays unlinked

end Frame

section Inside

variable {s u : Itable} {t : Slot} {e : InodeIndex} {pc : InodePc} {ip : Inode} {written : Option Dinode}

theorem Inside.now (step : Inside s u t e pc ip written) : u.pc t = pc := by
  rw [step.moved, if_pos rfl]

theorem Inside.others (step : Inside s u t e pc ip written) (v : Slot) (other : v ≠ t) : u.pc v = s.pc v := by
  rw [step.moved, if_neg other]

theorem Inside.own (step : Inside s u t e pc ip written) : u.inode e = ip := by
  rw [step.inode, if_pos rfl]

theorem Inside.stored (step : Inside s u t e pc ip written) :
    u.disk (s.inode e).key = written.getD (s.disk (s.inode e).key) := by
  rw [step.disk, if_pos rfl]

theorem Local.key (act : Local s t e pc ip written) : ip.key = (s.inode e).key := by
  cases act <;> rfl

theorem Local.ref (act : Local s t e pc ip written) : ip.ref = (s.inode e).ref := by
  cases act <;> rfl

theorem Local.used (act : Local s t e pc ip written) (wired : Wired s) (counted : Counted s) :
    0 < (s.inode e).ref := by
  cases act with
  | lock r idle held steady => exact counted.positive held
  | put r idle held unused => exact counted.positive held
  | modify r copy idle locked nonzero
  | update r idle locked
  | unlock r idle locked clean => exact counted.positive (wired.lock e t r locked)
  | ready new r position valid
  | acquire new r position free
  | load new r position
  | free r position last valid unlinked free
  | trunc r copy position same
  | erase r copy position same
  | release r position => exact counted.positive (wired.call t _ r e position)

/-- A step on an entry starts in a call on the entry, or between two calls. -/
theorem Local.before (act : Local s t e pc ip written) (phase : InodePhase) (q : Reference) (c : InodeIndex)
    (position : s.pc t = .call phase q c) : c = e := by
  cases act <;> simp_all

theorem Local.after (act : Local s t e pc ip written) (phase : InodePhase) (q : Reference) (c : InodeIndex)
    (position : pc = .call phase q c) : c = e := by
  cases act <;> cases position <;> rfl

/-- A step on an entry keeps the references to freed inodes. -/
theorem Inside.leaving (step : Inside s u t e pc ip written) {r : Reference} (leaving : Leaving s r) :
    Leaving u r := by
  obtain ⟨v, leaves⟩ := leaving
  refine ⟨v, ?_⟩
  by_cases here : v = t
  · subst here
    rw [step.now]
    cases step.act with
    | release q position =>
        rw [position] at leaves
        exact leaves
    | lock q idle _ _
    | put q idle _ _
    | modify q copy idle _ _
    | update q idle _
    | unlock q idle _ _ => rw [idle] at leaves; cases leaves
    | ready new q position _
    | acquire new q position _
    | load new q position
    | free q position _ _ _ _
    | trunc q copy position _
    | erase q copy position _ => rw [position] at leaves; cases leaves
  · rw [step.others v here]
    exact leaves

/-- A step on an entry keeps a reference to a new inode new, until its process has read the inode. -/
theorem Inside.fresh (step : Inside s u t e pc ip written) (unread : ∀ new r, s.pc t ≠ .call (.load new) r e)
    {r : Reference} (fresh : Fresh s r) : Fresh u r := by
  obtain ⟨v, new⟩ := fresh
  refine ⟨v, ?_⟩
  by_cases here : v = t
  · subst here
    rw [step.now]
    cases step.act with
    | acquire flag q position _ =>
        rw [position] at new
        cases flag
        · cases new
        · exact new
    | lock q idle _ _ => rw [idle] at new; cases new
    | put q idle _ _ => rw [idle] at new; cases new
    | ready flag q position _ | load flag q position => exact absurd position (unread flag q)
    | modify q copy idle _ _ => rw [idle] at new; cases new
    | update q idle _ => rw [idle] at new; cases new
    | unlock q idle _ _ => rw [idle] at new; cases new
    | free q position _ _ _ _
    | trunc q copy position _
    | erase q copy position _
    | release q position => rw [position] at new; cases new
  · rw [step.others v here]
    exact new

/-- Only the holder of the sleep lock can be inside it. -/
theorem Wired.alone (wired : Wired s) {v : Slot} {phase : InodePhase} {r q : Reference}
    (locked : (s.inode e).lock = some (t, r)) (at_v : s.pc v = .call phase q e)
    (inside : insideLock phase = true) : v = t ∧ q = r := by
  have mine := wired.within v phase q e at_v inside
  rw [locked] at mine
  cases mine
  exact ⟨rfl, rfl⟩

/-- An entry whose lock is held by a process that is not about to mark it invalid stays valid. -/
theorem Wired.steady (wired : Wired s) {r : Reference} (locked : (s.inode e).lock = some (t, r))
    (calm : ∀ q, s.pc t ≠ .call .release q e) : Steady s e := by
  intro v q at_v
  obtain ⟨rfl, rfl⟩ := wired.alone locked at_v rfl
  exact calm q at_v

/-- A reference that a call uses and does not give back is not leaving. -/
theorem Wired.stays (wired : Wired s) {phase : InodePhase} {r : Reference} (position : s.pc t = .call phase r e)
    (apart : phase ≠ .release ∧ phase ≠ .drop) : ¬ Leaving s r := by
  rintro ⟨v, leaves⟩
  obtain ⟨puts, at_phase, c, at_v, released⟩ := call_of_leavesAt leaves
  obtain rfl := wired.sole v t r (.inr puts) (by rw [position]; rfl)
  rw [position] at at_v
  cases at_v
  rcases released with rfl | rfl
  · exact apart.1 rfl
  · exact apart.2 rfl

/-- The holder of a sleep lock that is between two calls keeps its reference. -/
theorem Wired.stays_idle (wired : Wired s) {r : Reference} (locked : (s.inode e).lock = some (t, r))
    (idle : s.pc t = .idle) : ¬ Leaving s r := by
  rintro ⟨v, leaves⟩
  obtain ⟨puts, _⟩ := call_of_leavesAt leaves
  obtain ⟨_, phase, at_t, _⟩ := wired.holder e t v r locked puts
  rw [idle] at at_t
  cases at_t

/-- A holder between two calls finds a valid inode. -/
theorem Entry.valid (entry : Entry s e) {r : Reference} (locked : (s.inode e).lock = some (t, r))
    (idle : s.pc t = .idle) : (s.inode e).valid = true := by
  rcases entry.ready t r locked with valid | ⟨new, position⟩
  · exact valid
  · rw [idle] at position
    cases position

theorem live_inside (step : Inside s u t e pc ip written) (wired : Wired s) (counted : Counted s)
    (entry : Entry s e) (r : Reference) (held : u.held r = some e) (stays : ¬ Leaving u r) :
    (u.disk (u.inode e).key).type ≠ 0 := by
  rw [step.held] at held
  have old := entry.live r held fun leaving => stays (step.leaving leaving)
  have used := counted.positive held
  rw [step.own, step.act.key, step.stored]
  cases act : step.act with
  | update q idle locked =>
      exact entry.typed used (entry.valid locked idle) (wired.steady locked (by rw [idle]; nofun))
  | trunc q copy position same =>
      obtain ⟨_, valid, _⟩ := entry.freeing t _ q position (.inl rfl)
      have locked := wired.within t _ q e position rfl
      rw [same]
      exact entry.typed used valid (wired.steady locked (by rw [position]; nofun))
  | erase q copy position same =>
      obtain ⟨only, _⟩ := entry.freeing t _ q position (.inr rfl)
      obtain rfl := only r held
      exact absurd ⟨t, by rw [step.now]; rfl⟩ stays
  | _ => exact old

theorem dirty_inside (step : Inside s u t e pc ip written) (wired : Wired s) (entry : Entry s e)
    (changed : (u.inode e).dirty = true) :
    ∃ v r, (u.inode e).lock = some (v, r) ∧ (u.pc v).puts ≠ some r := by
  rw [step.own] at changed ⊢
  have kept (quiet : ∀ r, (s.inode e).lock = some (t, r) → pc.puts ≠ some r) (old : (s.inode e).dirty = true) :
      ∃ v r, (s.inode e).lock = some (v, r) ∧ (u.pc v).puts ≠ some r := by
    obtain ⟨v, r, locked, keeps⟩ := entry.dirty old
    refine ⟨v, r, locked, ?_⟩
    by_cases here : v = t
    · subst here
      rw [step.now]
      exact quiet r locked
    · rw [step.others v here]
      exact keeps
  have unlocked (free : (s.inode e).lock = none) : (s.inode e).dirty ≠ true := by
    intro old
    obtain ⟨v, r, locked, _⟩ := entry.dirty old
    rw [free] at locked
    cases locked
  have frees {phase : InodePhase} {q : Reference} (position : s.pc t = .call phase q e)
      (inside : insideLock phase = true) (puts : phase.puts = true) : (s.inode e).dirty ≠ true := by
    intro old
    obtain ⟨v, r, locked, keeps⟩ := entry.dirty old
    obtain ⟨rfl, rfl⟩ := wired.alone locked position inside
    exact keeps (by rw [position]; simp only [InodePc.puts, puts, if_true])
  cases act : step.act with
  | lock q idle held steady
  | ready new q position valid
  | load new q position => exact kept (by rintro _ _ ⟨⟩) changed
  | put q idle held unused =>
      refine kept (fun r locked gives => ?_) changed
      cases gives
      exact (not_inUse unused).2 e t locked
  | modify q copy idle locked typed => exact ⟨t, q, locked, by rw [step.now]; rintro ⟨⟩⟩
  | update q idle locked => cases changed
  | unlock q idle locked clean => exact absurd (changed.symm.trans clean) (by rintro ⟨⟩)
  | acquire new q position free | free q position last valid unlinked free => exact absurd changed (unlocked free)
  | trunc q copy position same
  | erase q copy position same
  | release q position => exact absurd changed (frees position rfl rfl)

theorem ready_inside (step : Inside s u t e pc ip written) (entry : Entry s e) (v : Slot) (r : Reference)
    (locked : (u.inode e).lock = some (v, r)) :
    (u.inode e).valid = true ∨ ∃ new, u.pc v = .call (.load new) r e := by
  rw [step.own] at locked ⊢
  have kept (old : (s.inode e).lock = some (v, r)) (idle : v = t → (s.inode e).valid = true) :
      (s.inode e).valid = true ∨ ∃ new, u.pc v = .call (.load new) r e := by
    by_cases here : v = t
    · exact .inl (idle here)
    · rw [step.others v here]
      exact entry.ready v r old
  cases act : step.act with
  | lock q idle held steady => exact kept locked fun here => entry.valid (here ▸ locked) idle
  | put q idle held unused => exact kept locked fun here => entry.valid (here ▸ locked) idle
  | ready new q position valid => exact .inl valid
  | modify q copy idle mine typed | update q idle mine => exact .inl (entry.valid mine idle)
  | unlock q idle mine clean => cases locked
  | acquire new q position free =>
      cases locked
      exact .inr ⟨new, by rw [step.now]⟩
  | load new q position => exact .inl rfl
  | free q position last valid unlinked free => exact .inl valid
  | trunc q copy position same => exact .inl (entry.freeing t _ q position (.inl rfl)).2.1
  | erase q copy position same => exact .inl (entry.freeing t _ q position (.inr rfl)).2.1
  | release q position => cases locked

/-- A step that does not start from the freeing of the entry finds it as steady as it leaves it. -/
theorem Inside.steady (step : Inside s u t e pc ip written) (calm : Steady u e)
    (apart : ∀ q, s.pc t ≠ .call .release q e) : Steady s e := by
  intro v q at_v
  by_cases here : v = t
  · exact apart q (here ▸ at_v)
  · exact calm v q ((step.others v here).trans at_v)

theorem copied_inside (step : Inside s u t e pc ip written) (wired : Wired s) (entry : Entry s e)
    (used : 0 < (u.inode e).ref) (valid : (u.inode e).valid = true) (calm : Steady u e) :
    (u.inode e).copy.type ≠ 0 ∧
      ((u.inode e).dirty = false → (u.inode e).copy = u.disk (u.inode e).key) := by
  rw [step.own] at used valid ⊢
  rw [step.act.ref] at used
  rw [step.act.key, step.stored]
  have kept (same : (s.inode e).valid = true) (apart : ∀ q, s.pc t ≠ .call .release q e) :
      (s.inode e).copy.type ≠ 0 ∧
        ((s.inode e).dirty = false → (s.inode e).copy = s.disk (s.inode e).key) :=
    ⟨entry.typed used same (step.steady calm apart),
      fun clean => entry.copied used same clean (step.steady calm apart)⟩
  cases act : step.act with
  | lock q idle held steady
  | put q idle held unused
  | unlock q idle locked clean => exact kept valid (by rw [idle]; nofun)
  | ready new q position known
  | acquire new q position free
  | free q position last known unlinked free => exact kept valid (by rw [position]; nofun)
  | modify q copy idle locked typed => exact ⟨typed, nofun⟩
  | update q idle locked => exact ⟨(kept valid (by rw [idle]; nofun)).1, fun _ => rfl⟩
  | load new q position =>
      exact ⟨entry.live q (wired.call t _ q e position) (wired.stays position ⟨nofun, nofun⟩), fun _ => rfl⟩
  | trunc q copy position same =>
      refine ⟨?_, fun _ => rfl⟩
      rw [same]
      exact (kept valid (by rw [position]; nofun)).1
  | erase q copy position same => exact absurd step.now (calm t q)
  | release q position => cases valid

/-- While a process is inside the sleep lock of an entry, another one can only begin a call. -/
theorem Inside.begins (step : Inside s u t e pc ip written) (wired : Wired s) {v : Slot} {phase : InodePhase}
    {r : Reference} (here : v ≠ t) (at_v : s.pc v = .call phase r e) (inside : insideLock phase = true) :
    s.pc t = .idle ∧ ip = s.inode e ∧ written = none := by
  have mine := wired.within v phase r e at_v inside
  have other {q : Reference} (locked : (s.inode e).lock = some (t, q)) : False :=
    here (wired.alone locked at_v inside).1
  cases act : step.act with
  | lock q idle => exact ⟨idle, rfl, rfl⟩
  | put q idle => exact ⟨idle, rfl, rfl⟩
  | modify q copy idle locked => exact (other locked).elim
  | update q idle locked => exact (other locked).elim
  | unlock q idle locked => exact (other locked).elim
  | acquire new q position free => rw [free] at mine; cases mine
  | free q position last valid unlinked free => rw [free] at mine; cases mine
  | ready new q position
  | load new q position
  | trunc q copy position
  | erase q copy position
  | release q position => exact (other (wired.within t _ q e position rfl)).elim

theorem freeing_inside (step : Inside s u t e pc ip written) (wired : Wired s) (counted : Counted s)
    (entry : Entry s e) (v : Slot) (phase : InodePhase) (r : Reference) (at_v : u.pc v = .call phase r e)
    (frees : phase = .trunc ∨ phase = .erase) :
    (∀ q, u.held q = some e → q = r) ∧ (u.inode e).valid = true ∧ (u.inode e).copy.nlink = 0 := by
  have inside : insideLock phase = true := by
    rcases frees with rfl | rfl <;> rfl
  rw [step.held, step.own]
  by_cases here : v = t
  · subst here
    rw [step.now] at at_v
    cases act : step.act with
    | free q position last valid unlinked free =>
        cases at_v
        exact ⟨fun p held => counted.only last (wired.call v _ r e position) held, valid, unlinked⟩
    | trunc q copy position same =>
        cases at_v
        obtain ⟨only, valid, unlinked⟩ := entry.freeing v _ r position (.inl rfl)
        rw [same]
        exact ⟨only, valid, unlinked⟩
    | lock q | put q | acquire new q | erase q | release q => cases at_v; rcases frees with h | h <;> cases h
    | _ => cases at_v
  · rw [step.others v here] at at_v
    obtain ⟨_, same, _⟩ := step.begins wired here at_v inside
    rw [same]
    exact entry.freeing v phase r at_v frees

theorem released_inside (step : Inside s u t e pc ip written) (wired : Wired s) (entry : Entry s e) (v : Slot)
    (r : Reference) (at_v : u.pc v = .call .release r e) :
    (∀ q, u.held q = some e → q = r ∨ Fresh u q) ∧ (u.disk (u.inode e).key).nlink = 0 := by
  rw [step.held, step.own, step.act.key, step.stored]
  by_cases here : v = t
  · subst here
    rw [step.now] at at_v
    cases act : step.act with
    | erase q copy position same =>
        cases at_v
        obtain ⟨only, _, unlinked⟩ := entry.freeing v _ r position (.inr rfl)
        rw [same]
        exact ⟨fun p held => .inl (only p held), unlinked⟩
    | _ => cases at_v
  · rw [step.others v here] at at_v
    obtain ⟨only, unlinked⟩ := entry.released v r at_v
    obtain ⟨idle, _, same⟩ := step.begins wired here at_v rfl
    rw [same]
    exact ⟨fun q held => (only q held).imp_right (step.fresh (by rw [idle]; nofun)), unlinked⟩

theorem settled_inside (step : Inside s u t e pc ip written) (entry : Entry s e) (r : Reference)
    (held : u.held r = some e) (stays : ¬ Leaving u r) (unlinked : (u.disk (u.inode e).key).nlink = 0) :
    (u.inode e).valid = true ∨ Fresh u r := by
  rw [step.held] at held
  have keeps : ¬ Leaving s r := fun leaving => stays (step.leaving leaving)
  rw [step.own, step.act.key, step.stored] at unlinked
  rw [step.own]
  have kept (unread : ∀ new q, s.pc t ≠ .call (.load new) q e) (same : (s.disk (s.inode e).key).nlink = 0) :
      (s.inode e).valid = true ∨ Fresh u r := (entry.settled r held keeps same).imp_right (step.fresh unread)
  cases act : step.act with
  | lock q idle mine steady
  | put q idle mine unused
  | unlock q idle locked clean => exact kept (by rw [idle]; nofun) unlinked
  | ready new q position valid => exact .inl valid
  | modify q copy idle locked typed | update q idle locked => exact .inl (entry.valid locked idle)
  | acquire new q position free => exact kept (by rw [position]; nofun) unlinked
  | load new q position => exact .inl rfl
  | free q position last valid _ free => exact .inl valid
  | trunc q copy position same => exact .inl (entry.freeing t _ q position (.inl rfl)).2.1
  | erase q copy position same => exact .inl (entry.freeing t _ q position (.inr rfl)).2.1
  | release q position =>
      rcases (entry.released t q position).1 r held with rfl | fresh
      · exact absurd ⟨t, by rw [step.now]; rfl⟩ stays
      · exact .inr (step.fresh (by rw [position]; nofun) fresh)

/-- A step on an entry keeps what holds of it. -/
theorem entry_inside (step : Inside s u t e pc ip written) (wired : Wired s) (counted : Counted s)
    (entry : Entry s e) : Entry u e := by
  have copied := copied_inside step wired entry
  exact ⟨live_inside step wired counted entry, dirty_inside step wired entry, ready_inside step entry,
    fun used valid calm => (copied used valid calm).1,
    fun used valid clean calm => (copied used valid calm).2 clean,
    freeing_inside step wired counted entry, released_inside step wired entry, settled_inside step entry⟩

end Inside

end Xv6.Inodes
