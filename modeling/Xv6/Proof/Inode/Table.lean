/-
This file shows that every step keeps the inode table consistent.
-/

import Xv6.Proof.Inode.Content

namespace Xv6.Inodes
open TransitionSystem

/-- All facts about a state of the inode table that the steps keep together. -/
structure Consistent (s : Itable) : Prop where
  wired : Wired s
  counted : Counted s
  unique : Unique s
  typed : Typed s
  getting : Getting s
  entry : ∀ e, Entry s e

section Bind

variable {s u : Itable} {t : Slot} {r : Reference} {key : InodeKey} {e : InodeIndex} {pc : InodePc} {ip : Inode}

theorem Binds.before (binds : Binds s t r key e pc) :
    (∀ phase q c, s.pc t ≠ .call phase q c) ∧ leavesAt (s.pc t) = none ∧ freshAt (s.pc t) = none := by
  cases binds with
  | lookup idle named | dup q idle held unused same => rw [idle]; exact ⟨nofun, rfl, rfl⟩
  | get position => rw [position]; exact ⟨nofun, rfl, rfl⟩

theorem Binds.after (binds : Binds s t r key e pc) :
    (∀ phase q c, pc = .call phase q c → phase = .lock true ∧ q = r ∧ c = e) ∧ leavesAt pc = none ∧
      pc.puts = none ∧ ∀ k q, pc ≠ .get k q := by
  cases binds with
  | lookup idle named | dup q idle held unused same => exact ⟨nofun, rfl, rfl, nofun⟩
  | get position =>
      refine ⟨?_, rfl, rfl, nofun⟩
      rintro _ _ _ ⟨⟩
      exact ⟨rfl, rfl, rfl⟩

/-- A reference that no call uses is not leaving. -/
theorem not_leaving {q : Reference} (unused : ¬ s.inUse q) : ¬ Leaving s q := by
  rintro ⟨v, leaves⟩
  exact (not_inUse unused).1 v (reference_of_puts (call_of_leavesAt leaves).1)

theorem not_fresh {q : Reference} (unused : ¬ s.inUse q) : ¬ Fresh s q := by
  rintro ⟨v, new⟩
  obtain ⟨phase, c, position, _⟩ := call_of_freshAt new
  exact (not_inUse unused).1 v (by rw [position]; rfl)

/-- An inode that `iput` is about to free has no link on the disk either. -/
theorem Consistent.unlinked (good : Consistent s) {v : Slot} {phase : InodePhase} {q : Reference}
    (position : s.pc v = .call phase q e) (frees : phase = .trunc ∨ phase = .erase) :
    (s.disk (s.inode e).key).nlink = 0 ∧ (s.inode e).dirty = false := by
  have inside : insideLock phase = true ∧ phase.puts = true := by
    rcases frees with rfl | rfl <;> exact ⟨rfl, rfl⟩
  obtain ⟨_, valid, unlinked⟩ := (good.entry e).freeing v phase q position frees
  have locked := good.wired.within v phase q e position inside.1
  have used := good.counted.positive (good.wired.call v phase q e position)
  have clean : (s.inode e).dirty = false := by
    rw [Bool.eq_false_iff]
    intro changed
    obtain ⟨w, p, mine, keeps⟩ := (good.entry e).dirty changed
    obtain ⟨rfl, rfl⟩ := good.wired.alone mine position inside.1
    exact keeps (by rw [position]; simp only [InodePc.puts, inside.2, if_true])
  have steady : Steady s e := by
    refine good.wired.steady locked fun p at_v => ?_
    rw [position] at at_v
    cases at_v
    rcases frees with h | h <;> cases h
  rw [← (good.entry e).copied used valid clean steady]
  exact ⟨unlinked, clean⟩

/-- No process frees the entry of a reference that is not used by a call. -/
theorem Consistent.calm (good : Consistent s) {q : Reference} (held : s.held q = some e) (unused : ¬ s.inUse q)
    (v : Slot) (phase : InodePhase) (p : Reference) (position : s.pc v = .call phase p e)
    (inside : insideLock phase = true) : phase.puts = false := by
  have used {p : Reference} (position : s.pc v = .call phase p e) (same : q = p) : False :=
    (not_inUse unused).1 v (by rw [position, same]; rfl)
  cases phase with
  | load new => rfl
  | trunc => exact (used position (((good.entry e).freeing v _ p position (.inl rfl)).1 q held)).elim
  | erase => exact (used position (((good.entry e).freeing v _ p position (.inr rfl)).1 q held)).elim
  | release =>
      rcases ((good.entry e).released v p position).1 q held with same | fresh
      · exact (used position same).elim
      · exact absurd fresh (not_fresh unused)
  | _ => cases inside

/-- A process gives a reference an inode with a link, an inode that some other reference keeps, or a new
inode. -/
inductive Source (s : Itable) (t : Slot) (r : Reference) (key : InodeKey) (pc : InodePc) : Prop where
  | linked : (s.disk key).type ≠ 0 → (s.disk key).nlink ≠ 0 → Source s t r key pc
  | shared (q : Reference) (c : InodeIndex) :
      s.held q = some c → (s.inode c).key = key → ¬ Leaving s q →
      ((s.disk key).nlink = 0 → (s.inode c).valid = true) →
      (∀ v phase p, s.pc v = .call phase p c → insideLock phase = true → phase.puts = false) →
      Source s t r key pc
  | new : s.pc t = .get key r → freshAt pc = some r → Source s t r key pc

theorem Binds.source (binds : Binds s t r key e pc) (good : Consistent s) : Source s t r key pc := by
  cases binds with
  | lookup idle named =>
      rcases named with ⟨typed, linked⟩ | ⟨c, q, locked, own⟩
      · exact .linked typed linked
      · refine .shared q c (good.wired.lock c t q locked) own (good.wired.stays_idle locked idle)
          (fun _ => (good.entry c).valid locked idle) ?_
        intro v phase p position inside
        obtain ⟨rfl, rfl⟩ := good.wired.alone locked position inside
        rw [idle] at position
        cases position
  | get position => exact .new position rfl
  | dup q idle held unused same =>
      refine .shared q e held same.symm (not_leaving unused) (fun unlinked => ?_) (good.calm held unused)
      rw [same] at unlinked
      rcases (good.entry e).settled q held (not_leaving unused) unlinked with valid | fresh
      · exact valid
      · exact absurd fresh (not_fresh unused)

theorem Source.type (source : Source s t r key pc) (good : Consistent s) : (s.disk key).type ≠ 0 := by
  cases source with
  | linked typed linked => exact typed
  | shared q c held own stays valid calm =>
      rw [← own]
      exact (good.entry c).live q held stays
  | new position fresh => exact (good.getting t key r position).1

/-- The entry of the inode is not being freed, and if it has been freed the reference is new. -/
theorem Source.hit (source : Source s t r key pc) (good : Consistent s) (used : 0 < (s.inode e).ref)
    (own : (s.inode e).key = key) :
    (∀ v phase q, s.pc v = .call phase q e → phase = .trunc ∨ phase = .erase → False) ∧
      (∀ v q, s.pc v = .call .release q e → freshAt pc = some r) ∧
      ((s.disk key).nlink = 0 → (s.inode e).valid = true ∨ freshAt pc = some r) := by
  cases source with
  | linked typed linked =>
      refine ⟨fun v phase q position frees => linked ?_, fun v q position => absurd ?_ linked,
        fun unlinked => absurd unlinked linked⟩
      · rw [← own]
        exact (good.unlinked position frees).1
      · rw [← own]
        exact ((good.entry e).released v q position).2
  | shared q c held same stays valid calm =>
      obtain rfl := good.unique c e (good.counted.positive held) used (same.trans own.symm)
      refine ⟨fun v phase p position frees => ?_, fun v p position => ?_, fun unlinked => .inl (valid unlinked)⟩
      · have quiet := calm v phase p position (by rcases frees with rfl | rfl <;> rfl)
        rcases frees with rfl | rfl <;> cases quiet
      · cases calm v _ p position rfl
  | new position fresh =>
      refine ⟨fun v phase q at_v frees => ?_, fun _ _ _ => fresh, fun _ => .inr fresh⟩
      have leaving := (good.getting t key r position).2.2.1 q e (good.wired.call v phase q e at_v) own
      refine good.wired.stays at_v ?_ leaving
      rcases frees with rfl | rfl <;> exact ⟨nofun, nofun⟩

/-- What a step that gives a reference an entry changes. -/
structure Bound (s u : Itable) (t : Slot) (r : Reference) (key : InodeKey) (e : InodeIndex) (ip : Inode)
    (pc : InodePc) : Prop where
  binds : Binds s t r key e pc
  gets : Gets s key e ip
  empty : s.held r = none
  moved : ∀ v, u.pc v = if v = t then pc else s.pc v
  inode : ∀ c, u.inode c = if c = e then ip else s.inode c
  held : ∀ q, u.held q = if q = r then some e else s.held q
  disk : u.disk = s.disk

theorem Bound.leaving (bound : Bound s u t r key e ip pc) (q : Reference) : Leaving u q ↔ Leaving s q := by
  refine exists_congr fun v => ?_
  rw [bound.moved]
  split_ifs with here
  · rw [here, bound.binds.after.2.1, bound.binds.before.2.1]
  · rfl

theorem Bound.fresh (bound : Bound s u t r key e ip pc) {q : Reference} (fresh : Fresh s q) : Fresh u q := by
  obtain ⟨v, new⟩ := fresh
  refine ⟨v, ?_⟩
  rw [bound.moved, if_neg, new]
  rintro rfl
  rw [bound.binds.before.2.2] at new
  cases new

theorem Bound.fresh_own (bound : Bound s u t r key e ip pc) (new : freshAt pc = some r) : Fresh u r :=
  ⟨t, by rw [bound.moved, if_pos rfl, new]⟩

theorem Bound.call (bound : Bound s u t r key e ip pc) {v : Slot} {phase : InodePhase} {q : Reference}
    {c : InodeIndex} (position : u.pc v = .call phase q c) :
    v ≠ t ∧ s.pc v = .call phase q c ∨ v = t ∧ phase = .lock true ∧ q = r ∧ c = e := by
  rw [bound.moved] at position
  split_ifs at position with here
  · exact .inr ⟨here, bound.binds.after.1 phase q c position⟩
  · exact .inl ⟨here, position⟩

/-- The entry that was found keeps what holds of it. -/
theorem entry_hit (bound : Bound s u t r key e ip pc) (good : Consistent s) (used : 0 < (s.inode e).ref)
    (own : (s.inode e).key = key) (same : ip = { s.inode e with ref := (s.inode e).ref + 1 }) : Entry u e := by
  have source := bound.binds.source good
  obtain ⟨unfreed, released, valid⟩ := source.hit good used own
  have entry := good.entry e
  have now : u.inode e = { s.inode e with ref := (s.inode e).ref + 1 } := by
    rw [bound.inode, if_pos rfl, same]
  have steady (calm : Steady u e) : Steady s e := by
    intro v q position
    refine calm v q ?_
    rw [bound.moved, if_neg, position]
    rintro rfl
    exact bound.binds.before.1 _ _ _ position
  refine ⟨?_, ?_, ?_, ?_, ?_, ?_, ?_, ?_⟩
  · intro q held stays
    rw [bound.held] at held
    rw [bound.leaving] at stays
    rw [now, bound.disk]
    split_ifs at held with here
    · dsimp only
      rw [own]
      exact source.type good
    · exact entry.live q held stays
  · intro changed
    rw [now] at changed ⊢
    obtain ⟨v, q, locked, keeps⟩ := entry.dirty changed
    refine ⟨v, q, locked, ?_⟩
    rw [bound.moved]
    split_ifs with here
    · rw [bound.binds.after.2.2.1]
      nofun
    · exact keeps
  · intro v q locked
    rw [now] at locked ⊢
    refine (entry.ready v q locked).imp_right fun ⟨new, position⟩ => ⟨new, ?_⟩
    rw [bound.moved, if_neg, position]
    rintro rfl
    exact bound.binds.before.1 _ _ _ position
  · rw [now]
    exact fun _ known calm => entry.typed used known (steady calm)
  · rw [now, bound.disk]
    exact fun _ known clean calm => entry.copied used known clean (steady calm)
  · intro v phase q position frees
    rcases bound.call position with ⟨_, old⟩ | ⟨_, rfl, _⟩
    · exact (unfreed v phase q old frees).elim
    · rcases frees with h | h <;> cases h
  · intro v q position
    rcases bound.call position with ⟨_, old⟩ | ⟨_, h, _⟩
    · rw [now, bound.disk]
      refine ⟨fun p held => ?_, (entry.released v q old).2⟩
      rw [bound.held] at held
      split_ifs at held with here
      · rw [here]
        exact .inr (bound.fresh_own (released v q old))
      · exact ((entry.released v q old).1 p held).imp_right bound.fresh
    · cases h
  · intro q held stays unlinked
    rw [bound.held] at held
    rw [bound.leaving] at stays
    rw [now, bound.disk] at unlinked
    rw [now]
    split_ifs at held with here
    · dsimp only at unlinked
      rw [own] at unlinked
      rw [here]
      exact (valid unlinked).imp_right bound.fresh_own
    · exact (entry.settled q held stays unlinked).imp_right bound.fresh

/-- A free entry that is taken has one reference and no valid inode. -/
theorem entry_new (bound : Bound s u t r key e ip pc) (good : Consistent s) (zero : (s.inode e).ref = 0)
    (missing : ∀ c, 0 < (s.inode c).ref → (s.inode c).key ≠ key)
    (same : ip = { s.inode e with key := key, ref := 1, valid := false }) : Entry u e := by
  have source := bound.binds.source good
  have unheld {q : Reference} (held : s.held q = some e) : False := by
    have used := good.counted.positive held
    omega
  have unlocked (v : Slot) (q : Reference) : (s.inode e).lock ≠ some (v, q) :=
    fun locked => unheld (good.wired.lock e v q locked)
  have now : u.inode e = { s.inode e with key := key, ref := 1, valid := false } := by
    rw [bound.inode, if_pos rfl, same]
  have absent {v : Slot} {phase : InodePhase} {q : Reference} (position : u.pc v = .call phase q e) :
      phase = .lock true := by
    rcases bound.call position with ⟨_, old⟩ | ⟨_, here, _⟩
    · exact (unheld (good.wired.call v phase q e old)).elim
    · exact here
  refine ⟨?_, ?_, ?_, ?_, ?_, ?_, ?_, ?_⟩
  · intro q held stays
    rw [now, bound.disk]
    exact source.type good
  · intro changed
    rw [now] at changed
    obtain ⟨v, q, locked, _⟩ := (good.entry e).dirty changed
    exact absurd locked (unlocked v q)
  · intro v q locked
    rw [now] at locked
    exact absurd locked (unlocked v q)
  · rw [now]
    nofun
  · rw [now]
    nofun
  · intro v phase q position frees
    rw [absent position] at frees
    rcases frees with h | h <;> cases h
  · intro v q position
    cases absent position
  · intro q held stays unlinked
    rw [bound.held] at held
    rw [now, bound.disk] at unlinked
    split_ifs at held with here
    · rw [here]
      refine .inr (bound.fresh_own ?_)
      cases source with
      | linked typed linked => exact absurd unlinked linked
      | shared p c mine own _ _ _ => exact absurd own (missing c (good.counted.positive mine))
      | new position fresh => exact fresh
    · exact (unheld held).elim

theorem entry_bind (bound : Bound s u t r key e ip pc) (good : Consistent s) (wired : Wired u) (c : InodeIndex) :
    Entry u c := by
  by_cases here : c = e
  · subst here
    cases gets : bound.gets with
    | hit used own => exact entry_hit bound good used own rfl
    | new missing zero => exact entry_new bound good zero missing rfl
  · refine (good.entry c).frame (t := t) good.wired wired good.counted ?_ ?_ ?_ ?_ ?_ ?_
    · intro v other
      rw [bound.moved, if_neg other]
    · rw [bound.inode, if_neg here]
    · intro q
      rw [bound.held]
      split_ifs with mine
      · rw [mine, bound.empty]
        exact iff_of_false (by simpa using Ne.symm here) nofun
      · rfl
    · exact fun _ => by rw [bound.disk]
    · exact fun phase q => bound.binds.before.1 phase q c
    · intro phase q position
      rw [bound.moved, if_pos rfl] at position
      exact here (bound.binds.after.1 phase q c position).2.2

end Bind

section Unref

variable {s u : Itable} {t : Slot} {r : Reference} {e : InodeIndex} {phase : InodePhase}

/-- What a step that gives back a reference changes. -/
structure Unbound (s u : Itable) (t : Slot) (r : Reference) (e : InodeIndex) (phase : InodePhase) : Prop where
  position : s.pc t = .call phase r e
  last : phase = .put ∨ phase = .drop
  moved : ∀ v, u.pc v = if v = t then .idle else s.pc v
  inode : ∀ c, u.inode c = if c = e then { s.inode e with ref := (s.inode e).ref - 1 } else s.inode c
  held : ∀ q, u.held q = if q = r then none else s.held q
  disk : u.disk = s.disk

theorem Unbound.leaving (unbound : Unbound s u t r e phase) {q : Reference} (other : q ≠ r)
    (leaving : Leaving s q) : Leaving u q := by
  obtain ⟨v, leaves⟩ := leaving
  refine ⟨v, ?_⟩
  rw [unbound.moved, if_neg, leaves]
  rintro rfl
  obtain ⟨_, _, _, position, _⟩ := call_of_leavesAt leaves
  rw [unbound.position] at position
  cases position
  exact other rfl

theorem Unbound.fresh (unbound : Unbound s u t r e phase) {q : Reference} (fresh : Fresh s q) : Fresh u q := by
  obtain ⟨v, new⟩ := fresh
  refine ⟨v, ?_⟩
  rw [unbound.moved, if_neg, new]
  rintro rfl
  rw [unbound.position] at new
  rcases unbound.last with rfl | rfl <;> cases new

theorem Unbound.call (unbound : Unbound s u t r e phase) {v : Slot} {at_v : InodePhase} {q : Reference}
    {c : InodeIndex} (position : u.pc v = .call at_v q c) : s.pc v = .call at_v q c := by
  rw [unbound.moved] at position
  split_ifs at position
  exact position

theorem Unbound.mine (unbound : Unbound s u t r e phase) {q : Reference} {c : InodeIndex}
    (held : u.held q = some c) : q ≠ r ∧ s.held q = some c := by
  rw [unbound.held] at held
  split_ifs at held with here
  exact ⟨here, held⟩

theorem entry_unref (unbound : Unbound s u t r e phase) (good : Consistent s) : Entry u e := by
  have entry := good.entry e
  have now : u.inode e = { s.inode e with ref := (s.inode e).ref - 1 } := by
    rw [unbound.inode, if_pos rfl]
  have stays {q : Reference} (other : q ≠ r) (stays : ¬ Leaving u q) : ¬ Leaving s q :=
    fun leaving => stays (unbound.leaving other leaving)
  have steady (calm : Steady u e) : Steady s e := by
    intro v q position
    refine calm v q ?_
    rw [unbound.moved, if_neg, position]
    rintro rfl
    rw [unbound.position] at position
    cases position
    rcases unbound.last with h | h <;> cases h
  refine ⟨?_, ?_, ?_, ?_, ?_, ?_, ?_, ?_⟩
  · intro q held keeps
    obtain ⟨other, mine⟩ := unbound.mine held
    rw [now, unbound.disk]
    exact entry.live q mine (stays other keeps)
  · intro changed
    rw [now] at changed ⊢
    obtain ⟨v, q, locked, keeps⟩ := entry.dirty changed
    refine ⟨v, q, locked, ?_⟩
    rw [unbound.moved]
    split_ifs
    · nofun
    · exact keeps
  · intro v q locked
    rw [now] at locked ⊢
    refine (entry.ready v q locked).imp_right fun ⟨new, position⟩ => ⟨new, ?_⟩
    rw [unbound.moved, if_neg, position]
    rintro rfl
    rw [unbound.position] at position
    cases position
    rcases unbound.last with h | h <;> cases h
  · rw [now]
    exact fun used known calm => entry.typed (by dsimp only at used; omega) known (steady calm)
  · rw [now, unbound.disk]
    exact fun used known clean calm => entry.copied (by dsimp only at used; omega) known clean (steady calm)
  · intro v at_v q position frees
    obtain ⟨only, rest⟩ := entry.freeing v at_v q (unbound.call position) frees
    rw [now]
    exact ⟨fun p held => only p (unbound.mine held).2, rest⟩
  · intro v q position
    obtain ⟨only, unlinked⟩ := entry.released v q (unbound.call position)
    rw [now, unbound.disk]
    exact ⟨fun p held => (only p (unbound.mine held).2).imp_right unbound.fresh, unlinked⟩
  · intro q held keeps unlinked
    obtain ⟨other, mine⟩ := unbound.mine held
    rw [now, unbound.disk] at unlinked
    rw [now]
    exact (entry.settled q mine (stays other keeps) unlinked).imp_right unbound.fresh

theorem entry_unref_other (unbound : Unbound s u t r e phase) (good : Consistent s) (wired : Wired u)
    {c : InodeIndex} (apart : c ≠ e) : Entry u c := by
  refine (good.entry c).frame (t := t) good.wired wired good.counted ?_ ?_ ?_ ?_ ?_ ?_
  · intro v other
    rw [unbound.moved, if_neg other]
  · rw [unbound.inode, if_neg apart]
  · intro q
    rw [unbound.held]
    split_ifs with here
    · rw [here, good.wired.call t _ r e unbound.position]
      exact iff_of_false nofun (by simpa using Ne.symm apart)
    · rfl
  · exact fun _ => by rw [unbound.disk]
  · intro at_t q position
    rw [unbound.position] at position
    cases position
    exact apart rfl
  · intro at_t q position
    rw [unbound.moved, if_pos rfl] at position
    cases position

end Unref

section Take

variable {s u : Itable} {t : Slot} {r : Reference} {key : InodeKey} {type : CShort}

/-- What a step that allocates an inode on the disk changes. -/
structure Taken (s u : Itable) (t : Slot) (r : Reference) (key : InodeKey) (type : CShort) : Prop where
  position : ∃ dev inum, s.pc t = .alloc dev inum type r
  nonzero : type ≠ 0
  free : (s.disk key).type = 0
  moved : ∀ v, u.pc v = if v = t then .get key r else s.pc v
  inode : u.inode = s.inode
  held : u.held = s.held
  disk : ∀ k, u.disk k = if k = key then { Dinode.zero with type := type } else s.disk k

theorem Taken.before (taken : Taken s u t r key type) :
    (∀ phase q c, s.pc t ≠ .call phase q c) ∧ leavesAt (s.pc t) = none ∧ freshAt (s.pc t) = none := by
  obtain ⟨dev, inum, position⟩ := taken.position
  rw [position]
  exact ⟨nofun, rfl, rfl⟩

theorem Taken.leaving (taken : Taken s u t r key type) (q : Reference) : Leaving u q ↔ Leaving s q := by
  refine exists_congr fun v => ?_
  rw [taken.moved]
  split_ifs with here
  · rw [here, taken.before.2.1]
    rfl
  · rfl

theorem Taken.fresh (taken : Taken s u t r key type) (q : Reference) : Fresh u q ↔ Fresh s q := by
  refine exists_congr fun v => ?_
  rw [taken.moved]
  split_ifs with here
  · rw [here, taken.before.2.2]
    rfl
  · rfl

theorem Taken.call (taken : Taken s u t r key type) {v : Slot} {phase : InodePhase} {q : Reference}
    {c : InodeIndex} : u.pc v = .call phase q c ↔ s.pc v = .call phase q c := by
  rw [taken.moved]
  split_ifs with here
  · rw [here]
    exact iff_of_false nofun (taken.before.1 phase q c)
  · rfl

/-- All references to a free inode are leaving. -/
theorem Taken.leaves (taken : Taken s u t r key type) (good : Consistent s) {q : Reference} {c : InodeIndex}
    (held : s.held q = some c) (own : (s.inode c).key = key) : Leaving s q := by
  by_contra stays
  exact (good.entry c).live q held stays (by rw [own, taken.free])

/-- An entry of the allocated inode is about to be given back. -/
theorem entry_take_own (taken : Taken s u t r key type) (good : Consistent s) {c : InodeIndex}
    (own : (s.inode c).key = key) : Entry u c := by
  have entry := good.entry c
  have leaves {q : Reference} (held : u.held q = some c) : Leaving u q := by
    rw [taken.held] at held
    rw [taken.leaving]
    exact taken.leaves good held own
  have steady : Steady u c ↔ Steady s c := by
    simp only [Steady, ne_eq, taken.call]
  refine ⟨fun q held stays => absurd (leaves held) stays, ?_, ?_, ?_, ?_, ?_, ?_,
    fun q held stays => absurd (leaves held) stays⟩
  · rw [taken.inode]
    intro changed
    obtain ⟨v, q, locked, keeps⟩ := entry.dirty changed
    refine ⟨v, q, locked, ?_⟩
    rw [taken.moved]
    split_ifs
    · rintro ⟨⟩
    · exact keeps
  · rw [taken.inode]
    simp only [taken.call]
    exact entry.ready
  · rw [taken.inode, steady]
    exact entry.typed
  · rw [taken.inode, steady]
    intro used known clean calm
    have same := entry.copied used known clean calm
    have nonzero := entry.typed used known calm
    rw [same, own] at nonzero
    exact absurd taken.free nonzero
  · rw [taken.inode, taken.held]
    simp only [taken.call]
    exact entry.freeing
  · intro v q position
    rw [taken.call] at position
    rw [taken.inode, taken.held, taken.disk, if_pos own]
    simp only [taken.fresh]
    exact ⟨(entry.released v q position).1, rfl⟩

theorem entry_take (taken : Taken s u t r key type) (good : Consistent s) (wired : Wired u) (c : InodeIndex) :
    Entry u c := by
  by_cases own : (s.inode c).key = key
  · exact entry_take_own taken good own
  · refine (good.entry c).frame (t := t) good.wired wired good.counted ?_ ?_ ?_ ?_ ?_ ?_
    · intro v other
      rw [taken.moved, if_neg other]
    · rw [taken.inode]
    · rw [taken.held]
      exact fun _ => Iff.rfl
    · intro _
      rw [taken.disk, if_neg own]
    · exact fun phase q => taken.before.1 phase q c
    · intro phase q
      rw [taken.moved, if_pos rfl]
      nofun

end Take

section Consistent

variable {s u : Itable} {event : InodeEvent}

theorem entry_step (good : Consistent s) (wired : Wired u) (change : Change s event u) (c : InodeIndex) :
    Entry u c := by
  cases change with
  | still event u pc inode held disk =>
      have entry := good.entry c
      refine ⟨?_, ?_, ?_, ?_, ?_, ?_, ?_, ?_⟩ <;> simp only [Leaving, Fresh, Steady, pc, inode, held, disk]
      · exact entry.live
      · exact entry.dirty
      · exact entry.ready
      · exact entry.typed
      · exact entry.copied
      · exact entry.freeing
      · exact entry.released
      · exact entry.settled
  | wander event u t pc calls gets allocs moved inode held disk =>
      refine (good.entry c).frame (t := t) good.wired wired good.counted ?_ (by rw [inode]) (by simp [held])
        (by simp [disk]) (fun phase q => (calls phase q c).2) ?_
      · intro v other
        rw [moved, if_neg other]
      · intro phase q
        rw [moved, if_pos rfl]
        exact (calls phase q c).1
  | take event u t type r key position nonzero free moved inode held disk =>
      exact entry_take ⟨position, nonzero, free, moved, inode, held, disk⟩ good wired c
  | inside event u t e pc ip written step =>
      by_cases here : c = e
      · subst here
        exact entry_inside step good.wired good.counted (good.entry c)
      · have used : 0 < (s.inode e).ref := step.act.used good.wired good.counted
        refine (good.entry c).frame (t := t) good.wired wired good.counted step.others ?_ (by simp [step.held]) ?_ ?_ ?_
        · rw [step.inode, if_neg here]
        · intro busy
          rw [step.disk, if_neg]
          exact fun same => here (good.unique c e busy used same)
        · exact fun phase q position => here (step.act.before phase q c position)
        · intro phase q position
          rw [step.now] at position
          exact here (step.act.after phase q c position)
  | bind event u t r key e ip pc binds gets empty moved inode held disk =>
      exact entry_bind ⟨binds, gets, empty, moved, inode, held, disk⟩ good wired c
  | unref u t r e phase position last moved inode held disk =>
      have unbound : Unbound s u t r e phase := ⟨position, last.imp_left And.left, moved, inode, held, disk⟩
      by_cases here : c = e
      · rw [here]
        exact entry_unref unbound good
      · exact entry_unref_other unbound good wired here

/-- Only `ialloc` looks for a free inode. -/
theorem typed_step (typed : Typed s) (change : Change s event u) : Typed u := by
  intro v dev inum kind r position
  have others {t : Slot} {pc : InodePc} (moved : ∀ v, u.pc v = if v = t then pc else s.pc v)
      (apart : ∀ dev inum kind r, pc = .alloc dev inum kind r → kind ≠ 0) : kind ≠ 0 := by
    rw [moved] at position
    split_ifs at position
    · exact apart dev inum kind r position
    · exact typed v dev inum kind r position
  cases change with
  | still event u pc inode held disk => exact typed v dev inum kind r (by rwa [← pc])
  | wander event u t pc calls gets allocs moved inode held disk => exact others moved allocs
  | take event u t type q key position nonzero free moved inode held disk => exact others moved nofun
  | inside event u t e pc ip written step =>
      refine others step.moved ?_
      cases step.act <;> nofun
  | bind event u t q key e ip pc binds gets empty moved inode held disk =>
      refine others moved ?_
      cases binds <;> nofun
  | unref u t q e phase position last moved inode held disk => exact others moved nofun

/-- A step on an entry whose references are all leaving writes nothing. -/
theorem Local.writes_none {t : Slot} {e : InodeIndex} {pc : InodePc} {ip : Inode} {written : Option Dinode}
    (act : Local s t e pc ip written) (wired : Wired s) (leaving : ∀ q, s.held q = some e → Leaving s q) :
    written = none := by
  cases act with
  | update r idle locked =>
      exact absurd (leaving r (wired.lock e t r locked)) (wired.stays_idle locked idle)
  | trunc r copy position same | erase r copy position same =>
      exact absurd (leaving r (wired.call t _ r e position)) (wired.stays position ⟨nofun, nofun⟩)
  | _ => rfl

/-- A reference that is given an entry is not for an inode that another process has just allocated. -/
theorem Source.apart {t v : Slot} {r q : Reference} {key : InodeKey} {pc : InodePc}
    (source : Source s t r key pc) (good : Consistent s) (other : v ≠ t) (position : s.pc v = .get key q) :
    False := by
  obtain ⟨_, unlinked, leaving, alone⟩ := good.getting v key q position
  cases source with
  | linked typed linked => exact linked unlinked
  | shared p c held own stays valid calm => exact stays (leaving p c held own)
  | new at_t fresh => exact other (alone t r at_t).symm

theorem getting_bind {t : Slot} {r : Reference} {key : InodeKey} {e : InodeIndex} {ip : Inode} {pc : InodePc}
    (bound : Bound s u t r key e ip pc) (good : Consistent s) : Getting u := by
  have old {v : Slot} {k : InodeKey} {q : Reference} (position : u.pc v = .get k q) :
      v ≠ t ∧ s.pc v = .get k q := by
    rw [bound.moved] at position
    split_ifs at position with here
    · exact absurd position (bound.binds.after.2.2.2 k q)
    · exact ⟨here, position⟩
  intro v k q position
  obtain ⟨other, before⟩ := old position
  obtain ⟨nonzero, unlinked, leaving, alone⟩ := good.getting v k q before
  rw [bound.disk]
  refine ⟨nonzero, unlinked, ?_, fun w p at_w => alone w p (old at_w).2⟩
  intro p c held own
  rw [bound.leaving]
  rw [bound.held] at held
  rw [bound.inode] at own
  by_cases mine : p = r
  · rw [if_pos mine] at held
    cases held
    rw [if_pos rfl] at own
    have same : key = k := by
      cases gets : bound.gets with
      | hit used found => exact found.symm.trans own
      | new missing zero => exact own
    subst same
    exact ((bound.binds.source good).apart good other before).elim
  · rw [if_neg mine] at held
    refine leaving p c held ?_
    split_ifs at own with here
    · cases gets : bound.gets with
      | hit used found => rwa [here]
      | new missing zero =>
          rw [here] at held
          have used := good.counted.positive held
          omega
    · exact own

theorem getting_unref {t : Slot} {r : Reference} {e : InodeIndex} {phase : InodePhase}
    (unbound : Unbound s u t r e phase) (good : Consistent s) : Getting u := by
  have old {v : Slot} {k : InodeKey} {q : Reference} (position : u.pc v = .get k q) : s.pc v = .get k q := by
    rw [unbound.moved] at position
    split_ifs at position
    exact position
  intro v k q position
  obtain ⟨nonzero, unlinked, leaving, alone⟩ := good.getting v k q (old position)
  rw [unbound.disk]
  refine ⟨nonzero, unlinked, ?_, fun w p at_w => alone w p (old at_w)⟩
  intro p c held own
  obtain ⟨other, mine⟩ := unbound.mine held
  refine unbound.leaving other (leaving p c mine ?_)
  rw [unbound.inode] at own
  split_ifs at own with here
  · rwa [here]
  · exact own

theorem getting_take {t : Slot} {r : Reference} {key : InodeKey} {type : CShort}
    (taken : Taken s u t r key type) (good : Consistent s) : Getting u := by
  have apart {v : Slot} {k : InodeKey} {q : Reference} (position : s.pc v = .get k q) : k ≠ key := by
    rintro rfl
    exact (good.getting v k q position).1 taken.free
  have old {v : Slot} {k : InodeKey} {q : Reference} (position : u.pc v = .get k q) :
      v = t ∧ k = key ∨ s.pc v = .get k q := by
    rw [taken.moved] at position
    split_ifs at position with here
    · cases position
      exact .inl ⟨here, rfl⟩
    · exact .inr position
  intro v k q position
  rw [taken.held, taken.inode]
  simp only [taken.leaving]
  rcases old position with ⟨rfl, rfl⟩ | before
  · rw [taken.disk, if_pos rfl]
    refine ⟨taken.nonzero, rfl, fun p c held own => taken.leaves good held own, fun w p at_w => ?_⟩
    rcases old at_w with ⟨rfl, _⟩ | other
    · rfl
    · exact absurd rfl (apart other)
  · obtain ⟨nonzero, unlinked, leaving, alone⟩ := good.getting v k q before
    rw [taken.disk, if_neg (apart before)]
    refine ⟨nonzero, unlinked, leaving, fun w p at_w => ?_⟩
    rcases old at_w with ⟨_, same⟩ | other
    · exact absurd same (apart before)
    · exact alone w p other

theorem getting_inside {t : Slot} {e : InodeIndex} {pc : InodePc} {ip : Inode} {written : Option Dinode}
    (step : Inside s u t e pc ip written) (good : Consistent s) : Getting u := by
  have old {v : Slot} {k : InodeKey} {q : Reference} (position : u.pc v = .get k q) : s.pc v = .get k q := by
    rw [step.moved] at position
    split_ifs at position
    · cases act : step.act <;> cases position
    · exact position
  intro v k q position
  obtain ⟨nonzero, unlinked, leaving, alone⟩ := good.getting v k q (old position)
  have same : u.disk k = s.disk k := by
    rw [step.disk]
    split_ifs with own
    · rw [step.act.writes_none good.wired fun p held => leaving p e held own.symm]
      rfl
    · rfl
  rw [same, step.held]
  refine ⟨nonzero, unlinked, fun p c held own => step.leaving (leaving p c held ?_),
    fun w p at_w => alone w p (old at_w)⟩
  rw [step.inode] at own
  split_ifs at own with here
  · rw [here, ← step.act.key, own]
  · exact own

theorem getting_step (good : Consistent s) (change : Change s event u) : Getting u := by
  cases change with
  | still event u pc inode held disk =>
      simp only [Getting, Leaving, pc, inode, held, disk]
      exact good.getting
  | wander event u t pc calls gets allocs moved inode held disk =>
      have old {v : Slot} {k : InodeKey} {q : Reference} (position : u.pc v = .get k q) : s.pc v = .get k q := by
        rw [moved] at position
        split_ifs at position
        · exact absurd position (gets k q).1
        · exact position
      intro v k q position
      obtain ⟨nonzero, unlinked, leaving, alone⟩ := good.getting v k q (old position)
      rw [disk, held, inode]
      refine ⟨nonzero, unlinked, fun p c mine own => ?_, fun w p at_w => alone w p (old at_w)⟩
      obtain ⟨w, leaves⟩ := leaving p c mine own
      refine ⟨w, ?_⟩
      rw [moved, if_neg, leaves]
      rintro rfl
      obtain ⟨_, phase, d, at_w, _⟩ := call_of_leavesAt leaves
      exact (calls phase p d).2 at_w
  | take event u t type r key position nonzero free moved inode held disk =>
      exact getting_take ⟨position, nonzero, free, moved, inode, held, disk⟩ good
  | inside event u t e pc ip written step => exact getting_inside step good
  | bind event u t r key e ip pc binds gets empty moved inode held disk =>
      exact getting_bind ⟨binds, gets, empty, moved, inode, held, disk⟩ good
  | unref u t r e phase position last moved inode held disk =>
      exact getting_unref ⟨position, last.imp_left And.left, moved, inode, held, disk⟩ good

/-- Every step keeps the table consistent. -/
theorem consistent_step {ninodes : Nat} (good : Consistent s) (step : s.Step ninodes event u) :
    Consistent u := by
  have move := move_next step
  have change := change_move good.wired good.counted good.typed move
  have effect := effect_move good.wired good.counted move
  have wired := wired_step good.wired move
  exact ⟨wired, counted_effect good.counted effect, unique_effect good.unique effect,
    typed_step good.typed change, getting_step good change, entry_step good wired change⟩

theorem consistent_boot (disk : InodeKey → Dinode) : Consistent (Itable.boot disk) where
  wired := wired_boot disk
  counted := fun _ => (Finset.sum_eq_zero fun _ _ => if_neg nofun).symm
  unique := nofun
  typed := nofun
  getting := nofun
  entry := fun _ => ⟨nofun, nofun, nofun, nofun, nofun, nofun, nofun, nofun⟩

/-- The table is consistent in every state of a run. -/
theorem consistent_run {ninodes : Nat} {trace : List (Itable × InodeEvent)} {disk : InodeKey → Dinode}
    (run : Run (Itable.Step · ninodes) (Itable.boot disk) trace u) : Consistent u :=
  Reachable.invariant ⟨trace, run⟩ (fun _ _ _ good stepped => consistent_step good stepped)
    (consistent_boot disk)

end Consistent

end Xv6.Inodes
