/-
This file shows how the positions of the processes, the references and the sleep locks of the inode table fit
together.
-/

import Xv6.Proof.Inode.Move

namespace Xv6.Inodes
open TransitionSystem

section Frames

variable (s : Itable) (t v : Slot) (e c : InodeIndex) (r q : Reference) (pc : InodePc) (ip : Inode)
variable (key k : InodeKey) (dip : Dinode) (o : Option InodeIndex)

@[simp] theorem goto_pc : (s.goto t pc).pc v = if v = t then pc else s.pc v := by
  simp [Itable.goto, Function.update_apply]

@[simp] theorem goto_inode : (s.goto t pc).inode = s.inode := rfl

@[simp] theorem goto_disk : (s.goto t pc).disk = s.disk := rfl

@[simp] theorem goto_held : (s.goto t pc).held = s.held := rfl

@[simp] theorem setInode_pc : (s.setInode e ip).pc = s.pc := rfl

@[simp] theorem setInode_inode : (s.setInode e ip).inode c = if c = e then ip else s.inode c := by
  simp [Itable.setInode, Function.update_apply]

@[simp] theorem setInode_disk : (s.setInode e ip).disk = s.disk := rfl

@[simp] theorem setInode_held : (s.setInode e ip).held = s.held := rfl

@[simp] theorem setDisk_pc : (s.setDisk key dip).pc = s.pc := rfl

@[simp] theorem setDisk_inode : (s.setDisk key dip).inode = s.inode := rfl

@[simp] theorem setDisk_disk : (s.setDisk key dip).disk k = if k = key then dip else s.disk k := by
  simp [Itable.setDisk, Function.update_apply]

@[simp] theorem setDisk_held : (s.setDisk key dip).held = s.held := rfl

@[simp] theorem setHeld_pc : (s.setHeld r o).pc = s.pc := rfl

@[simp] theorem setHeld_inode : (s.setHeld r o).inode = s.inode := rfl

@[simp] theorem setHeld_disk : (s.setHeld r o).disk = s.disk := rfl

@[simp] theorem setHeld_held : (s.setHeld r o).held q = if q = r then o else s.held q := by
  simp [Itable.setHeld, Function.update_apply]

/-- A change of an entry that keeps its sleep lock keeps all of them. -/
theorem setInode_lock (same : ip.lock = (s.inode e).lock) :
    ((s.setInode e ip).inode c).lock = (s.inode c).lock := by
  rw [setInode_inode]
  split_ifs with here
  · rw [here, same]
  · rfl

theorem setInode_relock :
    ((s.setInode e ip).inode c).lock = if c = e then ip.lock else (s.inode c).lock := by
  rw [setInode_inode]
  split_ifs <;> rfl

end Frames

/-- The reference that a position is about to fill. -/
def targets : InodePc → Option Reference
  | .alloc _ _ _ r | .get _ r => some r
  | _ => none

/-- The phase is inside the sleep lock. -/
def insideLock : InodePhase → Bool
  | .load _ | .trunc | .erase | .release => true
  | _ => false

/-- The positions, the references and the sleep locks fit together. A reference that is about to be filled or
given back is used by one process only. -/
structure Wired (s : Itable) : Prop where
  call : ∀ t phase r e, s.pc t = .call phase r e → s.held r = some e
  target : ∀ t r, targets (s.pc t) = some r → s.held r = none
  sole : ∀ t v r, targets (s.pc t) = some r ∨ (s.pc t).puts = some r → (s.pc v).reference = some r → v = t
  lock : ∀ e t r, (s.inode e).lock = some (t, r) → s.held r = some e
  holder : ∀ e t v r, (s.inode e).lock = some (t, r) → (s.pc v).puts = some r →
    v = t ∧ ∃ phase, s.pc t = .call phase r e ∧ insideLock phase = true
  within : ∀ t phase r e, s.pc t = .call phase r e → insideLock phase = true → (s.inode e).lock = some (t, r)

/-- What the position of one process needs from the rest of the state. -/
structure Fits (u : Itable) (t : Slot) : Prop where
  call : ∀ phase r e, u.pc t = .call phase r e → u.held r = some e
  target : ∀ r, targets (u.pc t) = some r → u.held r = none
  claim : ∀ r v, v ≠ t → targets (u.pc t) = some r ∨ (u.pc t).puts = some r → (u.pc v).reference ≠ some r
  free : ∀ r v, v ≠ t → (u.pc t).reference = some r → targets (u.pc v) ≠ some r ∧ (u.pc v).puts ≠ some r
  holder : ∀ e v r, (u.inode e).lock = some (v, r) → (u.pc t).puts = some r →
    v = t ∧ ∃ phase, u.pc t = .call phase r e ∧ insideLock phase = true
  within : ∀ phase r e, u.pc t = .call phase r e → insideLock phase = true → (u.inode e).lock = some (t, r)

/-- What a step of one process leaves to the others. -/
structure Spares (s u : Itable) (t : Slot) : Prop where
  moved : ∀ v, v ≠ t → u.pc v = s.pc v
  held : ∀ v r, v ≠ t → (s.pc v).reference = some r → u.held r = s.held r
  lock : ∀ e v r, (u.inode e).lock = some (v, r) → u.held r = some e
  holder : ∀ e v r w, w ≠ t → (u.inode e).lock = some (v, r) → (s.pc w).puts = some r →
    (s.inode e).lock = some (v, r)
  within : ∀ v phase r e, v ≠ t → s.pc v = .call phase r e → insideLock phase = true →
    (u.inode e).lock = (s.inode e).lock

section Wired

variable {s u : Itable} {event : InodeEvent}

/-- A position that gives a reference back uses it. -/
theorem reference_of_puts {pc : InodePc} {r : Reference} (puts : pc.puts = some r) : pc.reference = some r := by
  cases pc with
  | call phase q e =>
      simp only [InodePc.puts] at puts
      split_ifs at puts
      exact puts
  | _ => cases puts

theorem reference_of_targets {pc : InodePc} {r : Reference} (aims : targets pc = some r) :
    pc.reference = some r := by
  cases pc <;> first | exact aims | cases aims

/-- A step that fits and spares the other processes keeps everything together. -/
theorem Wired.change (wired : Wired s) {t : Slot} (fits : Fits u t) (spares : Spares s u t) : Wired u := by
  refine ⟨?_, ?_, ?_, spares.lock, ?_, ?_⟩
  · intro v phase r e at_v
    by_cases here : v = t
    · subst here
      exact fits.call phase r e at_v
    · rw [spares.moved v here] at at_v
      rw [spares.held v r here (by rw [at_v]; rfl)]
      exact wired.call v phase r e at_v
  · intro v r aims
    by_cases here : v = t
    · subst here
      exact fits.target r aims
    · rw [spares.moved v here] at aims
      rw [spares.held v r here (reference_of_targets aims)]
      exact wired.target v r aims
  · intro v w r claims refers
    by_cases here : v = t
    · subst here
      by_contra other
      exact fits.claim r w other claims refers
    · by_cases there : w = t
      · subst there
        exact absurd claims (not_or.mpr (fits.free r v here refers))
      · rw [spares.moved v here] at claims
        rw [spares.moved w there] at refers
        exact wired.sole v w r claims refers
  · intro e v w r locked puts
    by_cases here : w = t
    · subst here
      obtain ⟨rfl, inside⟩ := fits.holder e v r locked puts
      exact ⟨rfl, inside⟩
    · rw [spares.moved w here] at puts
      obtain ⟨rfl, inside⟩ := wired.holder e v w r (spares.holder e v r w here locked puts) puts
      refine ⟨rfl, ?_⟩
      rw [spares.moved w here]
      exact inside
  · intro v phase r e at_v inside
    by_cases here : v = t
    · subst here
      exact fits.within phase r e at_v inside
    · rw [spares.moved v here] at at_v
      rw [spares.within v phase r e here at_v inside]
      exact wired.within v phase r e at_v inside

/-- A process without a reference in its position fits. -/
theorem fits_idle {t : Slot} (idle : u.pc t = .idle) : Fits u t := by
  refine ⟨?_, ?_, ?_, ?_, ?_, ?_⟩ <;> rw [idle]
  · nofun
  · nofun
  · rintro r v _ (aims | puts)
    · cases aims
    · cases puts
  · nofun
  · nofun
  · nofun

/-- A step that changes no reference and no lock spares the others. -/
theorem Wired.spares_goto (wired : Wired s) {t : Slot} (moved : ∀ v, v ≠ t → u.pc v = s.pc v)
    (held : u.held = s.held) (lock : ∀ e, (u.inode e).lock = (s.inode e).lock) : Spares s u t := by
  refine ⟨moved, fun _ _ _ _ => by rw [held], ?_, ?_, fun _ _ _ e _ _ _ => lock e⟩
  · intro e v r locked
    rw [lock] at locked
    rw [held]
    exact wired.lock e v r locked
  · intro e v r w _ locked _
    rwa [lock] at locked

/-- A process that moves to the next phase of its call fits. -/
theorem Wired.fits_phase (wired : Wired s) {t : Slot} {phase : InodePhase} (after : InodePhase) {r : Reference}
    {e : InodeIndex} (position : s.pc t = .call phase r e) (now : u.pc t = .call after r e)
    (puts : after.puts = phase.puts) (held : u.held r = some e) (moved : ∀ v, v ≠ t → u.pc v = s.pc v)
    (holder : ∀ c v, (u.inode c).lock = some (v, r) → after.puts = true → v = t ∧ c = e ∧ insideLock after = true)
    (within : insideLock after = true → (u.inode e).lock = some (t, r)) : Fits u t := by
  have own : (s.pc t).puts = (u.pc t).puts := by
    rw [position, now]
    simp only [InodePc.puts, puts]
  have same : (s.pc t).reference = (u.pc t).reference := by
    rw [position, now]
    rfl
  refine ⟨?_, ?_, ?_, ?_, ?_, ?_⟩
  · intro at_phase q c at_t
    rw [now] at at_t
    cases at_t
    exact held
  · rw [now]
    nofun
  · intro q v other claims refers
    rw [moved v other] at refers
    rcases claims with aims | gives
    · rw [now] at aims
      cases aims
    · exact other (wired.sole t v q (.inr (own.trans gives)) refers)
  · intro q v other refers
    rw [moved v other]
    exact ⟨fun aims => other (wired.sole v t q (.inl aims) (same.trans refers)).symm,
      fun gives => other (wired.sole v t q (.inr gives) (same.trans refers)).symm⟩
  · intro c v q locked gives
    rw [now] at gives
    simp only [InodePc.puts] at gives
    split_ifs at gives with gone
    cases gives
    obtain ⟨rfl, rfl, inside⟩ := holder c v locked gone
    exact ⟨rfl, after, now, inside⟩
  · intro at_phase q c at_t inside
    rw [now] at at_t
    cases at_t
    exact within inside

/-- A process that starts to use a reference fits if it may. -/
theorem fits_enter {t : Slot} (pc : InodePc) {r : Reference} (now : u.pc t = pc)
    (refers : pc.reference = some r) (moved : ∀ v, v ≠ t → u.pc v = s.pc v)
    (call : ∀ phase e, pc = .call phase r e → u.held r = some e) (target : targets pc = some r → u.held r = none)
    (others : ∀ v, v ≠ t → targets (s.pc v) ≠ some r ∧ (s.pc v).puts ≠ some r)
    (claim : targets pc = some r ∨ pc.puts = some r → ∀ v, v ≠ t → (s.pc v).reference ≠ some r)
    (lock : ∀ e v, pc.puts = some r → (u.inode e).lock ≠ some (v, r))
    (outside : ∀ phase e, pc = .call phase r e → insideLock phase = false) : Fits u t := by
  have own {q : Reference} (uses : pc.reference = some q) : q = r := Option.some.inj (uses.symm.trans refers)
  refine ⟨?_, ?_, ?_, ?_, ?_, ?_⟩ <;> rw [now]
  · rintro phase q e rfl
    obtain rfl := own rfl
    exact call phase e rfl
  · intro q aims
    obtain rfl := own (reference_of_targets aims)
    exact target aims
  · intro q v other claims
    rw [moved v other]
    obtain rfl : q = r := own (claims.elim reference_of_targets reference_of_puts)
    exact claim claims v other
  · intro q v other uses
    rw [moved v other]
    obtain rfl := own uses
    exact others v other
  · intro e v q locked puts
    obtain rfl := own (reference_of_puts puts)
    exact absurd locked (lock e v puts)
  · rintro phase q e rfl inside
    obtain rfl := own rfl
    rw [outside phase e rfl] at inside
    cases inside

theorem not_inUse {r : Reference} (unused : ¬ s.inUse r) :
    (∀ v, (s.pc v).reference ≠ some r) ∧ ∀ e v, (s.inode e).lock ≠ some (v, r) := by
  constructor
  · exact fun v refers => unused (.inl ⟨v, refers⟩)
  · exact fun e v locked => unused (.inr ⟨e, v, locked⟩)

theorem wired_goes (wired : Wired s) {t : Slot} {pc : InodePc} (goes : Goes s t pc) : Wired (s.goto t pc) := by
  have now : (s.goto t pc).pc t = pc := by simp
  have moved (v : Slot) (other : v ≠ t) : (s.goto t pc).pc v = s.pc v := by simp [other]
  apply wired.change _ (wired.spares_goto moved rfl fun _ => rfl)
  have unclaimed {r : Reference} (unused : ¬ s.inUse r) (v : Slot) :
      targets (s.pc v) ≠ some r ∧ (s.pc v).puts ≠ some r :=
    ⟨fun aims => (not_inUse unused).1 v (reference_of_targets aims),
      fun puts => (not_inUse unused).1 v (reference_of_puts puts)⟩
  have others {r : Reference} (aims : targets (s.pc t) = some r) (v : Slot) (other : v ≠ t) :
      targets (s.pc v) ≠ some r ∧ (s.pc v).puts ≠ some r :=
    ⟨fun aims' => other (wired.sole t v r (.inl aims) (reference_of_targets aims')),
      fun puts => other (wired.sole t v r (.inl aims) (reference_of_puts puts))⟩
  cases goes with
  | alloc dev type r idle empty unused typed =>
      exact fits_enter _ now rfl moved nofun (fun _ => empty) (fun v _ => unclaimed unused v)
        (fun _ v _ => (not_inUse unused).1 v) nofun nofun
  | skip dev inum type r position =>
      have aims : targets (s.pc t) = some r := by rw [position]; rfl
      exact fits_enter _ now rfl moved nofun (fun _ => wired.target t r aims) (others aims)
        (fun _ v other refers => other (wired.sole t v r (.inl aims) refers)) nofun nofun
  | fail dev inum type r position => exact fits_idle now
  | lock r e idle held steady =>
      refine fits_enter _ now rfl moved (fun _ _ _ => ?_) nofun (fun v _ => ⟨fun aims => ?_, fun puts => ?_⟩)
        ?_ nofun (fun _ _ same => ?_)
      · cases ‹InodePc.call _ _ _ = _›
        exact held
      · have none := wired.target v r aims
        rw [held] at none
        cases none
      · exact steady ⟨v, puts⟩
      · rintro (aims | puts)
        · cases aims
        · cases puts
      · cases same
        rfl
  | ready new r e position valid => exact fits_idle now
  | put r e idle held unused =>
      refine fits_enter _ now rfl moved (fun _ _ same => ?_) nofun (fun v _ => unclaimed unused v)
        (fun _ v _ => (not_inUse unused).1 v) (fun c v _ => (not_inUse unused).2 c v) (fun _ _ same => ?_)
      · cases same
        exact held
      · cases same
        rfl

/-- A reference that no other process uses gets an entry. -/
theorem Wired.spares_bind (wired : Wired s) {t : Slot} {r : Reference} {e : InodeIndex}
    (moved : ∀ v, v ≠ t → u.pc v = s.pc v) (held : ∀ q, u.held q = if q = r then some e else s.held q)
    (lock : ∀ c, (u.inode c).lock = (s.inode c).lock) (empty : s.held r = none)
    (unused : ∀ v, v ≠ t → (s.pc v).reference ≠ some r) : Spares s u t := by
  refine ⟨moved, ?_, ?_, ?_, fun _ _ _ c _ _ _ => lock c⟩
  · intro v q other refers
    rw [held, if_neg]
    rintro rfl
    exact unused v other refers
  · intro c v q locked
    rw [lock] at locked
    have old := wired.lock c v q locked
    rw [held, if_neg, old]
    rintro rfl
    rw [empty] at old
    cases old
  · intro c v q w _ locked _
    rwa [lock] at locked

theorem Gets.lock {key : InodeKey} {e : InodeIndex} {ip : Inode} (gets : Gets s key e ip) :
    ip.lock = (s.inode e).lock := by
  cases gets <;> rfl

/-- A reference that its process gives back loses its entry. -/
theorem wired_unref (wired : Wired s) {t : Slot} {phase : InodePhase} {r : Reference} {e : InodeIndex}
    (position : s.pc t = .call phase r e) (puts : phase.puts = true) (outside : insideLock phase = false) :
    Wired (s.unref t r e) := by
  have mine : (s.pc t).puts = some r := by
    rw [position]
    simp only [InodePc.puts, puts, if_true]
  have same (c : InodeIndex) : ((s.unref t r e).inode c).lock = (s.inode c).lock := by
    simp only [Itable.unref, goto_inode, setHeld_inode, setInode_inode]
    split_ifs with here
    · rw [here]
    · rfl
  refine wired.change (t := t) (fits_idle (by simp [Itable.unref])) ⟨?_, ?_, ?_, ?_, fun _ _ _ c _ _ _ => same c⟩
  · intro v other
    simp [Itable.unref, other]
  · intro v q other refers
    have apart : q ≠ r := by
      rintro rfl
      exact other (wired.sole t v q (.inr mine) refers)
    simp [Itable.unref, apart]
  · intro c v q locked
    rw [same] at locked
    have apart : q ≠ r := by
      rintro rfl
      obtain ⟨rfl, at_phase, at_t, inside⟩ := wired.holder c v t q locked mine
      rw [position] at at_t
      cases at_t
      rw [outside] at inside
      cases inside
    simpa [Itable.unref, apart] using wired.lock c v q locked
  · intro c v q w _ locked _
    rwa [same] at locked

/-- A process takes a sleep lock that is free. -/
theorem Wired.spares_acquire (wired : Wired s) {t : Slot} {r : Reference} {e : InodeIndex}
    (moved : ∀ v, v ≠ t → u.pc v = s.pc v) (held : u.held = s.held)
    (lock : ∀ c, (u.inode c).lock = if c = e then some (t, r) else (s.inode c).lock)
    (free : (s.inode e).lock = none) (mine : s.held r = some e) (refers : (s.pc t).reference = some r) :
    Spares s u t := by
  refine ⟨moved, fun _ _ _ _ => by rw [held], ?_, ?_, ?_⟩
  · intro c v q locked
    rw [lock] at locked
    rw [held]
    split_ifs at locked with here
    · cases locked
      rw [here, mine]
    · exact wired.lock c v q locked
  · intro c v q w other locked puts
    rw [lock] at locked
    split_ifs at locked with here
    · cases locked
      exact absurd (wired.sole w t r (.inr puts) refers).symm other
    · exact locked
  · intro v phase q c other position inside
    have old := wired.within v phase q c position inside
    rw [lock, if_neg]
    rintro rfl
    rw [free] at old
    cases old

/-- The holder of a sleep lock gives it back. -/
theorem Wired.spares_release (wired : Wired s) {t : Slot} {r : Reference} {e : InodeIndex}
    (moved : ∀ v, v ≠ t → u.pc v = s.pc v) (held : u.held = s.held)
    (lock : ∀ c, (u.inode c).lock = if c = e then none else (s.inode c).lock)
    (mine : (s.inode e).lock = some (t, r)) : Spares s u t := by
  refine ⟨moved, fun _ _ _ _ => by rw [held], ?_, ?_, ?_⟩
  · intro c v q locked
    rw [lock] at locked
    rw [held]
    split_ifs at locked
    exact wired.lock c v q locked
  · intro c v q w _ locked _
    rw [lock] at locked
    split_ifs at locked
    exact locked
  · intro v phase q c other position inside
    have old := wired.within v phase q c position inside
    rw [lock, if_neg]
    rintro rfl
    rw [mine] at old
    cases old
    exact other rfl

/-- A phase of `iput` inside the sleep lock that rewrites the inode in the table and on the disk. -/
theorem wired_rewrite (wired : Wired s) {t : Slot} {phase after : InodePhase} {r : Reference} {e : InodeIndex}
    {copy : Dinode} (position : s.pc t = .call phase r e) (puts : after.puts = phase.puts)
    (before : insideLock phase = true) (inside : insideLock after = true) :
    Wired (((s.setInode e { s.inode e with copy := copy }).setDisk (s.inode e).key copy).goto t
      (.call after r e)) := by
  have moved (v : Slot) (other : v ≠ t) : (((s.setInode e { s.inode e with copy := copy }).setDisk
      (s.inode e).key copy).goto t (.call after r e)).pc v = s.pc v := by
    simp [other]
  have same (c : InodeIndex) : ((((s.setInode e { s.inode e with copy := copy }).setDisk
      (s.inode e).key copy).goto t (.call after r e)).inode c).lock = (s.inode c).lock :=
    setInode_lock s e c _ rfl
  apply wired.change (t := t)
  · refine wired.fits_phase after position (by simp) puts (wired.call t phase r e position) moved ?_ ?_
    · intro c v locked gives
      rw [same] at locked
      have mine : (s.pc t).puts = some r := by
        rw [position]
        simp only [InodePc.puts, ← puts, gives, if_true]
      obtain ⟨rfl, at_phase, at_t, _⟩ := wired.holder c v t r locked mine
      rw [position] at at_t
      cases at_t
      exact ⟨rfl, rfl, inside⟩
    · intro _
      rw [same]
      exact wired.within t phase r e position before
  · exact wired.spares_goto moved rfl same

/-- Every step keeps the positions, the references and the sleep locks together. -/
theorem wired_step (wired : Wired s) (move : Move s event u) : Wired u := by
  cases move with
  | goes event t pc goes => exact wired_goes wired goes
  | lookup t key r e ip idle empty unused named gets =>
      apply wired.change (fits_idle (t := t) (by simp))
      apply wired.spares_bind (r := r) (e := e)
      · intro v other
        simp [other]
      · intro q
        simp
      · exact fun c => setInode_lock s e c ip gets.lock
      · exact empty
      · exact fun v _ => (not_inUse unused).1 v
  | get t key r e ip position gets =>
      have aims : targets (s.pc t) = some r := by rw [position]; rfl
      have alone (v : Slot) (other : v ≠ t) (refers : (s.pc v).reference = some r) : False :=
        other (wired.sole t v r (.inl aims) refers)
      have moved (v : Slot) (other : v ≠ t) :
          (((s.setInode e ip).setHeld r (some e)).goto t (.call (.lock true) r e)).pc v = s.pc v := by
        simp [other]
      apply wired.change (t := t)
      · apply fits_enter (s := s) (.call (.lock true) r e) (by simp) rfl moved
        · rintro phase c ⟨⟩
          simp
        · nofun
        · exact fun v other => ⟨fun aims' => alone v other (reference_of_targets aims'),
            fun puts => alone v other (reference_of_puts puts)⟩
        · rintro (aims' | puts)
          · cases aims'
          · cases puts
        · nofun
        · rintro phase c ⟨⟩
          rfl
      · apply wired.spares_bind (r := r) (e := e) moved
        · intro q
          simp
        · exact fun c => setInode_lock s e c ip gets.lock
        · exact wired.target t r aims
        · exact fun v other refers => alone v other refers
  | full event t key r asks full => exact ⟨wired.call, wired.target, wired.sole, wired.lock, wired.holder, wired.within⟩
  | take t dev inum type r key position free =>
      have aims : targets (s.pc t) = some r := by rw [position]; rfl
      have alone (v : Slot) (other : v ≠ t) (refers : (s.pc v).reference = some r) : False :=
        other (wired.sole t v r (.inl aims) refers)
      have moved (v : Slot) (other : v ≠ t) :
          ((s.setDisk key { Dinode.zero with type := type }).goto t (.get key r)).pc v = s.pc v := by
        simp [other]
      apply wired.change (t := t)
      · apply fits_enter (s := s) (.get key r) (by simp) rfl moved
        · nofun
        · exact fun _ => wired.target t r aims
        · exact fun v other => ⟨fun aims' => alone v other (reference_of_targets aims'),
            fun puts => alone v other (reference_of_puts puts)⟩
        · exact fun _ v other refers => alone v other refers
        · nofun
        · nofun
      · exact wired.spares_goto moved rfl fun _ => rfl
  | dup t r r' e idle held unused empty unused' =>
      apply wired.change (fits_idle (t := t) (by simpa using idle))
      apply wired.spares_bind (r := r') (e := e)
      · exact fun v _ => rfl
      · intro q
        simp
      · exact fun c => setInode_lock s e c _ rfl
      · exact empty
      · exact fun v _ => (not_inUse unused').1 v
  | modify t r e copy idle locked typed | update t r e idle locked =>
      apply wired.change (fits_idle (t := t) (by simpa using idle))
      exact wired.spares_goto (fun _ _ => rfl) rfl fun c => setInode_lock s e c _ rfl
  | unlock t r e idle locked clean =>
      apply wired.change (fits_idle (t := t) (by simpa using idle))
      exact wired.spares_release (fun _ _ => rfl) rfl (fun c => setInode_relock s e c _) locked
  | acquire t new r e position free =>
      have mine := wired.call t _ r e position
      have moved (v : Slot) (other : v ≠ t) : ((s.setInode e { s.inode e with lock := some (t, r) }).goto t
          (.call (.load new) r e)).pc v = s.pc v := by
        simp [other]
      apply wired.change (t := t)
      · exact wired.fits_phase (.load new) position (by simp) rfl mine moved nofun (by simp)
      · exact wired.spares_acquire moved rfl (fun c => setInode_relock s e c _) free mine (by rw [position]; rfl)
  | load t new r e panic position invalid typed =>
      apply wired.change (fits_idle (t := t) (by simp))
      apply wired.spares_goto
      · intro v other
        simp [other]
      · rfl
      · exact fun c => setInode_lock s e c _ rfl
  | free t r e position last valid unlinked free =>
      have mine := wired.call t _ r e position
      have moved (v : Slot) (other : v ≠ t) : ((s.setInode e { s.inode e with lock := some (t, r) }).goto t
          (.call .trunc r e)).pc v = s.pc v := by
        simp [other]
      apply wired.change (t := t)
      · refine wired.fits_phase .trunc position (by simp) rfl mine moved ?_ ?_
        · intro c v locked _
          rw [goto_inode, setInode_relock] at locked
          split_ifs at locked with here
          · cases locked
            exact ⟨rfl, here, rfl⟩
          · obtain ⟨rfl, at_phase, at_t, inside⟩ := wired.holder c v t r locked (by rw [position]; rfl)
            rw [position] at at_t
            cases at_t
            cases inside
        · simp
      · exact wired.spares_acquire moved rfl (fun c => setInode_relock s e c _) free mine (by rw [position]; rfl)
  | keep t r e position more | drop t r e position => exact wired_unref wired position rfl rfl
  | trunc t r e copy position same | erase t r e copy position same => exact wired_rewrite wired position rfl rfl rfl
  | release t r e position =>
      have mine := wired.call t _ r e position
      have locked := wired.within t _ r e position rfl
      have moved (v : Slot) (other : v ≠ t) : ((s.setInode e { s.inode e with valid := false, lock := none }).goto
          t (.call .drop r e)).pc v = s.pc v := by
        simp [other]
      apply wired.change (t := t)
      · refine wired.fits_phase .drop position (by simp) rfl mine moved ?_ ?_
        · intro c v taken _
          rw [goto_inode, setInode_relock] at taken
          split_ifs at taken with here
          obtain ⟨rfl, at_phase, at_t, inside⟩ := wired.holder c v t r taken (by rw [position]; rfl)
          rw [position] at at_t
          cases at_t
          exact absurd rfl here
        · nofun
      · exact wired.spares_release moved rfl (fun c => setInode_relock s e c _) locked

theorem wired_boot (disk : InodeKey → Dinode) : Wired (Itable.boot disk) :=
  ⟨nofun, nofun, fun _ _ _ claims => claims.elim nofun nofun, nofun, nofun, nofun⟩

end Wired

end Xv6.Inodes
