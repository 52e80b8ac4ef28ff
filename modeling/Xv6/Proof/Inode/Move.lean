/-
This file lists what a step of the processes on the inode table can do.
-/

import Xv6.Kernel.Inode

namespace Xv6.Inodes
open TransitionSystem

/-- The entry that `iget` returns, and what it becomes. -/
inductive Gets (s : Itable) (key : InodeKey) (e : InodeIndex) : Inode → Prop where
  | hit : 0 < (s.inode e).ref → (s.inode e).key = key → Gets s key e { s.inode e with ref := (s.inode e).ref + 1 }
  | new : (∀ c, 0 < (s.inode c).ref → (s.inode c).key ≠ key) → (s.inode e).ref = 0 →
      Gets s key e { s.inode e with key := key, ref := 1, valid := false }

/-- A step that only moves a process to another part of its call. -/
inductive Goes (s : Itable) (t : Slot) : InodePc → Prop where
  | alloc (dev : Uint) (type : CShort) (r : Reference) :
      s.pc t = .idle → s.held r = none → ¬ s.inUse r → type ≠ 0 → Goes s t (.alloc dev 1 type r)
  | skip (dev : Uint) (inum : Nat) (type : CShort) (r : Reference) :
      s.pc t = .alloc dev inum type r → Goes s t (.alloc dev (inum + 1) type r)
  | fail (dev : Uint) (inum : Nat) (type : CShort) (r : Reference) :
      s.pc t = .alloc dev inum type r → Goes s t .idle
  | lock (r : Reference) (e : InodeIndex) :
      s.pc t = .idle → s.held r = some e → ¬ s.putting r → Goes s t (.call (.lock false) r e)
  | ready (new : Bool) (r : Reference) (e : InodeIndex) :
      s.pc t = .call (.load new) r e → (s.inode e).valid = true → Goes s t .idle
  | put (r : Reference) (e : InodeIndex) :
      s.pc t = .idle → s.held r = some e → ¬ s.inUse r → Goes s t (.call .put r e)

/-- What a step can do. -/
inductive Move (s : Itable) : InodeEvent → Itable → Prop where
  | goes (event : InodeEvent) (t : Slot) (pc : InodePc) : Goes s t pc → Move s event (s.goto t pc)
  | lookup (t : Slot) (key : InodeKey) (r : Reference) (e : InodeIndex) (ip : Inode) :
      s.pc t = .idle → s.held r = none → ¬ s.inUse r → s.Named t key → Gets s key e ip →
      Move s (.lookup t key r) (((s.setInode e ip).setHeld r (some e)).goto t .idle)
  | get (t : Slot) (key : InodeKey) (r : Reference) (e : InodeIndex) (ip : Inode) :
      s.pc t = .get key r → Gets s key e ip →
      Move s (.step t) (((s.setInode e ip).setHeld r (some e)).goto t (.call (.lock true) r e))
  | full (event : InodeEvent) (t : Slot) (key : InodeKey) (r : Reference) :
      event = .lookup t key r ∨ event = .step t ∧ s.pc t = .get key r →
      (∀ e, 0 < (s.inode e).ref ∧ (s.inode e).key ≠ key) → Move s event { s with panic := some .iget }
  | take (t : Slot) (dev : Uint) (inum : Nat) (type : CShort) (r : Reference) (key : InodeKey) :
      s.pc t = .alloc dev inum type r → (s.disk key).type = 0 →
      Move s (.step t) ((s.setDisk key { Dinode.zero with type := type }).goto t (.get key r))
  | dup (t : Slot) (r r' : Reference) (e : InodeIndex) :
      s.pc t = .idle → s.held r = some e → ¬ s.inUse r → s.held r' = none → ¬ s.inUse r' →
      Move s (.dup t r r') ((s.setInode e { s.inode e with ref := (s.inode e).ref + 1 }).setHeld r' (some e))
  | modify (t : Slot) (r : Reference) (e : InodeIndex) (copy : Dinode) :
      s.pc t = .idle → (s.inode e).lock = some (t, r) → copy.type ≠ 0 →
      Move s (.modify t r copy) (s.setInode e { s.inode e with copy := copy, dirty := true })
  | update (t : Slot) (r : Reference) (e : InodeIndex) :
      s.pc t = .idle → (s.inode e).lock = some (t, r) →
      Move s (.update t r)
        ((s.setInode e { s.inode e with dirty := false }).setDisk (s.inode e).key (s.inode e).copy)
  | unlock (t : Slot) (r : Reference) (e : InodeIndex) :
      s.pc t = .idle → (s.inode e).lock = some (t, r) → (s.inode e).dirty = false →
      Move s (.unlock t r) (s.setInode e { s.inode e with lock := none })
  | acquire (t : Slot) (new : Bool) (r : Reference) (e : InodeIndex) :
      s.pc t = .call (.lock new) r e → (s.inode e).lock = none →
      Move s (.step t)
        ((s.setInode e { s.inode e with lock := some (t, r) }).goto t (.call (.load new) r e))
  | load (t : Slot) (new : Bool) (r : Reference) (e : InodeIndex) (panic : Option InodePanic) :
      s.pc t = .call (.load new) r e → (s.inode e).valid = false →
      ((s.disk (s.inode e).key).type ≠ 0 → panic = s.panic) →
      Move s (.step t) { (s.setInode e { s.inode e with copy := s.disk (s.inode e).key, valid := true }).goto t
        .idle with panic := panic }
  | free (t : Slot) (r : Reference) (e : InodeIndex) :
      s.pc t = .call .put r e → (s.inode e).ref = 1 → (s.inode e).valid = true → (s.inode e).copy.nlink = 0 →
      (s.inode e).lock = none →
      Move s (.step t) ((s.setInode e { s.inode e with lock := some (t, r) }).goto t (.call .trunc r e))
  | keep (t : Slot) (r : Reference) (e : InodeIndex) :
      s.pc t = .call .put r e →
      ¬ ((s.inode e).ref = 1 ∧ (s.inode e).valid = true ∧ (s.inode e).copy.nlink = 0) →
      Move s (.step t) (s.unref t r e)
  | trunc (t : Slot) (r : Reference) (e : InodeIndex) (copy : Dinode) :
      s.pc t = .call .trunc r e → copy = { (s.inode e).copy with size := 0, addrs := fun _ => 0 } →
      Move s (.step t) (((s.setInode e { s.inode e with copy := copy }).setDisk (s.inode e).key copy).goto t
        (.call .erase r e))
  | erase (t : Slot) (r : Reference) (e : InodeIndex) (copy : Dinode) :
      s.pc t = .call .erase r e → copy = { (s.inode e).copy with type := 0 } →
      Move s (.step t) (((s.setInode e { s.inode e with copy := copy }).setDisk (s.inode e).key copy).goto t
        (.call .release r e))
  | release (t : Slot) (r : Reference) (e : InodeIndex) :
      s.pc t = .call .release r e →
      Move s (.step t) ((s.setInode e { s.inode e with valid := false, lock := none }).goto t (.call .drop r e))
  | drop (t : Slot) (r : Reference) (e : InodeIndex) :
      s.pc t = .call .drop r e → Move s (.step t) (s.unref t r e)

variable {s u : Itable} {event : InodeEvent} {ninodes : Nat}

/-- `iget` finds the inode, takes a free entry or stops. -/
theorem iget_cases (t : Slot) (key : InodeKey) (r : Reference) (pc : InodeIndex → InodePc) :
    (∃ e ip, Gets s key e ip ∧ s.iget t key r pc = ((s.setInode e ip).setHeld r (some e)).goto t (pc e)) ∨
      ((∀ e, 0 < (s.inode e).ref ∧ (s.inode e).key ≠ key) ∧
        s.iget t key r pc = { s with panic := some .iget }) := by
  unfold Itable.iget
  cases hit : s.found key with
  | some e =>
      have holds := List.find?_some hit
      simp only [decide_eq_true_eq] at holds
      exact .inl ⟨e, _, .hit holds.1 holds.2, rfl⟩
  | none =>
      have missing (c : InodeIndex) (used : 0 < (s.inode c).ref) : (s.inode c).key ≠ key := by
        have absent := List.find?_eq_none.mp hit c (List.mem_finRange c)
        intro same
        simp [used, same] at absent
      cases free : s.empty with
      | some e =>
          have holds := List.find?_some free
          simp only [decide_eq_true_eq] at holds
          exact .inl ⟨e, _, .new missing holds, rfl⟩
      | none =>
          refine .inr ⟨fun e => ?_, rfl⟩
          have taken := List.find?_eq_none.mp free e (List.mem_finRange e)
          have used : 0 < (s.inode e).ref := by
            simp only [decide_eq_true_eq] at taken
            omega
          exact ⟨used, missing e used⟩

theorem move_step {t : Slot} (stepped : s.step ninodes t = some u) : Move s (.step t) u := by
  unfold Itable.step at stepped
  cases position : s.pc t with
  | idle => simp [position] at stepped
  | alloc dev inum type r =>
      simp only [position] at stepped
      split_ifs at stepped with more free
      · obtain rfl := Option.some.inj stepped
        exact .take t dev inum type r _ position free
      · obtain rfl := Option.some.inj stepped
        exact .goes _ t _ (.skip dev inum type r position)
      · obtain rfl := Option.some.inj stepped
        exact .goes _ t _ (.fail dev inum type r position)
  | get key r =>
      simp only [position, Option.some.injEq] at stepped
      subst stepped
      rcases iget_cases (s := s) t key r fun e => .call (.lock true) r e with ⟨e, ip, gets, same⟩ | ⟨full, same⟩
      · rw [same]
        exact .get t key r e ip position gets
      · rw [same]
        exact .full _ t key r (.inr ⟨rfl, position⟩) full
  | call phase r e =>
      cases phase with
      | lock new =>
          simp only [position] at stepped
          split_ifs at stepped with free
          obtain rfl := Option.some.inj stepped
          exact .acquire t new r e position free
      | load new =>
          simp only [position] at stepped
          split_ifs at stepped with valid untyped
          · obtain rfl := Option.some.inj stepped
            exact .goes _ t _ (.ready new r e position valid)
          · obtain rfl := Option.some.inj stepped
            exact .load t new r e _ position (Bool.eq_false_iff.mpr valid) fun typed => absurd untyped typed
          · obtain rfl := Option.some.inj stepped
            exact .load t new r e _ position (Bool.eq_false_iff.mpr valid) fun _ => rfl
      | put =>
          simp only [position] at stepped
          split_ifs at stepped with last free
          · obtain rfl := Option.some.inj stepped
            exact .free t r e position last.1 last.2.1 last.2.2 free
          · obtain rfl := Option.some.inj stepped
            exact .keep t r e position last
      | trunc =>
          simp only [position, Option.some.injEq] at stepped
          subst stepped
          exact .trunc t r e _ position rfl
      | erase =>
          simp only [position, Option.some.injEq] at stepped
          subst stepped
          exact .erase t r e _ position rfl
      | release =>
          simp only [position, Option.some.injEq] at stepped
          subst stepped
          exact .release t r e position
      | drop =>
          simp only [position, Option.some.injEq] at stepped
          subst stepped
          exact .drop t r e position

/-- Every step makes one of the listed moves. -/
theorem move_next (stepped : s.Step ninodes event u) : Move s event u := by
  unfold Itable.Step Itable.next at stepped
  cases event with
  | step t =>
      dsimp only at stepped
      split_ifs at stepped
      exact move_step stepped
  | lookup t key r =>
      dsimp only at stepped
      split_ifs at stepped with legal
      obtain rfl := Option.some.inj stepped
      rcases iget_cases (s := s) t key r fun _ => .idle with ⟨e, ip, gets, same⟩ | ⟨full, same⟩
      · rw [same]
        exact .lookup t key r e ip legal.2.1 legal.2.2.1 legal.2.2.2.1 legal.2.2.2.2 gets
      · rw [same]
        exact .full _ t key r (.inl rfl) full
  | alloc t dev type r =>
      dsimp only at stepped
      split_ifs at stepped with legal
      obtain rfl := Option.some.inj stepped
      exact .goes _ t _ (.alloc dev type r legal.2.1 legal.2.2.1 legal.2.2.2.1 legal.2.2.2.2)
  | dup t r r' =>
      cases held : s.held r with
      | none => simp [held] at stepped
      | some e =>
          simp only [held] at stepped
          split_ifs at stepped with legal
          obtain rfl := Option.some.inj stepped
          exact .dup t r r' e legal.2.1 held legal.2.2.1 legal.2.2.2.1 legal.2.2.2.2
  | lock t r =>
      cases held : s.held r with
      | none => simp [held] at stepped
      | some e =>
          simp only [held] at stepped
          split_ifs at stepped with legal
          obtain rfl := Option.some.inj stepped
          exact .goes _ t _ (.lock r e legal.2.1 held legal.2.2)
  | modify t r copy =>
      cases held : s.held r with
      | none => simp [held] at stepped
      | some e =>
          simp only [held] at stepped
          split_ifs at stepped with legal
          obtain rfl := Option.some.inj stepped
          exact .modify t r e copy legal.2.1 legal.2.2.1 legal.2.2.2
  | update t r =>
      cases held : s.held r with
      | none => simp [held] at stepped
      | some e =>
          simp only [held] at stepped
          split_ifs at stepped with legal
          obtain rfl := Option.some.inj stepped
          exact .update t r e legal.2.1 legal.2.2
  | unlock t r =>
      cases held : s.held r with
      | none => simp [held] at stepped
      | some e =>
          simp only [held] at stepped
          split_ifs at stepped with legal
          obtain rfl := Option.some.inj stepped
          exact .unlock t r e legal.2.1 legal.2.2.1 legal.2.2.2
  | put t r =>
      cases held : s.held r with
      | none => simp [held] at stepped
      | some e =>
          simp only [held] at stepped
          split_ifs at stepped with legal
          obtain rfl := Option.some.inj stepped
          exact .goes _ t _ (.put r e legal.2.1 held legal.2.2)

end Xv6.Inodes
