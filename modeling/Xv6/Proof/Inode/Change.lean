/-
This file sorts the steps on the inode table by what they do to its entries and to the disk.
-/

import Xv6.Proof.Inode.Count

namespace Xv6.Inodes
open TransitionSystem

/-- A step of a process on one entry: its new position, the new entry and the inode that it writes to the
disk. -/
inductive Local (s : Itable) (t : Slot) (e : InodeIndex) : InodePc → Inode → Option Dinode → Prop where
  | lock (r : Reference) :
      s.pc t = .idle → s.held r = some e → ¬ s.putting r → Local s t e (.call (.lock false) r e) (s.inode e) none
  | put (r : Reference) :
      s.pc t = .idle → s.held r = some e → ¬ s.inUse r → Local s t e (.call .put r e) (s.inode e) none
  | ready (new : Bool) (r : Reference) :
      s.pc t = .call (.load new) r e → (s.inode e).valid = true → Local s t e .idle (s.inode e) none
  | modify (r : Reference) (copy : Dinode) :
      s.pc t = .idle → (s.inode e).lock = some (t, r) → copy.type ≠ 0 →
      Local s t e .idle { s.inode e with copy := copy, dirty := true } none
  | update (r : Reference) :
      s.pc t = .idle → (s.inode e).lock = some (t, r) →
      Local s t e .idle { s.inode e with dirty := false } (some (s.inode e).copy)
  | unlock (r : Reference) :
      s.pc t = .idle → (s.inode e).lock = some (t, r) → (s.inode e).dirty = false →
      Local s t e .idle { s.inode e with lock := none } none
  | acquire (new : Bool) (r : Reference) :
      s.pc t = .call (.lock new) r e → (s.inode e).lock = none →
      Local s t e (.call (.load new) r e) { s.inode e with lock := some (t, r) } none
  | load (new : Bool) (r : Reference) :
      s.pc t = .call (.load new) r e →
      Local s t e .idle { s.inode e with copy := s.disk (s.inode e).key, valid := true } none
  | free (r : Reference) :
      s.pc t = .call .put r e → (s.inode e).ref = 1 → (s.inode e).valid = true → (s.inode e).copy.nlink = 0 →
      (s.inode e).lock = none → Local s t e (.call .trunc r e) { s.inode e with lock := some (t, r) } none
  | trunc (r : Reference) (copy : Dinode) :
      s.pc t = .call .trunc r e → copy = { (s.inode e).copy with size := 0, addrs := fun _ => 0 } →
      Local s t e (.call .erase r e) { s.inode e with copy := copy } (some copy)
  | erase (r : Reference) (copy : Dinode) :
      s.pc t = .call .erase r e → copy = { (s.inode e).copy with type := 0 } →
      Local s t e (.call .release r e) { s.inode e with copy := copy } (some copy)
  | release (r : Reference) :
      s.pc t = .call .release r e →
      Local s t e (.call .drop r e) { s.inode e with valid := false, lock := none } none

/-- A step of a process on one entry changes nothing else. -/
structure Inside (s u : Itable) (t : Slot) (e : InodeIndex) (pc : InodePc) (ip : Inode)
    (written : Option Dinode) : Prop where
  act : Local s t e pc ip written
  moved : ∀ v, u.pc v = if v = t then pc else s.pc v
  inode : ∀ c, u.inode c = if c = e then ip else s.inode c
  held : u.held = s.held
  disk : ∀ k, u.disk k = if k = (s.inode e).key then written.getD (s.disk k) else s.disk k

/-- A step of a process that gives an empty reference an entry. -/
inductive Binds (s : Itable) (t : Slot) (r : Reference) (key : InodeKey) (e : InodeIndex) : InodePc → Prop where
  | lookup : s.pc t = .idle → s.Named t key → Binds s t r key e .idle
  | get : s.pc t = .get key r → Binds s t r key e (.call (.lock true) r e)
  | dup (q : Reference) :
      s.pc t = .idle → s.held q = some e → ¬ s.inUse q → key = (s.inode e).key → Binds s t r key e .idle

/-- The steps, by what they do to the entries and the disk. -/
inductive Change (s : Itable) : InodeEvent → Itable → Prop where
  | still (event : InodeEvent) (u : Itable) :
      u.pc = s.pc → u.inode = s.inode → u.held = s.held → u.disk = s.disk → Change s event u
  | wander (event : InodeEvent) (u : Itable) (t : Slot) (pc : InodePc) :
      (∀ phase r e, pc ≠ .call phase r e ∧ s.pc t ≠ .call phase r e) →
      (∀ key r, pc ≠ .get key r ∧ s.pc t ≠ .get key r) →
      (∀ dev inum type r, pc = .alloc dev inum type r → type ≠ 0) →
      (∀ v, u.pc v = if v = t then pc else s.pc v) → u.inode = s.inode → u.held = s.held → u.disk = s.disk →
      Change s event u
  | take (event : InodeEvent) (u : Itable) (t : Slot) (type : CShort) (r : Reference) (key : InodeKey) :
      (∃ dev inum, s.pc t = .alloc dev inum type r) → type ≠ 0 → (s.disk key).type = 0 →
      (∀ v, u.pc v = if v = t then .get key r else s.pc v) → u.inode = s.inode → u.held = s.held →
      (∀ k, u.disk k = if k = key then { Dinode.zero with type := type } else s.disk k) → Change s event u
  | inside (event : InodeEvent) (u : Itable) (t : Slot) (e : InodeIndex) (pc : InodePc) (ip : Inode)
      (written : Option Dinode) :
      Inside s u t e pc ip written → Change s event u
  | bind (event : InodeEvent) (u : Itable) (t : Slot) (r : Reference) (key : InodeKey) (e : InodeIndex)
      (ip : Inode) (pc : InodePc) :
      Binds s t r key e pc → Gets s key e ip → s.held r = none →
      (∀ v, u.pc v = if v = t then pc else s.pc v) → (∀ c, u.inode c = if c = e then ip else s.inode c) →
      (∀ q, u.held q = if q = r then some e else s.held q) → u.disk = s.disk → Change s event u
  | unref (u : Itable) (t : Slot) (r : Reference) (e : InodeIndex) (phase : InodePhase) :
      s.pc t = .call phase r e →
      phase = .put ∧ ¬ ((s.inode e).ref = 1 ∧ (s.inode e).valid = true ∧ (s.inode e).copy.nlink = 0) ∨
        phase = .drop →
      (∀ v, u.pc v = if v = t then .idle else s.pc v) →
      (∀ c, u.inode c = if c = e then { s.inode e with ref := (s.inode e).ref - 1 } else s.inode c) →
      (∀ q, u.held q = if q = r then none else s.held q) → u.disk = s.disk → Change s (.step t) u

/-- An allocation is for a type other than zero. -/
def Typed (s : Itable) : Prop := ∀ t dev inum type r, s.pc t = .alloc dev inum type r → type ≠ 0

section Change

variable {s u : Itable} {event : InodeEvent}

theorem change_move (wired : Wired s) (counted : Counted s) (typed : Typed s) (move : Move s event u) :
    Change s event u := by
  have nothing (e : InodeIndex) (k : InodeKey) :
      s.disk k = if k = (s.inode e).key then (none : Option Dinode).getD (s.disk k) else s.disk k := by
    split_ifs <;> rfl
  have itself (e c : InodeIndex) : s.inode c = if c = e then s.inode e else s.inode c := by
    split_ifs with here
    · rw [here]
    · rfl
  have stays (t : Slot) (idle : s.pc t = .idle) (v : Slot) : s.pc v = if v = t then .idle else s.pc v := by
    split_ifs with here
    · rw [here, idle]
    · rfl
  cases move with
  | goes event t pc goes =>
      cases goes with
      | alloc dev type r idle empty unused nonzero =>
          refine .wander _ _ t (.alloc dev 1 type r) (by rw [idle]; exact fun _ _ _ => ⟨nofun, nofun⟩)
            (by rw [idle]; exact fun _ _ => ⟨nofun, nofun⟩) ?_ (fun v => by simp) rfl rfl rfl
          rintro _ _ _ _ ⟨⟩
          exact nonzero
      | skip dev inum type r position =>
          refine .wander _ _ t (.alloc dev (inum + 1) type r) (by rw [position]; exact fun _ _ _ => ⟨nofun, nofun⟩)
            (by rw [position]; exact fun _ _ => ⟨nofun, nofun⟩) ?_ (fun v => by simp) rfl rfl rfl
          rintro _ _ _ _ ⟨⟩
          exact typed t dev inum type r position
      | fail dev inum type r position =>
          exact .wander _ _ t .idle (by rw [position]; exact fun _ _ _ => ⟨nofun, nofun⟩)
            (by rw [position]; exact fun _ _ => ⟨nofun, nofun⟩) nofun (fun v => by simp) rfl rfl rfl
      | lock r e idle held steady =>
          exact .inside _ _ t e _ _ _ ⟨.lock r idle held steady, fun v => by simp, itself e, rfl, nothing e⟩
      | ready new r e position valid =>
          exact .inside _ _ t e _ _ _ ⟨.ready new r position valid, fun v => by simp, itself e, rfl, nothing e⟩
      | put r e idle held unused =>
          exact .inside _ _ t e _ _ _ ⟨.put r idle held unused, fun v => by simp, itself e, rfl, nothing e⟩
  | lookup t key r e ip idle empty unused named gets =>
      exact .bind _ _ t r key e ip _ (.lookup idle named) gets empty (fun v => by simp) (fun c => by simp)
        (fun q => by simp) rfl
  | get t key r e ip position gets =>
      exact .bind _ _ t r key e ip _ (.get position) gets (wired.target t r (by rw [position]; rfl))
        (fun v => by simp) (fun c => by simp) (fun q => by simp) rfl
  | full event t key r asks full => exact .still _ _ rfl rfl rfl rfl
  | take t dev inum type r key position free =>
      exact .take _ _ t type r key ⟨dev, inum, position⟩ (typed t dev inum type r position) free (fun v => by simp) rfl
        rfl (fun k => by simp)
  | dup t r r' e idle held unused empty unused' =>
      exact .bind _ _ t r' _ e _ _ (.dup r idle held unused rfl) (.hit (counted.positive held) rfl) empty
        (stays t idle) (fun c => by simp) (fun q => by simp) rfl
  | modify t r e copy idle locked nonzero =>
      exact .inside _ _ t e _ _ _ ⟨.modify r copy idle locked nonzero, stays t idle, fun c => by simp, rfl,
        nothing e⟩
  | update t r e idle locked =>
      exact .inside _ _ t e _ _ _ ⟨.update r idle locked, stays t idle, fun c => by simp, rfl, fun k => by simp⟩
  | unlock t r e idle locked clean =>
      exact .inside _ _ t e _ _ _ ⟨.unlock r idle locked clean, stays t idle, fun c => by simp, rfl, nothing e⟩
  | acquire t new r e position free =>
      exact .inside _ _ t e _ _ _ ⟨.acquire new r position free, fun v => by simp, fun c => by simp, rfl, nothing e⟩
  | load t new r e panic position invalid nonzero =>
      exact .inside _ _ t e _ _ _ ⟨.load new r position, fun v => by simp, fun c => by simp, rfl, nothing e⟩
  | free t r e position last valid unlinked free =>
      exact .inside _ _ t e _ _ _ ⟨.free r position last valid unlinked free, fun v => by simp, fun c => by simp,
        rfl, nothing e⟩
  | keep t r e position more =>
      exact .unref _ t r e _ position (.inl ⟨rfl, more⟩) (fun v => by simp [Itable.unref])
        (fun c => by simp [Itable.unref]) (fun q => by simp [Itable.unref]) rfl
  | trunc t r e copy position same =>
      exact .inside _ _ t e _ _ _ ⟨.trunc r copy position same, fun v => by simp, fun c => by simp, rfl,
        fun k => by simp⟩
  | erase t r e copy position same =>
      exact .inside _ _ t e _ _ _ ⟨.erase r copy position same, fun v => by simp, fun c => by simp, rfl,
        fun k => by simp⟩
  | release t r e position =>
      exact .inside _ _ t e _ _ _ ⟨.release r position, fun v => by simp, fun c => by simp, rfl, nothing e⟩
  | drop t r e position =>
      exact .unref _ t r e _ position (.inr rfl) (fun v => by simp [Itable.unref])
        (fun c => by simp [Itable.unref]) (fun q => by simp [Itable.unref]) rfl

end Change

end Xv6.Inodes
