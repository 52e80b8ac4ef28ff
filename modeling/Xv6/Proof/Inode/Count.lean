/-
This file shows that the entries of the inode table count their references, and that no two entries in use have
the same inode.
-/

import Xv6.Lib.Tally
import Xv6.Proof.Inode.Wired

namespace Xv6.Inodes
open TransitionSystem

/-- The references to an entry. -/
def refs (s : Itable) (e : InodeIndex) : Nat := ∑ r, if s.held r = some e then 1 else 0

/-- The count of an entry is the number of its references. -/
def Counted (s : Itable) : Prop := ∀ e, (s.inode e).ref = refs s e

/-- Entries in use have different inodes. -/
def Unique (s : Itable) : Prop :=
  ∀ e c, 0 < (s.inode e).ref → 0 < (s.inode c).ref → (s.inode e).key = (s.inode c).key → e = c

/-- What a step does to the references. -/
inductive Effect (s u : Itable) : Prop where
  | same : u.held = s.held →
      (∀ c, (u.inode c).ref = (s.inode c).ref ∧ (u.inode c).key = (s.inode c).key) → Effect s u
  | bind (r : Reference) (e : InodeIndex) (key : InodeKey) (ip : Inode) :
      s.held r = none → Gets s key e ip → (∀ q, u.held q = if q = r then some e else s.held q) →
      (∀ c, u.inode c = if c = e then ip else s.inode c) → Effect s u
  | unref (r : Reference) (e : InodeIndex) :
      s.held r = some e → (∀ q, u.held q = if q = r then none else s.held q) →
      (∀ c, u.inode c = if c = e then { s.inode e with ref := (s.inode e).ref - 1 } else s.inode c) → Effect s u

section Count

variable {s u : Itable} {event : InodeEvent}

/-- A change of one reference changes the number of references of its old and its new entry. -/
theorem refs_update {r : Reference} {o : Option InodeIndex}
    (held : ∀ q, u.held q = if q = r then o else s.held q) (e : InodeIndex) :
    refs u e + (if s.held r = some e then 1 else 0) = refs s e + if o = some e then 1 else 0 := by
  have moved : u.held = Function.update s.held r o := by
    funext q
    rw [held, Function.update_apply]
  unfold refs
  rw [moved]
  exact Tally.sum_update (fun o : Option InodeIndex => if o = some e then 1 else 0) s.held r o

/-- A reference to an entry keeps its count positive. -/
theorem Counted.positive (counted : Counted s) {r : Reference} {e : InodeIndex} (held : s.held r = some e) :
    0 < (s.inode e).ref := by
  have least := Tally.le_sum (fun o : Option InodeIndex => if o = some e then 1 else 0) s.held r
  rw [counted e, refs]
  simp only [held, if_true] at least
  omega

/-- An entry in use has a reference. -/
theorem Counted.exists_held (counted : Counted s) {e : InodeIndex} (used : 0 < (s.inode e).ref) :
    ∃ r, s.held r = some e := by
  by_contra none
  have zero : refs s e = 0 := Finset.sum_eq_zero fun r _ => if_neg fun held => none ⟨r, held⟩
  have count := counted e
  omega

/-- The only reference of an entry with count one. -/
theorem Counted.only (counted : Counted s) {r q : Reference} {e : InodeIndex} (one : (s.inode e).ref = 1)
    (held : s.held r = some e) (other : s.held q = some e) : q = r := by
  by_contra apart
  have both : (if s.held r = some e then 1 else 0) + (if s.held q = some e then 1 else 0) ≤ refs s e := by
    rw [refs, ← Finset.add_sum_erase _ _ (Finset.mem_univ r)]
    have rest := Finset.single_le_sum (f := fun p => if s.held p = some e then 1 else 0)
      (fun _ _ => Nat.zero_le _) (Finset.mem_erase.mpr ⟨apart, Finset.mem_univ q⟩)
    omega
  rw [if_pos held, if_pos other, ← counted e] at both
  omega

theorem effect_move (wired : Wired s) (counted : Counted s) (move : Move s event u) : Effect s u := by
  have kept (e c : InodeIndex) (ip : Inode) (ref : ip.ref = (s.inode e).ref) (key : ip.key = (s.inode e).key) :
      ((s.setInode e ip).inode c).ref = (s.inode c).ref ∧ ((s.setInode e ip).inode c).key = (s.inode c).key := by
    rw [setInode_inode]
    split_ifs with here
    · rw [here]
      exact ⟨ref, key⟩
    · exact ⟨rfl, rfl⟩
  cases move with
  | goes event t pc goes => exact .same rfl fun _ => ⟨rfl, rfl⟩
  | lookup t key r e ip idle empty unused named gets =>
      exact .bind r e key ip empty gets (fun q => by simp) fun c => by simp
  | get t key r e ip position gets =>
      exact .bind r e key ip (wired.target t r (by rw [position]; rfl)) gets (fun q => by simp) fun c => by simp
  | full event t key r asks full => exact .same rfl fun _ => ⟨rfl, rfl⟩
  | take t dev inum type r key position free => exact .same rfl fun _ => ⟨rfl, rfl⟩
  | dup t r r' e idle held unused empty unused' =>
      exact .bind r' e _ _ empty (.hit (counted.positive held) rfl) (fun q => by simp) fun c => by simp
  | modify t r e copy idle locked typed => exact .same rfl fun c => kept e c _ rfl rfl
  | update t r e idle locked => exact .same rfl fun c => kept e c _ rfl rfl
  | unlock t r e idle locked clean => exact .same rfl fun c => kept e c _ rfl rfl
  | acquire t new r e position free => exact .same rfl fun c => kept e c _ rfl rfl
  | load t new r e panic position invalid typed => exact .same rfl fun c => kept e c _ rfl rfl
  | free t r e position last valid unlinked free => exact .same rfl fun c => kept e c _ rfl rfl
  | keep t r e position more | drop t r e position =>
      exact .unref r e (wired.call t _ r e position) (fun q => by simp [Itable.unref]) fun c => by
        simp [Itable.unref]
  | trunc t r e copy position same => exact .same rfl fun c => kept e c _ rfl rfl
  | erase t r e copy position same => exact .same rfl fun c => kept e c _ rfl rfl
  | release t r e position => exact .same rfl fun c => kept e c _ rfl rfl

theorem counted_effect (counted : Counted s) (effect : Effect s u) : Counted u := by
  intro c
  have before := counted c
  cases effect with
  | same held kept =>
      rw [(kept c).1, before, refs, refs, held]
  | bind r e key ip empty gets held inode =>
      have change := refs_update held c
      rw [if_neg (by rw [empty]; nofun)] at change
      rw [inode]
      by_cases here : c = e
      · subst here
        rw [if_pos rfl] at change ⊢
        cases gets with
        | hit used same =>
            dsimp only
            omega
        | new missing zero =>
            dsimp only
            omega
      · rw [if_neg (by simpa using Ne.symm here)] at change
        rw [if_neg here]
        omega
  | unref r e mine held inode =>
      have change := refs_update held c
      rw [if_neg (by nofun : ¬ (none : Option InodeIndex) = some c)] at change
      rw [inode]
      by_cases here : c = e
      · subst here
        rw [if_pos mine] at change
        rw [if_pos rfl]
        dsimp only
        omega
      · rw [if_neg (by rw [mine]; simpa using Ne.symm here)] at change
        rw [if_neg here]
        omega

theorem unique_effect (unique : Unique s) (effect : Effect s u) : Unique u := by
  intro c d usedC usedD same
  cases effect with
  | same held kept =>
      rw [(kept c).1] at usedC
      rw [(kept d).1] at usedD
      rw [(kept c).2, (kept d).2] at same
      exact unique c d usedC usedD same
  | bind r e key ip empty gets held inode =>
      rw [inode] at usedC usedD
      rw [inode, inode] at same
      cases gets with
      | hit used own =>
          have plain (x : InodeIndex) (used' : 0 < (if x = e then
              { s.inode e with ref := (s.inode e).ref + 1 } else s.inode x).ref) : 0 < (s.inode x).ref := by
            split_ifs at used' with here
            · rw [here]
              exact used
            · exact used'
          have keys (x : InodeIndex) : (if x = e then
              { s.inode e with ref := (s.inode e).ref + 1 } else s.inode x).key = (s.inode x).key := by
            split_ifs with here
            · rw [here]
            · rfl
          rw [keys, keys] at same
          exact unique c d (plain c usedC) (plain d usedD) same
      | new missing zero =>
          split_ifs at usedC usedD same with hereC hereD hereD
          · rw [hereC, hereD]
          · exact absurd same.symm (missing d usedD)
          · exact absurd same (missing c usedC)
          · exact unique c d usedC usedD same
  | unref r e mine held inode =>
      have plain (x : InodeIndex) (used : 0 < (u.inode x).ref) :
          0 < (s.inode x).ref ∧ (u.inode x).key = (s.inode x).key := by
        rw [inode] at used ⊢
        split_ifs at used ⊢ with here
        · rw [here]
          exact ⟨by dsimp only at used; omega, rfl⟩
        · exact ⟨used, rfl⟩
      rw [(plain c usedC).2, (plain d usedD).2] at same
      exact unique c d (plain c usedC).1 (plain d usedD).1 same

end Count

end Xv6.Inodes
