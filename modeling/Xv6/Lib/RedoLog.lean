/-
This file gives a redo log on a block device, over arbitrary addresses and blocks.
The header block lists the home addresses of the logged blocks in the order of the log slots.
-/

import Mathlib

namespace RedoLog

variable {Addr Block : Type*} [DecidableEq Addr]

/-- A log area has a header block and a number of distinct slots. -/
structure Area (Addr Block : Type*) where
  header : Addr
  slot : Nat → Addr
  room : Nat
  decode : Block → List Addr
  encode : List Addr → Block → Block
  slot_injective : Function.Injective slot
  slot_ne_header : ∀ k, slot k ≠ header
  decode_encode : ∀ addrs block, addrs.length ≤ room → decode (encode addrs block) = addrs

/-- A home address lies outside the log area. -/
def Area.Home (area : Area Addr Block) (a : Addr) : Prop :=
  a ≠ area.header ∧ ∀ k < area.room, a ≠ area.slot k

/-- The updates take effect in the order of the list. -/
def applyAll (state : Addr → Block) (updates : List (Addr × Block)) : Addr → Block :=
  updates.foldl (fun state update => Function.update state update.1 update.2) state

/-- An address that no update names keeps its block. -/
theorem applyAll_other {state : Addr → Block} {updates : List (Addr × Block)} {a : Addr}
    (absent : ∀ update ∈ updates, update.1 ≠ a) : applyAll state updates a = state a := by
  induction updates generalizing state with
  | nil => rfl
  | cons update updates ih =>
      have tail : applyAll (Function.update state update.1 update.2) updates a =
          Function.update state update.1 update.2 a :=
        ih fun other member => absent other (List.mem_cons_of_mem _ member)
      have head : a ≠ update.1 := fun same => absent update List.mem_cons_self same.symm
      exact tail.trans (Function.update_of_ne head _ _)

/-- The disk stands for a state of the home addresses: the logged addresses find their block in the
log and the others find it at home. -/
structure Stable (area : Area Addr Block) (disk : Addr → Block) (addrs : List Addr)
    (state : Addr → Block) : Prop where
  header : area.decode (disk area.header) = addrs
  fits : addrs.length ≤ area.room
  home : ∀ a ∈ addrs, area.Home a
  kept : ∀ a, area.Home a → a ∉ addrs → disk a = state a
  logged : ∀ k (inside : k < addrs.length), disk (area.slot k) = state (addrs.get ⟨k, inside⟩)

/-- The first addresses of the header hold their final blocks at home. -/
def Installed (disk : Addr → Block) (addrs : List Addr) (state : Addr → Block) (count : Nat) : Prop :=
  ∀ k (inside : k < addrs.length), k < count →
    disk (addrs.get ⟨k, inside⟩) = state (addrs.get ⟨k, inside⟩)

section Writes

variable {area : Area Addr Block} {disk state : Addr → Block} {addrs : List Addr}

/-- A clean log lets its slots be overwritten. -/
theorem Stable.write_slot (stable : Stable area disk [] state) {k : Nat} (inside : k < area.room)
    (block : Block) : Stable area (Function.update disk (area.slot k) block) [] state where
  header := by
    rw [Function.update_of_ne (area.slot_ne_header k).symm]
    exact stable.header
  fits := stable.fits
  home := stable.home
  kept := fun a home absent => by
    rw [Function.update_of_ne (home.2 k inside)]
    exact stable.kept a home absent
  logged := fun _ impossible => absurd impossible (Nat.not_lt_zero _)

/-- Writing the header commits the blocks in the slots. -/
theorem Stable.commit {next : Addr → Block} (stable : Stable area disk [] state)
    (fits : addrs.length ≤ area.room) (home : ∀ a ∈ addrs, area.Home a)
    (logged : ∀ k (inside : k < addrs.length),
      disk (area.slot k) = next (addrs.get ⟨k, inside⟩))
    (unchanged : ∀ a, area.Home a → a ∉ addrs → next a = state a) (old : Block) :
    Stable area (Function.update disk area.header (area.encode addrs old)) addrs next where
  header := by
    rw [Function.update_self]
    exact area.decode_encode addrs old fits
  fits := fits
  home := home
  kept := fun a inHome absent => by
    rw [Function.update_of_ne inHome.1, unchanged a inHome absent]
    exact stable.kept a inHome List.not_mem_nil
  logged := fun k inside => by
    rw [Function.update_of_ne (area.slot_ne_header k)]
    exact logged k inside

/-- Copying a logged block to its home address keeps the state. -/
theorem Stable.install (stable : Stable area disk addrs state) {k : Nat}
    (inside : k < addrs.length) :
    Stable area (Function.update disk (addrs.get ⟨k, inside⟩) (disk (area.slot k))) addrs state := by
  have home : area.Home (addrs.get ⟨k, inside⟩) := stable.home _ (List.get_mem _ _)
  refine ⟨?_, stable.fits, stable.home, fun a inHome absent => ?_, fun j bound => ?_⟩
  · rw [Function.update_of_ne home.1.symm]
    exact stable.header
  · have different : a ≠ addrs.get ⟨k, inside⟩ := fun same => absent (same ▸ List.get_mem _ _)
    rw [Function.update_of_ne different]
    exact stable.kept a inHome absent
  · have different : area.slot j ≠ addrs.get ⟨k, inside⟩ :=
      fun same => home.2 j (Nat.lt_of_lt_of_le bound stable.fits) same.symm
    rw [Function.update_of_ne different]
    exact stable.logged j bound

/-- Copying the next logged block extends the installed part. -/
theorem Stable.installed_succ (stable : Stable area disk addrs state) {k : Nat}
    (inside : k < addrs.length) (installed : Installed disk addrs state k) :
    Installed (Function.update disk (addrs.get ⟨k, inside⟩) (disk (area.slot k))) addrs state
      (k + 1) := by
  intro j bound before
  by_cases same : addrs.get ⟨j, bound⟩ = addrs.get ⟨k, inside⟩
  · rw [same, Function.update_self]
    exact stable.logged k inside
  · have different : j ≠ k := fun equal => same (by simp only [equal])
    rw [Function.update_of_ne same]
    exact installed j bound (by omega)

/-- With every logged block installed, each home address holds its block. -/
theorem Stable.home_eq (stable : Stable area disk addrs state)
    (installed : Installed disk addrs state addrs.length) {a : Addr} (home : area.Home a) :
    disk a = state a := by
  by_cases logged : a ∈ addrs
  · obtain ⟨k, same⟩ := List.get_of_mem logged
    rw [← same]
    exact installed k k.isLt k.isLt
  · exact stable.kept a home logged

/-- With every logged block installed, the header can be erased. -/
theorem Stable.erase (stable : Stable area disk addrs state)
    (installed : Installed disk addrs state addrs.length) (old : Block) :
    Stable area (Function.update disk area.header (area.encode [] old)) [] state where
  header := by
    rw [Function.update_self]
    exact area.decode_encode [] old (Nat.zero_le _)
  fits := Nat.zero_le _
  home := fun _ impossible => absurd impossible List.not_mem_nil
  kept := fun a home _ => by
    rw [Function.update_of_ne home.1]
    exact stable.home_eq installed home
  logged := fun _ impossible => absurd impossible (Nat.not_lt_zero _)

end Writes

end RedoLog
