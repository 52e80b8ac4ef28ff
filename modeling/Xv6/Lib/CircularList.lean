/-
This file gives circular singly linked lists. The links are a function from each node to the next one, and a circle lists
its nodes in the order of the links, from any of them on.
-/

import Mathlib

namespace CircularList

variable {α : Type*} {next other : α → α} {a b stop : α} {l r : List α}

/-- The links lead from a node through a list of nodes to the last one. -/
def Path (next : α → α) (a : α) : List α → α → Prop
  | [], stop => next a = stop
  | b :: l, stop => next a = b ∧ Path next b l stop

/-- The links lead through all nodes and back to the first one. -/
def Circle (next : α → α) : List α → Prop
  | [] => False
  | a :: l => Path next a l a

theorem path_append : Path next a (l ++ b :: r) stop ↔ Path next a l b ∧ Path next b r stop := by
  induction l generalizing a with
  | nil => exact Iff.rfl
  | cons c l ih => exact (and_congr_right fun _ => ih).trans and_assoc.symm

/-- A path depends on the links of its nodes only. -/
theorem Path.congr (path : Path next a l stop) (same : ∀ x ∈ a :: l, other x = next x) : Path other a l stop := by
  induction l generalizing a with
  | nil => exact (same a List.mem_cons_self).trans path
  | cons b l ih =>
      exact ⟨(same a List.mem_cons_self).trans path.1, ih path.2 fun x mem => same x (List.mem_cons_of_mem _ mem)⟩

theorem Circle.congr (circle : Circle next l) (same : ∀ x ∈ l, other x = next x) : Circle other l := by
  cases l with
  | nil => exact circle
  | cons a l => exact Path.congr circle same

/-- A circle can be listed from any of its nodes on. -/
theorem Circle.rotate (circle : Circle next (l ++ r)) : Circle next (r ++ l) := by
  cases r with
  | nil => rwa [List.append_nil] at circle
  | cons b r =>
      cases l with
      | nil => rwa [List.append_nil]
      | cons a l =>
          obtain ⟨front, back⟩ := path_append.mp circle
          exact path_append.mpr ⟨back, front⟩

/-- The node after the first one. -/
theorem Circle.next_eq (circle : Circle next (a :: l)) : next a = l.headD a := by
  cases l with
  | nil => exact circle
  | cons b l => exact circle.1

/-- The path from a node on is the path from another node with the same link. -/
theorem Path.redirect (path : Path next a l stop) (link : other b = next a) (same : ∀ x ∈ l, other x = next x) :
    Path other b l stop := by
  cases l with
  | nil => exact link.trans path
  | cons c l => exact ⟨link.trans path.1, path.2.congr same⟩

section Search

variable (next) (p : α → Bool)

/-- The loop that starts at a node, follows the links and stops at the first node with a property. -/
def find : Nat → α → Option α
  | 0, _ => none
  | fuel + 1, a => if p a then some a else find fuel (next a)

variable {next p}

/-- The search along a path finds the first node with the property. -/
theorem find_path {fuel : Nat} {front back : List α} (path : Path next a l stop) (nodes : a :: l = front ++ b :: back)
    (without : ∀ x ∈ front, p x = false) (holds : p b = true) (enough : front.length < fuel) :
    find next p fuel a = some b := by
  induction front generalizing a l fuel with
  | nil =>
      obtain ⟨rfl, _⟩ := List.cons.inj nodes
      obtain _ | fuel := fuel
      · exact absurd enough (Nat.not_lt_zero _)
      · rw [find, if_pos holds]
  | cons c front ih =>
      obtain ⟨rfl, rfl⟩ := List.cons.inj nodes
      obtain _ | fuel := fuel
      · exact absurd enough (Nat.not_lt_zero _)
      have first := without a List.mem_cons_self
      have later : ∀ x ∈ front, p x = false := fun x mem => without x (List.mem_cons_of_mem _ mem)
      rw [find, if_neg (by rw [first]; decide)]
      cases front with
      | nil =>
          have link : next a = b := path.1
          rw [link]
          exact ih path.2 rfl later (Nat.lt_of_succ_lt_succ enough)
      | cons d front =>
          have link : next a = d := path.1
          rw [link]
          exact ih path.2 rfl later (Nat.lt_of_succ_lt_succ enough)

end Search

end CircularList
