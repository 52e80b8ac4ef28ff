/-
This file gives circular doubly linked lists with a sentinel, over an arbitrary type of elements. The pointers
are two functions, and the absent element is the sentinel.
-/

import Mathlib

/-- The pointers of all elements and of the sentinel. -/
structure Links (α : Type*) where
  prev : Option α → Option α
  next : Option α → Option α

namespace Links

variable {α : Type*}

/-- The pointers in the other direction. -/
def flip (l : Links α) : Links α := ⟨l.next, l.prev⟩

/-- Each cut of the list lies between two nodes that point to each other. -/
def Represents (l : Links α) (order : List α) : Prop :=
  ∀ front back, order = front ++ back →
    l.next front.getLast? = back.head? ∧ l.prev back.head? = front.getLast?

/-- A cut of a list without repetition is known from the last element before it. -/
theorem cut_unique {front back front' back' : List α} (nodup : (front ++ back).Nodup)
    (same : front ++ back = front' ++ back') (last : front.getLast? = front'.getLast?) : front = front' := by
  have shorter {xs as ys : List α} (nodup : (xs ++ as ++ ys).Nodup)
      (last : xs.getLast? = (xs ++ as).getLast?) : as = [] := by
    rcases List.eq_nil_or_concat as with none | ⟨as, a, rfl⟩
    · exact none
    · rw [List.concat_eq_append] at nodup last
      rw [← List.append_assoc, List.getLast?_concat] at last
      have apart := List.disjoint_of_nodup_append (List.nodup_append.mp nodup).1
      exact absurd (List.mem_append_right _ (List.mem_singleton_self a)) (apart (List.mem_of_getLast? last))
  rcases List.append_eq_append_iff.mp same with ⟨as, rfl, rfl⟩ | ⟨as, rfl, rfl⟩
  · rw [← List.append_assoc] at nodup
    rw [shorter nodup last, List.append_nil]
  · rw [shorter nodup last.symm, List.append_nil]

/-- A cut of a list without repetition is known from the first element after it. -/
theorem cut_unique_head {front back front' back' : List α} (nodup : (front ++ back).Nodup)
    (same : front ++ back = front' ++ back') (first : back.head? = back'.head?) : back = back' := by
  have reversed := congrArg List.reverse same
  rw [List.reverse_append, List.reverse_append] at reversed
  have turned := cut_unique (by rw [← List.reverse_append]; exact List.nodup_reverse.mpr nodup) reversed
    (by rw [List.getLast?_reverse, List.getLast?_reverse, first])
  exact List.reverse_injective turned

section Represents

variable {l : Links α} {order : List α}

theorem Represents.head (represents : l.Represents order) : l.next none = order.head? :=
  (represents [] order rfl).1

theorem Represents.flip (represents : l.Represents order) : l.flip.Represents order.reverse := by
  intro front back cut
  have turned : order = back.reverse ++ front.reverse := by
    rw [← List.reverse_append, ← cut, List.reverse_reverse]
  have old := represents back.reverse front.reverse turned
  rw [List.getLast?_reverse, List.head?_reverse] at old
  exact old.symm

theorem Represents.prev_next (represents : l.Represents order) {node : Option α}
    (inside : ∀ a, node = some a → a ∈ order) : l.prev (l.next node) = node := by
  obtain ⟨front, back, cut, rfl⟩ : ∃ front back, order = front ++ back ∧ front.getLast? = node := by
    cases node with
    | none => exact ⟨[], order, rfl, rfl⟩
    | some a =>
        obtain ⟨front, back, rfl⟩ := List.append_of_mem (inside a rfl)
        exact ⟨front ++ [a], back, by simp, by simp⟩
  have after := represents front back cut
  rw [after.1, after.2]

/-- The two pointers of every node of the list undo each other. -/
theorem Represents.inverse (represents : l.Represents order) {node : Option α}
    (inside : ∀ a, node = some a → a ∈ order) : l.prev (l.next node) = node ∧ l.next (l.prev node) = node :=
  ⟨represents.prev_next inside, represents.flip.prev_next fun a same => List.mem_reverse.mpr (inside a same)⟩

end Represents

section Update

variable [DecidableEq α] (l : Links α)

/-- The element goes between the sentinel and the first element. -/
def insertFront (a : α) : Links α :=
  let l := { l with next := Function.update l.next (some a) (l.next none) }
  let l := { l with prev := Function.update l.prev (some a) none }
  let l := { l with prev := Function.update l.prev (l.next none) (some a) }
  { l with next := Function.update l.next none (some a) }

/-- The neighbours of the element point to each other. -/
def unlink (a : α) : Links α :=
  let l := { l with prev := Function.update l.prev (l.next (some a)) (l.prev (some a)) }
  { l with next := Function.update l.next (l.prev (some a)) (l.next (some a)) }

variable {l} {order : List α}

theorem Represents.insertFront (represents : l.Represents order) {a : α} (nodup : order.Nodup)
    (fresh : a ∉ order) : (l.insertFront a).Represents (a :: order) := by
  have first := represents.head
  have next : (l.insertFront a).next =
      Function.update (Function.update l.next (some a) order.head?) none (some a) := by
    simp only [Links.insertFront, first]
  have prev : (l.insertFront a).prev =
      Function.update (Function.update l.prev (some a) none) order.head? (some a) := by
    simp only [Links.insertFront, Function.update_of_ne (Option.some_ne_none a).symm, first]
  have other : order.head? ≠ some a := fun same => fresh (List.mem_of_head? same)
  intro front back cut
  rw [next, prev]
  cases front with
  | nil =>
      obtain rfl : a :: order = back := cut
      simp [other.symm]
  | cons b front =>
      obtain ⟨rfl, rest⟩ := List.cons.inj cut
      have old := represents front back rest
      cases front with
      | nil =>
          obtain rfl : order = back := rest
          simp
      | cons c front =>
          have last : (a :: c :: front).getLast? = (c :: front).getLast? := List.getLast?_cons_cons
          obtain ⟨z, found⟩ : ∃ z, (c :: front).getLast? = some z :=
            Option.isSome_iff_exists.mp (by simp)
          have inside : z ∈ order := rest ▸ List.mem_append_left _ (List.mem_of_getLast? found)
          have distinct : z ≠ a := fun same => fresh (same ▸ inside)
          have later : back.head? ≠ order.head? := by
            intro same
            have whole : ([] ++ order).Nodup := nodup
            have all : order = back := cut_unique_head whole rest same.symm
            have size := congrArg List.length rest
            rw [all] at size
            simp at size
            omega
          have fine : back.head? ≠ some a := by
            intro same
            exact fresh (rest ▸ List.mem_append_right _ (List.mem_of_head? same))
          rw [found] at old
          rw [last, found, Function.update_of_ne (Option.some_ne_none z), Function.update_of_ne (by simpa using distinct),
            Function.update_of_ne later, Function.update_of_ne fine]
          exact old

theorem Represents.unlink {front back : List α} {a : α} (represents : l.Represents (front ++ a :: back))
    (nodup : (front ++ a :: back).Nodup) : (l.unlink a).Represents (front ++ back) := by
  have before := represents front (a :: back) rfl
  have after := represents (front ++ [a]) back (by simp)
  rw [List.getLast?_concat] at after
  rw [List.head?_cons] at before
  have shorter : (front ++ back).Nodup :=
    nodup.sublist ((List.Sublist.refl front).append (List.sublist_cons_self a back))
  have gone : back.head? ≠ some a := by
    intro same
    have twice := (List.nodup_append.mp nodup).2.1
    exact (List.nodup_cons.mp twice).1 (List.mem_of_head? same)
  have prev : (l.unlink a).prev = Function.update l.prev back.head? front.getLast? := by
    simp only [Links.unlink, after.1, before.2]
  have next : (l.unlink a).next = Function.update l.next front.getLast? back.head? := by
    simp only [Links.unlink, after.1, Function.update_of_ne gone.symm, before.2]
  intro xs ys cut
  rw [next, prev]
  by_cases here : xs.getLast? = front.getLast?
  · obtain rfl := cut_unique shorter cut here.symm
    obtain rfl : back = ys := List.append_cancel_left cut
    simp
  · have there : ys.head? ≠ back.head? := by
      intro same
      obtain rfl := cut_unique_head shorter cut same.symm
      exact here (congrArg List.getLast? (List.append_cancel_right cut).symm)
    rw [Function.update_of_ne here, Function.update_of_ne there]
    rcases List.append_eq_append_iff.mp cut with ⟨as, rfl, rfl⟩ | ⟨as, rfl, rfl⟩
    · cases as with
      | nil => simp at here
      | cons c as =>
          have old := represents (front ++ a :: c :: as) ys (by simp)
          simpa [List.getLast?_append] using old
    · cases as with
      | nil => simp at here
      | cons c as =>
          have old := represents xs (c :: as ++ a :: back) (by simp)
          simpa using old

end Update

section Search

variable (l : Links α) (p : α → Bool)

/-- The loop that starts at a node, follows `next` and stops at the sentinel. -/
def findNext : Nat → Option α → Option α
  | 0, _ | _ + 1, none => none
  | fuel + 1, some a => if p a then some a else findNext fuel (l.next (some a))

/-- The loop that starts at a node, follows `prev` and stops at the sentinel. -/
def findPrev : Nat → Option α → Option α := l.flip.findNext p

variable {l p} {order : List α}

theorem findNext_some {fuel : Nat} {node : Option α} {a : α} (found : l.findNext p fuel node = some a) :
    p a = true := by
  induction fuel generalizing node with
  | zero => cases found
  | succ fuel ih =>
      cases node with
      | none => cases found
      | some b =>
          rw [findNext] at found
          split_ifs at found with holds
          · obtain rfl := Option.some.inj found
            exact holds
          · exact ih found

variable (p)

theorem Represents.findNext (represents : l.Represents order) {fuel : Nat} (enough : order.length < fuel) :
    l.findNext p fuel (l.next none) = order.find? p := by
  have loop (front back : List α) (cut : order = front ++ back) (fuel : Nat) (enough : back.length < fuel) :
      l.findNext p fuel back.head? = back.find? p := by
    induction back generalizing front fuel with
    | nil => cases fuel <;> rfl
    | cons a back ih =>
        obtain ⟨fuel, rfl⟩ : ∃ k, fuel = k + 1 := ⟨fuel - 1, by omega⟩
        have cut' : order = (front ++ [a]) ++ back := by simpa using cut
        have next := (represents _ _ cut').1
        rw [List.getLast?_concat] at next
        rw [List.head?_cons, Links.findNext, List.find?_cons, next]
        rw [ih (front ++ [a]) cut' fuel (by simp only [List.length_cons] at enough; omega)]
        cases p a <;> rfl
  rw [represents.head]
  exact loop [] order rfl fuel enough

theorem Represents.findPrev (represents : l.Represents order) {fuel : Nat} (enough : order.length < fuel) :
    l.findPrev p fuel (l.prev none) = order.reverse.find? p :=
  represents.flip.findNext p (by rwa [List.length_reverse])

end Search

end Links
