/-
This file shows that `bget` recycles the buffer whose last release is the oldest.
-/

import Xv6.Proof.Bio.Content

namespace Xv6.Bio
open TransitionSystem

variable {Data : Type}

/-- The buffer whose last reference `brelse` gives back in a step. -/
def releasedBy (s : Bcache Data) : BioEvent Data → Option BufIndex
  | .step t => match s.pc t with
      | .drop b => if (s.buf b).refcnt - 1 = 0 then some b else none
      | _ => none
  | _ => none

/-- The buffers that a run releases, in order. -/
def releases (trace : List (Bcache Data × BioEvent Data)) : List BufIndex :=
  trace.filterMap fun entry => releasedBy entry.1 entry.2

/-- One buffer has been released after each release of the other. -/
def Fresher (history : List BufIndex) (a b : BufIndex) : Prop :=
  ∀ before after, history = before ++ b :: after → a ∈ after

/-- The list has the buffers in the order of their last releases. -/
structure Recent (history : List BufIndex) (s : Bcache Data) (order : List BufIndex) : Prop extends Listed s order where
  sorted : order.Pairwise (Fresher history)

section Step

variable {s u : Bcache Data} {event : BioEvent Data} {history order : List BufIndex} {a b c : BufIndex}

/-- The last release comes after the others. -/
theorem split_last {before after : List BufIndex} (split : history ++ [b] = before ++ c :: after) :
    c = b ∨ ∃ rest, after = rest ++ [b] ∧ history = before ++ c :: rest := by
  rcases List.eq_nil_or_concat after with rfl | ⟨rest, last, rfl⟩
  · exact .inl (List.append_singleton_inj.mp split).2.symm
  · rw [List.concat_eq_append, ← List.cons_append, ← List.append_assoc] at split
    obtain ⟨same, rfl⟩ := List.append_singleton_inj.mp split
    exact .inr ⟨rest, List.concat_eq_append, same⟩

theorem fresher_released (other : c ≠ b) : Fresher (history ++ [b]) b c := by
  intro before after split
  obtain ⟨rest, rfl, _⟩ := (split_last split).resolve_left other
  exact List.mem_append_right _ (List.mem_singleton_self b)

theorem Fresher.kept (fresher : Fresher history a c) (other : c ≠ b) : Fresher (history ++ [b]) a c := by
  intro before after split
  obtain ⟨rest, rfl, same⟩ := (split_last split).resolve_left other
  exact List.mem_append_left _ (fresher before rest same)

/-- The buffer that `brelse` releases goes to the front. -/
theorem Recent.front (recent : Recent history s order) (list : u.list = (s.list.unlink b).insertFront b) :
    ∃ order, Recent (history ++ [b]) u order := by
  obtain ⟨front, back, rfl⟩ := List.append_of_mem (recent.all b)
  obtain ⟨listed, fresh⟩ := recent.toListed.front list
  have other {c : BufIndex} (inside : c ∈ front ++ back) : c ≠ b := by
    rintro rfl
    exact fresh inside
  refine ⟨b :: (front ++ back), listed, List.pairwise_cons.mpr ⟨fun c inside => fresher_released (other inside), ?_⟩⟩
  have kept : (front ++ back).Pairwise (Fresher history) :=
    recent.sorted.sublist ((List.sublist_cons_self b back).append_left front)
  exact kept.imp_of_mem fun _ inside fresher => fresher.kept (other inside)

theorem drop_list (t : Slot) :
    (s.drop t b).list = if (s.buf b).refcnt - 1 = 0 then (s.list.unlink b).insertFront b else s.list := by
  unfold Bcache.drop
  rw [apply_ite Bcache.list]
  simp [Bcache.goto, Bcache.setBuf]

/-- Every step keeps the buffers in the order of their last releases. -/
theorem recent_step (recent : Recent history s order) (move : Move s event u) :
    ∃ order, Recent (history ++ (releasedBy s event).toList) u order := by
  have same (list : u.list = s.list) (none : releasedBy s event = none) :
      ∃ order, Recent (history ++ (releasedBy s event).toList) u order := by
    rw [none, Option.toList_none, List.append_nil]
    exact ⟨order, recent.toListed.keep list, recent.sorted⟩
  cases move with
  | drop t b position =>
      have found : releasedBy s (.step t) = if (s.buf b).refcnt - 1 = 0 then some b else none := by
        simp only [releasedBy, position]
      by_cases last : (s.buf b).refcnt - 1 = 0
      · rw [found, if_pos last]
        exact recent.front (by rw [drop_list, if_pos last])
      · exact same (by rw [drop_list, if_neg last]) (by rw [found, if_neg last])
  | _ => first | exact same rfl rfl | exact same rfl (by simp only [releasedBy, *])

end Step

section Recent

variable {s : Bcache Data} {history order : List BufIndex} {b : BufIndex}

theorem Recent.unused_none (recent : Recent history s order) (none : s.unused = none) :
    (s.buf b).refcnt ≠ 0 := by
  rw [recent.unused] at none
  simpa using List.find?_eq_none.mp none b (List.mem_reverse.mpr (recent.all b))

/-- The second loop of `bget` passes only buffers with references before it finds one without. -/
theorem Recent.unused_some (recent : Recent history s order) (found : s.unused = some b) {c : BufIndex}
    (other : c ≠ b) (free : (s.buf c).refcnt = 0) : Fresher history c b := by
  rw [recent.unused] at found
  obtain ⟨_, passed, rest, split, used⟩ := List.find?_eq_some_iff_append.mp found
  have sorted : (passed ++ b :: rest).Pairwise fun a b => Fresher history b a := by
    rw [← split]
    exact List.pairwise_reverse.mpr recent.sorted
  have inside : c ∈ passed ++ b :: rest := split ▸ List.mem_reverse.mpr (recent.all c)
  rcases List.mem_append.mp inside with early | late
  · simpa [free] using used c early
  · have behind := (List.pairwise_cons.mp (List.pairwise_append.mp sorted).2.1).1
    exact behind c ((List.mem_cons.mp late).resolve_left other)

end Recent

/-- In every run the list has the buffers in the order of their last releases. -/
theorem recent_run (data : BufIndex → Data) (disk : Uint → Data)
    {trace : List (Bcache Data × BioEvent Data)} {s : Bcache Data}
    (run : Run Bcache.Step (Bcache.boot data disk) trace s) : ∃ order, Recent (releases trace) s order := by
  induction run with
  | refl =>
      have start := ranked_boot data disk
      refine ⟨_, start.toListed, List.pairwise_of_forall ?_⟩
      intro a b before after split
      exact absurd split.symm (List.append_ne_nil_of_right_ne_nil before (List.cons_ne_nil b after))
  | @tail trace s u event _ stepped ih =>
      obtain ⟨order, recent⟩ := ih
      have appended : releases (trace ++ [(s, event)]) = releases trace ++ (releasedBy s event).toList := by
        cases released : releasedBy s event <;> simp [releases, released]
      rw [appended]
      exact recent_step recent (move_next stepped)

/-- In every run a call of `bget` that misses takes a buffer without references that was released before every
other such buffer, and panics only if every buffer has a reference. -/
theorem bget_takes_oldest (data : BufIndex → Data) (disk : Uint → Data)
    {trace : List (Bcache Data × BioEvent Data)} {s u : Bcache Data}
    (run : Run Bcache.Step (Bcache.boot data disk) trace s) {t : Slot} {key : BlockKey}
    (position : s.pc t = .get key) (missing : s.cached key = none) (stepped : s.Step (.step t) u) :
    (u.panic = some .bget ∧ ∀ b, (s.buf b).refcnt ≠ 0) ∨
      ∃ b, (s.buf b).refcnt = 0 ∧ u.pc t = .lock b key ∧ (u.buf b).key = key ∧
        ∀ c, c ≠ b → (s.buf c).refcnt = 0 → Fresher (releases trace) c b := by
  obtain ⟨order, recent⟩ := recent_run data disk run
  cases move_next stepped with
  | hit t key' b position' found =>
      cases position.symm.trans position'
      cases missing.symm.trans found
  | full t key' position' missing' none => exact .inl ⟨rfl, fun _ => recent.unused_none none⟩
  | recycle t key' b position' missing' found =>
      cases position.symm.trans position'
      refine .inr ⟨b, unused_zero found, by simp, by simp, fun _ => recent.unused_some found⟩
  | _ => simp_all

/-- Process zero reads block five, stores a seven, releases the buffer, and asks for block six. -/
def releasesOne : List (BioEvent Nat) := rereads.take 9 ++ [.read 0 (1, 6)]

/-- The second call of `bget` leaves the buffer just released alone. -/
theorem bget_takes_unreleased :
    ∃ u b, (bioState releasesOne).Step (.step 0) u ∧ u.pc 0 = .lock b (1, 6) ∧ b ≠ 0 := by
  have run := @run_computed _ _ Bcache.next releasesOne (Bcache.boot (fun _ => 0) fun _ => 0) (by decide +kernel)
  have free : ((bioState releasesOne).buf 1).refcnt = 0 := by decide +kernel
  have asks : (bioState releasesOne).pc 0 = .get (1, 6) := by decide +kernel
  have missing : (bioState releasesOne).cached (1, 6) = none := by decide +kernel
  have defined : ((bioState releasesOne).next (.step 0)).isSome = true := by decide +kernel
  obtain ⟨u, stepped⟩ := Option.isSome_iff_exists.mp defined
  rcases bget_takes_oldest (fun _ => 0) (fun _ => 0) run asks missing stepped with
    ⟨_, used⟩ | ⟨b, _, taken, _, oldest⟩
  · exact absurd free (used 1)
  · refine ⟨u, b, stepped, taken, ?_⟩
    rintro rfl
    have later := oldest 1 (by decide) free [] []
    exact List.not_mem_nil (later (by decide +kernel))

end Xv6.Bio
