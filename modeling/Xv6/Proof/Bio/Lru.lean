/-
This file shows that the list of the buffer cache holds every buffer once, and that no two buffers in use have
the same block.
-/

import Xv6.Proof.Bio.Count

namespace Xv6.Bio
open TransitionSystem

variable {Data : Type}

/-- The buffer is as `binit` left it. -/
def Pristine (buf : Buf Data) : Prop := buf.valid = false ∧ buf.key = (0, 0) ∧ buf.refcnt = 0

/-- The list has the buffers in this order, each of them once. -/
structure Listed (s : Bcache Data) (order : List BufIndex) : Prop where
  represents : s.list.Represents order
  nodup : order.Nodup
  all : ∀ b, b ∈ order

/-- Of two buffers with the same key the later one has never been used. -/
structure Ranked (s : Bcache Data) (order : List BufIndex) : Prop extends Listed s order where
  unique : order.Pairwise fun a b => (s.buf a).key = (s.buf b).key → Pristine (s.buf b)

section Ranked

variable {s u : Bcache Data} {event : BioEvent Data} {order : List BufIndex}

theorem Listed.length (listed : Listed s order) : order.length < nbuf + 1 := by
  have size := listed.nodup.length_le_card
  rw [Fintype.card_fin] at size
  omega

theorem Listed.unused (listed : Listed s order) :
    s.unused = order.reverse.find? fun b => (s.buf b).refcnt = 0 :=
  listed.represents.findPrev _ listed.length

theorem Listed.keep (listed : Listed s order) (list : u.list = s.list) : Listed u order :=
  ⟨list ▸ listed.represents, listed.nodup, listed.all⟩

/-- A buffer goes to the front of the list. -/
theorem Listed.front {front back : List BufIndex} {b : BufIndex} (listed : Listed s (front ++ b :: back))
    (list : u.list = (s.list.unlink b).insertFront b) : Listed u (b :: (front ++ back)) ∧ b ∉ front ++ back := by
  have moved : (b :: (front ++ back)).Perm (front ++ b :: back) := List.perm_middle.symm
  have nodup : (b :: (front ++ back)).Nodup := moved.nodup_iff.mpr listed.nodup
  obtain ⟨fresh, rest⟩ := List.nodup_cons.mp nodup
  refine ⟨⟨?_, nodup, fun c => moved.mem_iff.mpr (listed.all c)⟩, fresh⟩
  rw [list]
  exact (listed.represents.unlink listed.nodup).insertFront rest fresh

theorem Ranked.cached (ranked : Ranked s order) (key : BlockKey) :
    s.cached key = order.find? fun b => (s.buf b).key = key :=
  ranked.represents.findNext _ ranked.length

/-- Of two buffers with the same key one has never been used. -/
theorem Ranked.pristine (ranked : Ranked s order) {a b : BufIndex} (different : a ≠ b)
    (same : (s.buf a).key = (s.buf b).key) : Pristine (s.buf a) ∨ Pristine (s.buf b) := by
  have either := ranked.unique.imp (S := fun a b => (s.buf a).key = (s.buf b).key →
    Pristine (s.buf a) ∨ Pristine (s.buf b)) fun later equal => .inr (later equal)
  have symmetric : Std.Symm fun a b : BufIndex => (s.buf a).key = (s.buf b).key →
      Pristine (s.buf a) ∨ Pristine (s.buf b) := ⟨fun _ _ holds equal => (holds equal.symm).symm⟩
  exact either.forall (ranked.all a) (ranked.all b) different same

/-- A step that keeps the list, the keys and the buffers that were never used keeps the order. -/
theorem Ranked.keep (ranked : Ranked s order) (list : u.list = s.list)
    (keys : ∀ b, (u.buf b).key = (s.buf b).key)
    (pristine : ∀ b, Pristine (s.buf b) → Pristine (u.buf b)) : Ranked u order := by
  refine ⟨ranked.toListed.keep list, ranked.unique.imp ?_⟩
  intro a b later same
  rw [keys, keys] at same
  exact pristine b (later same)

/-- A change of a buffer in use that keeps its key. -/
theorem Ranked.setBuf (ranked : Ranked s order) {b : BufIndex} {buf : Buf Data} (list : u.list = s.list)
    (bufs : u.buf = Function.update s.buf b buf) (key : buf.key = (s.buf b).key)
    (used : ¬ Pristine (s.buf b)) : Ranked u order := by
  apply ranked.keep list
  · intro c
    rw [bufs]
    by_cases here : c = b
    · subst here
      rw [Function.update_self, key]
    · rw [Function.update_of_ne here]
  · intro c pristine
    by_cases here : c = b
    · subst here
      exact absurd pristine used
    · rw [bufs, Function.update_of_ne here]
      exact pristine

/-- The buffer that `bget` finds is the first with its key, so it may be used. -/
theorem Ranked.hit (ranked : Ranked s order) {key : BlockKey} {b : BufIndex} {buf : Buf Data}
    (found : s.cached key = some b) (list : u.list = s.list) (bufs : u.buf = Function.update s.buf b buf)
    (kept : buf.key = (s.buf b).key) : Ranked u order := by
  have keys (c : BufIndex) : (u.buf c).key = (s.buf c).key := by
    rw [bufs]
    by_cases here : c = b
    · subst here
      rw [Function.update_self, kept]
    · rw [Function.update_of_ne here]
  rw [ranked.cached, List.find?_eq_some_iff_append] at found
  obtain ⟨own, front, back, rfl, before⟩ := found
  refine ⟨ranked.toListed.keep list, ?_⟩
  have first : (front ++ b :: back).Pairwise fun a c => c = b → (s.buf a).key ≠ (s.buf c).key := by
    have fresh := (List.nodup_cons.mp (List.nodup_append.mp ranked.nodup).2.1).1
    have apart := List.disjoint_of_nodup_append ranked.nodup
    refine List.pairwise_append.mpr ⟨?_, List.pairwise_cons.mpr ⟨?_, ?_⟩, ?_⟩
    · apply List.pairwise_of_forall_mem_list
      intro a _ c inside here
      exact absurd (here ▸ List.mem_cons_self) (apart inside)
    · intro c inside here
      exact absurd (here ▸ inside) fresh
    · apply List.pairwise_of_forall_mem_list
      intro a _ c inside here
      exact absurd (here ▸ inside) fresh
    · intro a inside c _ here same
      subst here
      have other := before a inside
      simp only [decide_eq_true_eq] at own
      simp [same, own] at other
  refine (ranked.unique.and first).imp ?_
  rintro a c ⟨later, other⟩ same
  rw [keys, keys] at same
  by_cases here : c = b
  · exact absurd same (other here)
  · rw [bufs, Function.update_of_ne here]
    exact later same

/-- A buffer moves to a block that no buffer has. -/
theorem Ranked.recycle (ranked : Ranked s order) {key : BlockKey} {b : BufIndex} {buf : Buf Data}
    (missing : s.cached key = none) (list : u.list = s.list) (bufs : u.buf = Function.update s.buf b buf)
    (moved : buf.key = key) : Ranked u order := by
  rw [ranked.cached, List.find?_eq_none] at missing
  have absent (c : BufIndex) : (s.buf c).key ≠ key := by
    have none := missing c (ranked.all c)
    simpa using none
  refine ⟨ranked.toListed.keep list, ?_⟩
  refine (ranked.unique.and ranked.nodup).imp ?_
  rintro a c ⟨later, different⟩ same
  rw [bufs] at same ⊢
  by_cases there : c = b
  · subst there
    rw [Function.update_self, Function.update_of_ne different, moved] at same
    exact absurd same (absent a)
  · rw [Function.update_of_ne there] at same ⊢
    by_cases here : a = b
    · subst here
      rw [Function.update_self, moved] at same
      exact absurd same.symm (absent c)
    · rw [Function.update_of_ne here] at same
      exact later same

/-- A buffer in use that goes to the front of the list is in front of no other buffer of its block in use. -/
theorem Ranked.front (ranked : Ranked s order) {b : BufIndex} {buf : Buf Data}
    (list : u.list = (s.list.unlink b).insertFront b) (bufs : u.buf = Function.update s.buf b buf)
    (key : buf.key = (s.buf b).key) (used : ¬ Pristine (s.buf b)) : ∃ order, Ranked u order := by
  obtain ⟨front, back, rfl⟩ := List.append_of_mem (ranked.all b)
  obtain ⟨listed, fresh⟩ := ranked.toListed.front list
  have same {c : BufIndex} (inside : c ∈ front ++ back) : u.buf c = s.buf c := by
    rw [bufs, Function.update_of_ne]
    rintro rfl
    exact fresh inside
  have own : (u.buf b).key = (s.buf b).key := by rw [bufs, Function.update_self, key]
  obtain ⟨unique, later, across⟩ := List.pairwise_append.mp ranked.unique
  obtain ⟨behind, rest⟩ := List.pairwise_cons.mp later
  refine ⟨b :: (front ++ back), listed, List.pairwise_cons.mpr ⟨?_, ?_⟩⟩
  · intro c inside equal
    rw [own, same inside] at equal
    rw [same inside]
    rcases List.mem_append.mp inside with ahead | after
    · exact absurd (across c ahead b List.mem_cons_self equal.symm) used
    · exact behind c after equal
  · have old : (front ++ back).Pairwise fun a c => (s.buf a).key = (s.buf c).key → Pristine (s.buf c) :=
      List.pairwise_append.mpr ⟨unique, rest, fun a x c y => across a x c (List.mem_cons_of_mem b y)⟩
    refine old.imp_of_mem ?_
    intro a c insideA insideC holds equal
    rw [same insideA, same insideC] at equal
    rw [same insideC]
    exact holds equal

/-- A buffer with a reference has been used. -/
theorem Counted.used (counted : Counted s) {b : BufIndex}
    (used : (s.buf b).lock ≠ none ∨ (∃ t, uses b (s.pc t) ≠ 0) ∨ s.pins b ≠ 0) : ¬ Pristine (s.buf b) := by
  intro pristine
  have positive := counted.positive used
  rw [pristine.2.2] at positive
  exact absurd positive (by decide)

theorem Ranked.drop (ranked : Ranked s order) (counted : Counted s) {t : Slot} {b : BufIndex}
    (position : s.pc t = .drop b) : ∃ order, Ranked (s.drop t b) order := by
  have used : ¬ Pristine (s.buf b) := counted.used (.inr (.inl ⟨t, by simp [position, uses]⟩))
  unfold Bcache.drop
  dsimp only
  split_ifs
  · exact ranked.front rfl rfl rfl used
  · exact ⟨order, ranked.setBuf rfl rfl rfl used⟩

/-- Every step keeps an order of the list. -/
theorem ranked_step (held : Held s) (counted : Counted s) (ranked : Ranked s order) (move : Move s event u) :
    ∃ order, Ranked u order := by
  have mine {t : Slot} {b : BufIndex} (locked : (s.buf b).lock = some t) : ¬ Pristine (s.buf b) :=
    counted.used (.inl (by rw [locked]; nofun))
  cases move with
  | read t key idle => exact ⟨order, ranked.keep rfl (fun _ => rfl) fun _ pristine => pristine⟩
  | store t b data idle locked | pin t b locked room => exact ⟨order, ranked.setBuf rfl rfl rfl (mine locked)⟩
  | write t b idle locked => exact ⟨order, ranked.keep rfl (fun _ => rfl) fun _ pristine => pristine⟩
  | release t b idle locked => exact ⟨order, ranked.keep rfl (fun _ => rfl) fun _ pristine => pristine⟩
  | badWrite t b unheld => exact ⟨order, ranked.keep rfl (fun _ => rfl) fun _ pristine => pristine⟩
  | badRelease t b unheld => exact ⟨order, ranked.keep rfl (fun _ => rfl) fun _ pristine => pristine⟩
  | full t key position missing none => exact ⟨order, ranked.keep rfl (fun _ => rfl) fun _ pristine => pristine⟩
  | unpin t b pinned =>
      exact ⟨order, ranked.setBuf rfl rfl rfl (counted.used (.inr (.inr (Nat.pos_iff_ne_zero.mp pinned))))⟩
  | hit t key b position found => exact ⟨order, ranked.hit found rfl rfl rfl⟩
  | recycle t key b position missing found => exact ⟨order, ranked.recycle missing rfl rfl rfl⟩
  | lock t b key position free =>
      have used : ¬ Pristine (s.buf b) := counted.used (.inr (.inl ⟨t, by simp [position, uses]⟩))
      exact ⟨order, ranked.setBuf rfl rfl rfl used⟩
  | ready t b key position valid => exact ⟨order, ranked.keep rfl (fun _ => rfl) fun _ pristine => pristine⟩
  | load t b key position invalid | loaded t b key position | unlock t b position =>
      exact ⟨order, ranked.setBuf rfl rfl rfl (mine (held t b (by rw [position]; rfl)))⟩
  | flush t b position => exact ⟨order, ranked.keep rfl (fun _ => rfl) fun _ pristine => pristine⟩
  | drop t b position => exact ranked.drop counted position

/-- `binit` builds the list of all buffers. -/
theorem ranked_boot (data : BufIndex → Data) (disk : Uint → Data) :
    Ranked (Bcache.boot data disk) (List.finRange nbuf).reverse := by
  have grow (bs order : List BufIndex) (l : Links BufIndex) (represents : l.Represents order)
      (nodup : (bs.reverse ++ order).Nodup) :
      (bs.foldl (fun list b => list.insertFront b) l).Represents (bs.reverse ++ order) := by
    induction bs generalizing order l with
    | nil => exact represents
    | cons b bs ih =>
        rw [List.reverse_cons, List.append_assoc] at nodup ⊢
        have rest := (List.nodup_append.mp nodup).2.1
        obtain ⟨fresh, distinct⟩ := List.nodup_cons.mp rest
        exact ih (b :: order) _ (represents.insertFront distinct fresh) nodup
  have empty : (⟨fun _ => none, fun _ => none⟩ : Links BufIndex).Represents [] := by
    intro front back cut
    obtain ⟨rfl, rfl⟩ := List.append_eq_nil_iff.mp cut.symm
    exact ⟨rfl, rfl⟩
  have nodup : (List.finRange nbuf).reverse.Nodup := List.nodup_reverse.mpr (List.nodup_finRange nbuf)
  refine ⟨⟨?_, nodup, fun b => by simp⟩, ?_⟩
  · have built := grow (List.finRange nbuf) [] _ empty (by simpa using nodup)
    rwa [List.append_nil] at built
  · exact List.pairwise_of_forall fun _ _ _ => ⟨rfl, rfl, rfl⟩

end Ranked

end Xv6.Bio
