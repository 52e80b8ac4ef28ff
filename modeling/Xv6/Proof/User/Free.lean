/-
This file gives what `free` does to the heap. The search stops at the last free block before the freed one, and the two
joins link the freed block behind it and merge it with its neighbours.
-/

import Xv6.Proof.User.Heap
import Xv6.Lib.Program

namespace Xv6.Umalloc

open Bytes Tiling CircularList Program

section Place

variable {base limit : Nat} {granted : List Range} {free live front hi : List Block} {bp pred : Block}

theorem split_at {a : Block} {l : List Block} {x : Nat} (gaps : (a :: l).Pairwise Gap) (below : a.addr < x)
    (other : ∀ c ∈ l, c.addr ≠ x) :
    ∃ front pred hi, a :: l = front ++ pred :: hi ∧ pred.addr < x ∧ ∀ c ∈ hi, x < c.addr := by
  induction l generalizing a with
  | nil => exact ⟨[], a, [], rfl, below, fun _ inside => nomatch inside⟩
  | cons b l ih =>
      obtain ⟨_, rest⟩ := List.pairwise_cons.mp gaps
      rcases Nat.lt_or_ge b.addr x with less | more
      · obtain ⟨front, pred, hi, split, found, above⟩ := ih rest less fun c inside => other c (.tail _ inside)
        exact ⟨a :: front, pred, hi, by rw [split, List.cons_append], found, above⟩
      · have first : x < b.addr := Nat.lt_of_le_of_ne more (other b (.head _)).symm
        refine ⟨[], a, b :: l, rfl, below, fun c inside => ?_⟩
        rcases List.mem_cons.mp inside with rfl | later
        · exact first
        · exact Nat.lt_trans first (Nat.lt_of_le_of_lt b.addr_le_stop ((List.pairwise_cons.mp rest).1 c later))

/-- The freed block lies between two neighbours in the list. -/
structure Placed (base : Nat) (free : List Block) (bp : Block) (front : List Block) (pred : Block) (hi : List Block) :
    Prop where
  nodes : sentinel base :: free = front ++ pred :: hi
  below : pred.addr < bp.addr
  before : pred.stop ≤ bp.addr
  after : ∀ c ∈ hi, bp.stop ≤ c.addr
  above : base + headerSize ≤ bp.addr

theorem Shape.apart_freed (shape : Shape base limit granted free (bp :: live)) {c : Block} (inside : c ∈ free) :
    c.range.Apart bp.range := by
  have apart := shape.apart
  rw [List.map_append, List.pairwise_append] at apart
  exact apart.2.2 _ (List.mem_map_of_mem inside) _ (List.mem_map_of_mem (.head _))

theorem Shape.place (shape : Shape base limit granted free (bp :: live)) :
    ∃ front pred hi, Placed base free bp front pred hi := by
  have above := (shape.bounds (b := bp) (List.mem_append_right _ (.head _))).1
  have size := shape.filled bp (List.mem_append_right _ (.head _))
  have fits := Block.filled_range size
  have differs (c : Block) (inside : c ∈ free) : c.addr ≠ bp.addr := by
    have filled := Block.filled_range (shape.filled c (List.mem_append_left _ inside))
    have apart := shape.apart_freed inside
    unfold Range.Apart Block.range at *
    simp only at *
    omega
  obtain ⟨front, pred, hi, nodes, below, behind⟩ := split_at (x := bp.addr) shape.gaps
    (by unfold sentinel headerSize at *; simp only; omega) differs
  refine ⟨front, pred, hi, nodes, below, ?_, fun c inside => ?_, above⟩
  · have known : pred ∈ sentinel base :: free := by
      rw [nodes]
      exact List.mem_append_right _ (.head _)
    rcases List.mem_cons.mp known with rfl | inside
    · exact Nat.le_of_lt below
    · have apart := shape.apart_freed inside
      unfold Range.Apart Block.range at *
      simp only at *
      omega
  · have after := behind c inside
    have known : c ∈ sentinel base :: free := by
      rw [nodes]
      exact List.mem_append_right _ (.tail _ inside)
    rcases List.mem_cons.mp known with rfl | listed
    · unfold sentinel at after
      simp only [headerSize] at *
      omega
    · have apart := shape.apart_freed listed
      have filled := Block.filled_range (shape.filled c (List.mem_append_left _ listed))
      unfold Range.Apart Block.range at *
      simp only at *
      omega

/-- The list with the freed block is again one that starts with the sentinel. -/
theorem Placed.merged (placed : Placed base free bp front pred hi) :
    ∃ free', sentinel base :: free' = front ++ merge pred (merge bp hi) ∧
      (free' = merge bp free ∨ ∃ front', free = front' ++ pred :: hi ∧ free' = front' ++ merge pred (merge bp hi)) := by
  obtain ⟨size, rest, merged, _⟩ := merge_eq_cons (b := bp) (l := hi)
  cases front with
  | nil =>
      obtain ⟨rfl, rfl⟩ := List.cons.inj placed.nodes
      refine ⟨merge bp free, ?_, Or.inl rfl⟩
      have apart : (sentinel base).stop ≠ bp.addr := by
        have above := placed.above
        unfold sentinel Block.stop
        simp only [headerSize] at *
        omega
      rw [List.nil_append, merged, merge, if_neg apart]
  | cons first front' =>
      obtain ⟨rfl, rfl⟩ := List.cons.inj placed.nodes
      exact ⟨front' ++ merge pred (merge bp hi), rfl, Or.inr ⟨front', rfl, rfl⟩⟩

theorem cover_sentinel {l : List Block} {x : Nat} :
    cover ((sentinel base :: l).map Block.range) x = cover (l.map Block.range) x := by
  rw [List.map_cons, cover_cons, if_neg]
  · rfl
  · unfold sentinel Block.range Block.stop Range.Has
    simp only [headerSize]
    omega

/-- The gaps of the list with the freed block. -/
theorem Placed.gaps (placed : Placed base free bp front pred hi) (gaps : (sentinel base :: free).Pairwise Gap) :
    (front ++ merge pred (merge bp hi)).Pairwise Gap := by
  rw [placed.nodes, List.pairwise_append] at gaps
  obtain ⟨low, high, across⟩ := gaps
  have inner : (merge bp hi).Pairwise Gap := merge_gaps (List.pairwise_cons.mp high).2 placed.after
  have behind (c : Block) (inside : c ∈ merge bp hi) : pred.stop ≤ c.addr := by
    rcases merge_addr inside with same | ⟨h, known, same⟩
    · rw [same]
      exact placed.before
    · rw [same]
      exact Nat.le_trans placed.before (Nat.le_trans bp.addr_le_stop (placed.after h known))
  rw [List.pairwise_append]
  refine ⟨low, merge_gaps inner behind, fun a inFront c inside => ?_⟩
  have first : a.stop < pred.addr := across a inFront pred (.head _)
  rcases merge_addr inside with same | ⟨h, known, same⟩
  · rw [Gap, same]
    exact first
  · rw [Gap, same]
    exact Nat.lt_of_lt_of_le first (Nat.le_trans pred.addr_le_stop (behind h known))

/-- The freed block joins the free ones. -/
theorem Placed.shape (placed : Placed base free bp front pred hi) (shape : Shape base limit granted free (bp :: live)) :
    ∃ free', sentinel base :: free' = front ++ merge pred (merge bp hi) ∧ Shape base limit granted free' live ∧
      ∃ b ∈ free', bp.size ≤ b.size := by
  obtain ⟨free', nodes, form⟩ := placed.merged
  have full (c : Block) (inside : c ∈ free) : 0 < c.size := shape.filled c (List.mem_append_left _ inside)
  have own : 0 < bp.size := shape.filled bp (List.mem_append_right _ (.head _))
  have filled (c : Block) (inside : c ∈ free') : 0 < c.size := by
    rcases form with rfl | ⟨front', rfl, rfl⟩
    · exact merge_filled (fun c inside => (List.mem_cons.mp inside).elim (fun same => same ▸ own) (full c)) c inside
    · rcases List.mem_append.mp inside with early | late
      · exact full c (List.mem_append_left _ early)
      · refine merge_filled (fun c inside => ?_) c late
        rcases List.mem_cons.mp inside with rfl | later
        · exact full c (List.mem_append_right _ (.head _))
        · refine merge_filled (fun c inside => ?_) c later
          rcases List.mem_cons.mp inside with rfl | known
          · exact own
          · exact full c (List.mem_append_right _ (.tail _ known))
  refine ⟨free', nodes, ⟨nodes ▸ placed.gaps shape.gaps, fun c inside => ?_, fun x => ?_, shape.once, shape.inside⟩, ?_⟩
  · rcases List.mem_append.mp inside with listed | lives
    · exact filled c listed
    · exact shape.filled c (List.mem_append_right _ (.tail _ lives))
  · have before := shape.tiled x
    have old : cover ((sentinel base :: free).map Block.range) x = _ := cover_sentinel
    have new : cover ((sentinel base :: free').map Block.range) x = _ := cover_sentinel
    rw [placed.nodes] at old
    rw [nodes] at new
    simp only [List.map_append, cover_append, merge_cover, List.map_cons, cover_cons] at old new before ⊢
    omega
  · obtain ⟨size, rest, upward, grown, _⟩ := merge_eq_cons (b := bp) (l := hi)
    obtain ⟨size', rest', downward, grown', _, outcome⟩ := merge_eq_cons (b := pred) (l := merge bp hi)
    have holder : ∃ c ∈ front ++ merge pred (merge bp hi), bp.size ≤ c.size := by
      rcases outcome with ⟨same, _⟩ | ⟨h, first, _, total⟩
      · refine ⟨⟨bp.addr, size⟩, List.mem_append_right _ ?_, grown⟩
        rw [downward, same, upward]
        exact .tail _ (.head _)
      · refine ⟨⟨pred.addr, size'⟩, List.mem_append_right _ ?_, ?_⟩
        · rw [downward]
          exact .head _
        · obtain ⟨rfl, _⟩ := List.cons.inj (upward.symm.trans first)
          simp only at total ⊢
          omega
    rw [← nodes] at holder
    obtain ⟨c, inside, large⟩ := holder
    rcases List.mem_cons.mp inside with rfl | listed
    · exact absurd large (Nat.not_le_of_lt own)
    · exact ⟨c, listed, large⟩

end Place

section Memory

variable {m : ByteMap} {bp pred : Block} {front hi rest : List Block} {size : Nat}

/-- The address behind a block as the code computes it. -/
theorem endOf_eq {b : Block} (stored : (sizeAt m b.addr).toNat = b.size) : endOf m b.addr = b.stop := by
  rw [endOf, stored, Block.stop]

/-- After the join with the node behind it, the freed block leads on to the other nodes. -/
theorem joinUp_path (circle : Circle (ptrAt m) ((pred :: (hi ++ front)).map Block.addr))
    (own : (sizeAt m bp.addr).toNat = bp.size) (sizes : ∀ c ∈ hi, (sizeAt m c.addr).toNat = c.size)
    (separate : ∀ c ∈ pred :: (hi ++ front), Separate bp.addr c.addr)
    (last : hi = [] → bp.stop ≠ ptrAt m pred.addr) (small : ∀ c ∈ hi, bp.stop = c.addr → bp.size + c.size < 2 ^ 32) :
    ∃ size rest, merge bp hi = ⟨bp.addr, size⟩ :: rest ∧ (∀ c ∈ rest, c ∈ hi) ∧
      (sizeAt (joinUp bp.addr pred.addr m) bp.addr).toNat = size ∧
      CircularList.Path (ptrAt (joinUp bp.addr pred.addr m)) bp.addr ((rest ++ front).map Block.addr) pred.addr := by
  have same (x : Nat) (inside : x ∈ (hi ++ front).map Block.addr) :
      ptrAt (joinUp bp.addr pred.addr m) x = ptrAt m x := by
    obtain ⟨c, known, rfl⟩ := List.mem_map.mp inside
    exact joinUp_elsewhere.ptr (separate c (.tail _ known))
  have alone (gap : bp.stop ≠ ptrAt m pred.addr) :
      (sizeAt (joinUp bp.addr pred.addr m) bp.addr).toNat = bp.size ∧
        CircularList.Path (ptrAt (joinUp bp.addr pred.addr m)) bp.addr ((hi ++ front).map Block.addr) pred.addr := by
    obtain ⟨link, kept⟩ := joinUp_alone (m := m) (b := bp.addr) (p := pred.addr) (by rwa [endOf_eq own])
    rw [kept]
    exact ⟨own, CircularList.Path.redirect circle link same⟩
  cases hi with
  | nil => exact ⟨bp.size, [], rfl, fun _ inside => inside, alone (last rfl)⟩
  | cons h hi =>
      have next : ptrAt m pred.addr = h.addr := circle.1
      rw [merge]
      split
      · next touches =>
          have link := joinUp_touching (m := m) (b := bp.addr) (p := pred.addr) (separate pred (.head _))
            (next ▸ separate h (.tail _ (.head _))) (by rw [endOf_eq own, touches, next])
          rw [next] at link
          refine ⟨_, hi, rfl, fun _ inside => .tail _ inside, ?_, ?_⟩
          · rw [link.2, BitVec.toNat_add, own, sizes h (.head _)]
            exact Nat.mod_eq_of_lt (small h (.head _) touches)
          · exact CircularList.Path.redirect circle.2 link.1 fun x inside => same x (.tail _ inside)
      · next gap => exact ⟨bp.size, h :: hi, rfl, fun _ inside => inside, alone (by rwa [next])⟩

/-- The join with the node before the freed block closes the circle again. -/
theorem joinDown_circle
    (path : CircularList.Path (ptrAt m) bp.addr ((rest ++ front).map Block.addr) pred.addr)
    (own : (sizeAt m pred.addr).toNat = pred.size) (freed : (sizeAt m bp.addr).toNat = size)
    (separate : ∀ c ∈ bp :: (rest ++ front), Separate pred.addr c.addr) (low : bp.addr < 2 ^ 64)
    (small : pred.stop = bp.addr → pred.size + size < 2 ^ 32) :
    ∃ total rest', merge pred (⟨bp.addr, size⟩ :: rest) = ⟨pred.addr, total⟩ :: rest' ∧
      (∀ c ∈ rest', c ∈ ⟨bp.addr, size⟩ :: rest) ∧
      (sizeAt (joinDown bp.addr pred.addr m) pred.addr).toNat = total ∧
      Circle (ptrAt (joinDown bp.addr pred.addr m)) ((⟨pred.addr, total⟩ :: (rest' ++ front)).map Block.addr) := by
  have same (x : Nat) (inside : x ∈ bp.addr :: (rest ++ front).map Block.addr) :
      ptrAt (joinDown bp.addr pred.addr m) x = ptrAt m x := by
    rw [← List.map_cons] at inside
    obtain ⟨c, known, rfl⟩ := List.mem_map.mp inside
    exact joinDown_elsewhere.ptr (separate c known)
  rw [merge]
  split
  · next touches =>
      have link := joinDown_touching (m := m) (p := pred.addr) (b := bp.addr) (separate bp (.head _))
        (by rw [endOf_eq own]; exact touches)
      refine ⟨_, rest, rfl, fun _ inside => .tail _ inside, ?_, ?_⟩
      · rw [link.2, BitVec.toNat_add, own, freed]
        exact Nat.mod_eq_of_lt (small touches)
      · exact CircularList.Path.redirect path link.1 fun x inside => same x (.tail _ inside)
  · next gap =>
      have link := joinDown_alone (m := m) (p := pred.addr) (b := bp.addr) low (by rw [endOf_eq own]; exact gap)
      refine ⟨pred.size, _, rfl, fun _ inside => inside, by rw [link.2, own], link.1, ?_⟩
      exact path.congr same

end Memory

section Frees

variable {base limit : Nat} {m : ByteMap} {freep : Nat} {granted : List Range} {free live front hi : List Block}
  {bp pred a b : Block}

/-- The node after a node of the list. -/
theorem Stored.next (stored : Stored base m free live) (nodes : sentinel base :: free = front ++ b :: hi) :
    ptrAt m b.addr = (hi.map Block.addr).headD base := by
  have circle := stored.circle
  rw [nodes, List.map_append] at circle
  rw [circle.rotate.next_eq]
  cases hi with
  | cons h hi => rfl
  | nil =>
      cases front with
      | nil | cons first front =>
          obtain ⟨rfl, _⟩ := List.cons.inj nodes
          rfl

theorem base_le (gaps : (sentinel base :: free).Pairwise Gap) (inside : b ∈ sentinel base :: free) : base ≤ b.addr := by
  rcases List.mem_cons.mp inside with rfl | listed
  · exact Nat.le_refl _
  · exact Nat.le_of_lt ((List.pairwise_cons.mp gaps).1 b listed)

/-- The links lead upwards or back to the start. -/
theorem Stored.next_cases (stored : Stored base m free live) (gaps : (sentinel base :: free).Pairwise Gap)
    (inside : b ∈ sentinel base :: free) : ptrAt m b.addr = base ∨ b.addr < ptrAt m b.addr := by
  obtain ⟨front, hi, nodes⟩ := List.append_of_mem inside
  rw [stored.next nodes]
  cases hi with
  | nil => exact Or.inl rfl
  | cons c hi =>
      rw [nodes, List.pairwise_append, List.pairwise_cons] at gaps
      exact Or.inr (Nat.lt_of_le_of_lt b.addr_le_stop (gaps.2.1.1 c (.head _)))

/-- The search stops at the block before the freed one only. -/
theorem precedes_iff (stored : Stored base m free live) (gaps : (sentinel base :: free).Pairwise Gap)
    (placed : Placed base free bp front pred hi) (filled : 0 < bp.size) (inside : b ∈ sentinel base :: free) :
    precedes m bp.addr b.addr = true ↔ b = pred := by
  have above := placed.above
  have below := placed.below
  have onward := stored.next_cases gaps inside
  have lowest := base_le gaps inside
  have length : bp.addr < bp.stop := Block.filled_range filled
  rw [placed.nodes, List.pairwise_append] at gaps
  obtain ⟨low, high, across⟩ := gaps
  unfold precedes
  rw [decide_eq_true_iff]
  rw [placed.nodes] at inside
  rcases List.mem_append.mp inside with early | late
  · obtain ⟨f, g, split⟩ := List.append_of_mem early
    have nodes : sentinel base :: free = f ++ b :: (g ++ pred :: hi) := by
      rw [placed.nodes, split, List.append_assoc, List.cons_append]
    have near (c : Block) (inside : c ∈ g ++ [pred]) : b.addr < c.addr ∧ c.addr < bp.addr := by
      have gap : b.stop < pred.addr := across b early pred (.head _)
      have bound := b.addr_le_stop
      rcases List.mem_append.mp inside with listed | found
      · rw [split, List.pairwise_append, List.pairwise_cons] at low
        have first : b.stop < c.addr := low.2.1.1 c listed
        have second : c.stop < pred.addr := across c (split ▸ List.mem_append_right _ (.tail _ listed)) pred (.head _)
        have beyond := c.addr_le_stop
        omega
      · rw [List.mem_singleton.mp found]
        omega
    have differs : b ≠ pred := by
      rintro rfl
      exact Nat.lt_irrefl _ (near b (List.mem_append_right _ (.head _))).1
    have between : b.addr < ptrAt m b.addr ∧ ptrAt m b.addr < bp.addr := by
      rw [stored.next nodes]
      cases g with
      | nil => exact near pred (.head _)
      | cons c g => exact near c (.head _)
    simp only [differs, iff_false]
    omega
  · rcases List.mem_cons.mp late with rfl | later
    · simp only [iff_true]
      rw [stored.next placed.nodes]
      cases hi with
      | nil =>
          right
          exact ⟨lowest, Or.inl below⟩
      | cons h hi =>
          left
          exact ⟨below, Nat.lt_of_lt_of_le length (placed.after h (.head _))⟩
    · have beyond : bp.addr < b.addr := Nat.lt_of_lt_of_le length (placed.after b later)
      have differs : b ≠ pred := by
        rintro rfl
        omega
      simp only [differs, iff_false]
      simp only [headerSize] at above
      omega

theorem Heap.search (heap : Heap base limit m freep granted free (bp :: live))
    (placed : Placed base free bp front pred hi) (small : limit ≤ 2 ^ 36) :
    find (ptrAt m) (precedes m bp.addr) listBound freep = some pred.addr := by
  have filled := heap.shape.filled bp (List.mem_append_right _ (.head _))
  obtain ⟨xs, ys, split⟩ := List.append_of_mem heap.start
  have circle := heap.stored.circle
  rw [split] at circle
  have around := circle.rotate
  have member : pred.addr ∈ (freep :: ys) ++ xs := by
    have inside : pred.addr ∈ (sentinel base :: free).map Block.addr := by
      rw [placed.nodes]
      exact List.mem_map_of_mem (List.mem_append_right _ (.head _))
    rw [split] at inside
    exact List.mem_append.mpr (List.mem_append.mp inside).symm
  obtain ⟨before, after, nodes, first⟩ := List.eq_append_cons_of_mem member
  have node {x : Nat} (inside : x ∈ (freep :: ys) ++ xs) : ∃ b ∈ sentinel base :: free, b.addr = x := by
    apply List.mem_map.mp
    rw [split]
    exact List.mem_append.mpr (List.mem_append.mp inside).symm
  refine find_path around nodes (fun x inside => ?_) ?_ ?_
  · obtain ⟨b, known, rfl⟩ := node (nodes ▸ List.mem_append_left _ inside)
    rw [← Bool.not_eq_true, precedes_iff heap.stored heap.shape.gaps placed filled known]
    rintro rfl
    exact first inside
  · obtain ⟨b, known, same⟩ := node member
    have found := (precedes_iff heap.stored heap.shape.gaps placed filled
      (b := pred) (placed.nodes ▸ List.mem_append_right _ (.head _))).mpr rfl
    exact found
  · have count : before.length < (sentinel base :: free).length := by
      have total := congrArg List.length nodes
      have same := congrArg List.length split
      simp only [List.length_append, List.length_cons, List.length_map] at total same ⊢
      omega
    have bound := heap.shape.length_le
    simp only [List.length_cons, headerSize] at count bound ⊢
    unfold listBound
    omega

theorem Placed.mem (placed : Placed base free bp front pred hi) (inside : b ∈ pred :: (hi ++ front)) :
    b ∈ sentinel base :: free := by
  rw [placed.nodes]
  simp only [List.mem_cons, List.mem_append] at inside ⊢
  tauto

theorem Placed.mem_after (placed : Placed base free bp front pred hi) (inside : b ∈ hi) : b ∈ free := by
  have start := bp.addr_le_stop
  have above := placed.above
  have first := placed.after b inside
  rcases List.mem_cons.mp (placed.mem (.tail _ (List.mem_append_left _ inside))) with rfl | listed
  · unfold sentinel at first
    simp only [headerSize] at above first
    omega
  · exact listed

theorem Shape.freed_separate (shape : Shape base limit granted free (bp :: live)) (node : b ∈ sentinel base :: free) :
    Separate b.addr bp.addr :=
  (shape.beside node (.head _)).separate (shape.filled bp (List.mem_append_right _ (.head _)))

/-- The sum of the sizes of the freed block and of the next one. -/
theorem Placed.up_small (placed : Placed base free bp front pred hi) (shape : Shape base limit granted free (bp :: live))
    (low : 0 < base) (small : limit ≤ 2 ^ 36) (inside : b ∈ hi) (touches : bp.stop = b.addr) :
    bp.size + b.size < 2 ^ 32 := by
  have start : 0 < bp.addr := Nat.lt_of_lt_of_le low (Nat.le_trans (Nat.le_add_right _ _) placed.above)
  apply size_lt (b := ⟨bp.addr, bp.size + b.size⟩) start _ small
  rw [Block.stop_merged touches]
  exact (shape.bounds (List.mem_append_left _ (placed.mem_after inside))).2

/-- The sum of the sizes of the block before the freed one and of the freed one, after the first join. -/
theorem Placed.down_small {free' rest : List Block} {size : Nat} (placed : Placed base free bp front pred hi)
    (shape : Shape base limit granted free' live) (gaps : (sentinel base :: free).Pairwise Gap)
    (nodes : sentinel base :: free' = front ++ merge pred (⟨bp.addr, size⟩ :: rest))
    (low : 0 < base) (small : limit ≤ 2 ^ 36) (touches : pred.stop = bp.addr) : pred.size + size < 2 ^ 32 := by
  have start : 0 < pred.addr := Nat.lt_of_lt_of_le low (base_le gaps (placed.mem (.head _)))
  have joined : (⟨pred.addr, pred.size + size⟩ : Block) ∈ sentinel base :: free' := by
    rw [nodes, merge, if_pos touches]
    exact List.mem_append_right _ (.head _)
  rcases List.mem_cons.mp joined with same | listed
  · have none := congrArg Block.size same
    unfold sentinel at none
    simp only at none
    omega
  · exact size_lt (b := ⟨pred.addr, pred.size + size⟩) start (shape.bounds (List.mem_append_left _ listed)).2 small

/-- The headers and the blocks after a free. -/
theorem free_heap (heap : Heap base limit m freep granted free (bp :: live))
    (placed : Placed base free bp front pred hi) (low : 0 < base) (small : limit ≤ 2 ^ 36) :
    ∃ free', Heap base limit (joinDown bp.addr pred.addr (joinUp bp.addr pred.addr m)) pred.addr granted free' live ∧
      (∃ b ∈ free', bp.size ≤ b.size) ∧
      ∀ b ∈ live, ∀ x, b.range.Has x → joinDown bp.addr pred.addr (joinUp bp.addr pred.addr m) x = m x := by
  have shape := heap.shape
  have sizes (c : Block) (inside : c ∈ pred :: (hi ++ front)) : (sizeAt m c.addr).toNat = c.size :=
    heap.stored.sizes c (List.mem_append_left _ (placed.mem inside))
  have bpApart (c : Block) (inside : c ∈ pred :: (hi ++ front)) : Separate bp.addr c.addr :=
    (shape.freed_separate (placed.mem inside)).symm
  have circle : Circle (ptrAt m) ((pred :: (hi ++ front)).map Block.addr) := by
    have listed := heap.stored.circle
    rw [placed.nodes, List.map_append] at listed
    rw [← List.cons_append, List.map_append]
    exact listed.rotate
  have last (none : hi = []) : bp.stop ≠ ptrAt m pred.addr := by
    have above := placed.above
    have start := bp.addr_le_stop
    rw [heap.stored.next placed.nodes, none]
    show bp.stop ≠ base
    simp only [headerSize] at above
    omega
  obtain ⟨size, rest, merged, fewer, newSize, path⟩ := joinUp_path circle
    (heap.stored.sizes bp (List.mem_append_right _ (.head _)))
    (fun c inside => sizes c (.tail _ (List.mem_append_left _ inside))) bpApart last
    (fun c => placed.up_small shape low small)
  obtain ⟨free', nodes, shape', holder⟩ := placed.shape shape
  rw [merged] at nodes
  have predApart (c : Block) (inside : c ∈ bp :: (rest ++ front)) : Separate pred.addr c.addr := by
    rcases List.mem_cons.mp inside with rfl | other
    · exact shape.freed_separate (placed.mem (.head _))
    · refine shape.node_separate placed.nodes ((List.mem_append.mp other).elim (fun late => ?_) fun early => ?_)
      · exact List.mem_append_left _ (fewer c late)
      · exact List.mem_append_right _ early
  have high : bp.addr < 2 ^ 64 := by
    have bound := (shape.bounds (b := bp) (List.mem_append_right _ (.head _))).2
    have start := bp.addr_le_stop
    omega
  obtain ⟨total, rest', merged', fewer', newTotal, circle'⟩ := joinDown_circle path
    (by rw [joinUp_elsewhere.size (bpApart pred (.head _))]; exact sizes pred (.head _)) newSize predApart high
    (placed.down_small shape' shape.gaps nodes low small)
  rw [merged'] at nodes
  refine ⟨free', ⟨shape', ⟨?_, ?_⟩, ?_⟩, holder, ?_⟩
  · rw [nodes, List.map_append]
    apply Circle.rotate
    rw [← List.map_append, List.cons_append]
    exact circle'
  · have kept (c : Block) (besideFreed : Separate bp.addr c.addr) (besidePred : Separate pred.addr c.addr)
        (recorded : (sizeAt m c.addr).toNat = c.size) :
        (sizeAt (joinDown bp.addr pred.addr (joinUp bp.addr pred.addr m)) c.addr).toNat = c.size := by
      rw [joinDown_elsewhere.size besidePred, joinUp_elsewhere.size besideFreed]
      exact recorded
    have others (c : Block) (inside : c ∈ hi ++ front) :=
      kept c (bpApart c (.tail _ inside)) (shape.node_separate placed.nodes inside) (sizes c (.tail _ inside))
    intro c inside
    rw [nodes] at inside
    rcases List.mem_append.mp inside with listed | lives
    · rcases List.mem_append.mp listed with early | late
      · exact others c (List.mem_append_right _ early)
      rcases List.mem_cons.mp late with rfl | behind
      · exact newTotal
      rcases List.mem_cons.mp (fewer' c behind) with rfl | later
      · rw [joinDown_elsewhere.size (predApart bp (.head _))]
        exact newSize
      · exact others c (List.mem_append_left _ (fewer c later))
    · have full := shape.filled c (List.mem_append_right _ (.tail _ lives))
      exact kept c ((shape.beside_head lives).separate full)
        ((shape.beside (placed.mem (.head _)) (.tail _ lives)).separate full)
        (heap.stored.sizes c (List.mem_append_right _ (.tail _ lives)))
  · rw [nodes, List.map_append]
    exact List.mem_append_right _ (.head _)
  · intro b lives x has
    rw [joinDown_elsewhere x ((shape.beside (placed.mem (.head _)) (.tail _ lives)).outside has),
      joinUp_elsewhere x ((shape.beside_head lives).outside has)]

/-- The blocks keep their bytes. -/
def Kept (live : List Block) (m m' : ByteMap) : Prop := ∀ b ∈ live, ∀ x, b.range.Has x → m' x = m x

theorem Kept.trans {m' m'' : ByteMap} (first : Kept live m m') (second : Kept live m' m'') : Kept live m m'' :=
  fun b lives x has => (second b lives x has).trans (first b lives x has)

/-- `free` returns, and the block is a part of a free one. -/
theorem free_spec {Env : Type} {w : World Env} (heap : Heap base limit w.mem w.freep w.granted free (bp :: live))
    (low : 0 < base) (small : limit ≤ 2 ^ 36) :
    Ensures (Umalloc.free (bp.addr + headerSize)) w
      (fun _ w' => w'.env = w.env ∧ w'.granted = w.granted ∧ Kept live w.mem w'.mem ∧
        ∃ free', Heap base limit w'.mem w'.freep w'.granted free' live ∧ ∃ b ∈ free', bp.size ≤ b.size)
      (fun _ => False) := by
  obtain ⟨front, pred, hi, placed⟩ := heap.shape.place
  obtain ⟨free', heap', holder, kept⟩ := free_heap heap placed low small
  have found := heap.search placed small
  unfold Umalloc.free
  rw [Nat.add_sub_cancel]
  simp only [ensures_bind, ensures_get, found, ensures_set]
  exact ⟨trivial, trivial, kept, free', heap', holder⟩

end Frees

end Xv6.Umalloc
