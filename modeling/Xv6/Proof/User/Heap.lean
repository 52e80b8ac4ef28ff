/-
This file gives the invariant of the heap. The free list is a circle in the order of the addresses, the free blocks and
the live ones tile the memory from `sbrk`, and no free block ends where another one starts.
-/

import Xv6.Proof.User.Headers

namespace Xv6.Umalloc

open Bytes Tiling CircularList

/-- A block starts with its header, and its size counts units of a header's length. -/
structure Block where
  addr : Nat
  size : Nat
  deriving DecidableEq

namespace Block

def stop (b : Block) : Nat := b.addr + headerSize * b.size

def range (b : Block) : Range := ⟨b.addr, b.stop⟩

/-- The bytes behind the header. -/
def payload (b : Block) : Range := ⟨b.addr + headerSize, b.stop⟩

end Block

/-- The header `base` as an empty block. -/
def sentinel (base : Nat) : Block := ⟨base, 0⟩

/-- The first block ends before the second one starts. -/
def Gap (a b : Block) : Prop := a.stop < b.addr

/-- A block takes over the next one in the list where they touch. -/
def merge (b : Block) : List Block → List Block
  | [] => [b]
  | h :: l => if b.stop = h.addr then ⟨b.addr, b.size + h.size⟩ :: l else b :: h :: l

section Merge

variable {a b h : Block} {l : List Block} {x : Nat}

theorem Block.addr_le_stop : b.addr ≤ b.stop := Nat.le_add_right _ _

theorem Block.stop_merged (touches : b.stop = h.addr) : Block.stop ⟨b.addr, b.size + h.size⟩ = h.stop := by
  unfold Block.stop headerSize at *
  simp only
  omega

theorem merge_cover : cover ((merge b l).map Block.range) x = cover ((b :: l).map Block.range) x := by
  cases l with
  | nil => rfl
  | cons h l =>
      rw [merge]
      split
      · next touches =>
          have whole : Block.range ⟨b.addr, b.size + h.size⟩ = ⟨b.addr, h.stop⟩ := by
            rw [Block.range, Block.stop_merged touches]
          have first : b.range = ⟨b.addr, h.addr⟩ := by
            rw [Block.range, touches]
          simp only [List.map_cons, cover_cons, whole, first]
          rw [has_split (touches ▸ b.addr_le_stop) h.addr_le_stop, Block.range]
          omega
      · rfl

/-- Merging keeps the address of the first block and adds none. -/
theorem merge_eq_cons : ∃ size rest, merge b l = ⟨b.addr, size⟩ :: rest ∧ b.size ≤ size ∧
    (∀ c ∈ rest, c ∈ l) ∧ (rest = l ∧ size = b.size ∨ ∃ h, l = h :: rest ∧ b.stop = h.addr ∧ size = b.size + h.size) := by
  cases l with
  | nil => exact ⟨b.size, [], rfl, Nat.le_refl _, fun _ inside => inside, Or.inl ⟨rfl, rfl⟩⟩
  | cons h l =>
      rw [merge]
      split
      · next touches =>
          exact ⟨_, l, rfl, Nat.le_add_right _ _, fun _ inside => .tail _ inside, Or.inr ⟨h, rfl, touches, rfl⟩⟩
      · exact ⟨b.size, h :: l, rfl, Nat.le_refl _, fun _ inside => inside, Or.inl ⟨rfl, rfl⟩⟩

theorem merge_addr (inside : a ∈ merge b l) : a.addr = b.addr ∨ ∃ c ∈ l, a.addr = c.addr := by
  obtain ⟨size, rest, merged, _, old, _⟩ := merge_eq_cons (b := b) (l := l)
  rw [merged] at inside
  rcases List.mem_cons.mp inside with rfl | later
  · exact Or.inl rfl
  · exact Or.inr ⟨a, old a later, rfl⟩

theorem merge_filled (filled : ∀ c ∈ b :: l, 0 < c.size) : ∀ c ∈ merge b l, 0 < c.size := by
  obtain ⟨size, rest, merged, grown, old, _⟩ := merge_eq_cons (b := b) (l := l)
  intro c inside
  rw [merged] at inside
  rcases List.mem_cons.mp inside with rfl | later
  · exact Nat.lt_of_lt_of_le (filled b (.head _)) grown
  · exact filled c (.tail _ (old c later))

/-- Merging leaves a gap behind the first block. -/
theorem merge_gaps (gaps : l.Pairwise Gap) (behind : ∀ c ∈ l, b.stop ≤ c.addr) : (merge b l).Pairwise Gap := by
  cases l with
  | nil => exact List.pairwise_singleton _ _
  | cons h l =>
      obtain ⟨far, rest⟩ := List.pairwise_cons.mp gaps
      rw [merge]
      split
      · next touches =>
          refine .cons (fun c inside => ?_) rest
          rw [Gap, Block.stop_merged touches]
          exact far c inside
      · next apart =>
          have near : b.stop < h.addr := Nat.lt_of_le_of_ne (behind h (.head _)) apart
          refine .cons (fun c inside => ?_) gaps
          rcases List.mem_cons.mp inside with rfl | later
          · exact near
          · exact Nat.lt_trans near (Nat.lt_of_le_of_lt h.addr_le_stop (far c later))

end Merge

/-- The blocks of the heap without the memory that stores them. -/
structure Shape (base limit : Nat) (granted : List Range) (free live : List Block) : Prop where
  gaps : (sentinel base :: free).Pairwise Gap
  filled : ∀ b ∈ free ++ live, 0 < b.size
  tiled : ∀ x, cover ((free ++ live).map Block.range) x = cover granted x
  once : ∀ x, cover granted x ≤ 1
  inside : ∀ r ∈ granted, base + headerSize ≤ r.start ∧ r.stop ≤ limit

/-- The headers in memory hold the free list and the sizes of all blocks. -/
structure Stored (base : Nat) (m : ByteMap) (free live : List Block) : Prop where
  circle : Circle (ptrAt m) ((sentinel base :: free).map Block.addr)
  sizes : ∀ b ∈ sentinel base :: free ++ live, (sizeAt m b.addr).toNat = b.size

/-- The invariant of the heap between two calls. -/
structure Heap (base limit : Nat) (m : ByteMap) (freep : Nat) (granted : List Range) (free live : List Block) :
    Prop where
  shape : Shape base limit granted free live
  stored : Stored base m free live
  start : freep ∈ (sentinel base :: free).map Block.addr

section Shapes

variable {base limit : Nat} {granted : List Range} {free live : List Block} {a b : Block}

theorem Block.filled_range (filled : 0 < b.size) : b.range.start < b.range.stop := by
  unfold Block.range Block.stop headerSize
  simp only
  omega

theorem Shape.bounds (shape : Shape base limit granted free live) (inside : b ∈ free ++ live) :
    base + headerSize ≤ b.addr ∧ b.stop ≤ limit := by
  have filled := Block.filled_range (shape.filled b inside)
  have within (x : Nat) (has : b.range.Has x) : base + headerSize ≤ x ∧ x < limit := by
    have covered := cover_pos.mpr ⟨b.range, List.mem_map_of_mem inside, has⟩
    rw [shape.tiled] at covered
    obtain ⟨r, known, low, high⟩ := cover_pos.mp covered
    have limits := shape.inside r known
    omega
  have first := within b.addr ⟨Nat.le_refl _, filled⟩
  have last := within (b.stop - 1) ⟨by unfold Block.range at *; simp only at *; omega, by
    unfold Block.range at *; simp only at *; omega⟩
  omega

/-- The size of a block below the limit is an `uint`. -/
theorem size_lt (low : 0 < b.addr) (high : b.stop ≤ limit) (small : limit ≤ 2 ^ 36) : b.size < 2 ^ 32 := by
  unfold Block.stop at high
  simp only [headerSize] at high
  omega

theorem Shape.apart (shape : Shape base limit granted free live) :
    ((free ++ live).map Block.range).Pairwise Range.Apart := by
  apply pairwise_apart
  · intro r inside
    obtain ⟨b, known, rfl⟩ := List.mem_map.mp inside
    exact Block.filled_range (shape.filled b known)
  · intro x
    rw [shape.tiled]
    exact shape.once x

/-- A header at an address does not overlap a block. -/
def Beside (p : Nat) (b : Block) : Prop := p + headerSize ≤ b.addr ∨ b.stop ≤ p

theorem Beside.separate {p : Nat} (beside : Beside p b) (filled : 0 < b.size) : Separate p b.addr := by
  unfold Beside Block.stop at beside
  unfold Separate
  simp only [headerSize] at *
  omega

theorem Beside.outside {p x : Nat} (beside : Beside p b) (has : b.range.Has x) : x < p ∨ p + headerSize ≤ x := by
  unfold Beside at beside
  unfold Block.range Range.Has at has
  simp only at has
  omega

theorem Block.beside (filled : 0 < a.size) (apart : a.range.Apart b.range) : Beside a.addr b := by
  unfold Range.Apart Block.range Block.stop at apart
  unfold Beside Block.stop
  simp only [headerSize] at *
  omega

/-- The headers of the list do not overlap a live block. -/
theorem Shape.beside (shape : Shape base limit granted free live) (node : a ∈ sentinel base :: free) (lives : b ∈ live) :
    Beside a.addr b := by
  rcases List.mem_cons.mp node with rfl | listed
  · exact Or.inl (shape.bounds (List.mem_append_right _ lives)).1
  · have apart := shape.apart
    rw [List.map_append, List.pairwise_append] at apart
    exact Block.beside (shape.filled a (List.mem_append_left _ listed))
      (apart.2.2 _ (List.mem_map_of_mem listed) _ (List.mem_map_of_mem lives))

/-- The headers of the list do not overlap each other. -/
theorem Shape.spaced (shape : Shape base limit granted free live) :
    (sentinel base :: free).Pairwise fun a b => a.addr + headerSize ≤ b.addr := by
  refine .cons (fun b inside => ?_) ((List.pairwise_cons.mp shape.gaps).2.imp_of_mem ?_)
  · exact (shape.bounds (List.mem_append_left _ inside)).1
  · intro a b listed _ gap
    have filled := shape.filled a (List.mem_append_left _ listed)
    unfold Gap Block.stop at gap
    simp only [headerSize] at *
    omega

/-- The header of a node does not overlap the headers before it and behind it. -/
theorem Shape.node_separate {front hi : List Block} (shape : Shape base limit granted free live)
    (nodes : sentinel base :: free = front ++ a :: hi) (inside : b ∈ hi ++ front) : Separate a.addr b.addr := by
  have spaced := shape.spaced
  rw [nodes, List.pairwise_append, List.pairwise_cons] at spaced
  rcases List.mem_append.mp inside with late | early
  · exact Or.inl (spaced.2.1.1 b late)
  · exact Or.inr (spaced.2.2 b early a (.head _))

theorem Shape.addr_inj (shape : Shape base limit granted free live) (first : a ∈ sentinel base :: free)
    (second : b ∈ sentinel base :: free) (same : a.addr = b.addr) : a = b := by
  refine List.inj_on_of_nodup_map (f := Block.addr) (List.pairwise_map.mpr (shape.spaced.imp ?_)) first second same
  intro a b apart
  simp only [headerSize] at apart
  omega

theorem Shape.beside_head (shape : Shape base limit granted free (a :: live)) (lives : b ∈ live) : Beside a.addr b := by
  have apart := shape.apart
  rw [List.map_append, List.pairwise_append, List.map_cons, List.pairwise_cons] at apart
  exact Block.beside (shape.filled a (List.mem_append_right _ (.head _)))
    (apart.2.1.1 _ (List.mem_map_of_mem lives))

/-- The list has no more blocks than units fit below the limit. -/
theorem length_bound {l : List Block} {low : Nat} (gaps : l.Pairwise Gap) (filled : ∀ b ∈ l, 0 < b.size)
    (above : ∀ b ∈ l, low ≤ b.addr) (below : ∀ b ∈ l, b.stop ≤ limit) (start : low ≤ limit) :
    low + headerSize * l.length ≤ limit := by
  induction l generalizing low with
  | nil => exact start
  | cons b l ih =>
      obtain ⟨far, rest⟩ := List.pairwise_cons.mp gaps
      have here := ih rest (fun c inside => filled c (.tail _ inside)) (fun c inside => Nat.le_of_lt (far c inside))
        (fun c inside => below c (.tail _ inside)) (below b (.head _))
      have size := filled b (.head _)
      have first := above b (.head _)
      unfold Block.stop at here
      simp only [List.length_cons, headerSize] at *
      omega

theorem Shape.length_le (shape : Shape base limit granted free live) : headerSize * free.length ≤ limit := by
  have bound := length_bound (List.pairwise_cons.mp shape.gaps).2
    (fun b inside => shape.filled b (List.mem_append_left _ inside)) (fun _ _ => Nat.zero_le _)
    (fun b inside => (shape.bounds (List.mem_append_left _ inside)).2) (Nat.zero_le _)
  rwa [Nat.zero_add] at bound

theorem Shape.perm {other : List Block} (shape : Shape base limit granted free live) (same : live.Perm other) :
    Shape base limit granted free other where
  gaps := shape.gaps
  filled b inside := by
    rw [List.mem_append, ← same.mem_iff, ← List.mem_append] at inside
    exact shape.filled b inside
  tiled x := by
    rw [← shape.tiled x]
    exact cover_perm ((same.symm.append_left free).map _)
  once := shape.once
  inside := shape.inside

end Shapes

end Xv6.Umalloc
