/-
This file gives what `malloc` does to the heap. It takes a block out of the list or the end of a larger one, and it asks
for more memory after one way around the list.
-/

import Xv6.Proof.User.Free

namespace Xv6.Umalloc

open Bytes Tiling CircularList Program

section Carve

variable {base limit : Nat} {m : ByteMap} {freep : Nat} {granted : List Range} {free live front low high : List Block}
  {prev cur rest last : Block}

/-- A free block has a node before it. -/
theorem Heap.located (heap : Heap base limit m freep granted free live) (before : prev ∈ sentinel base :: free)
    (inside : cur ∈ free) (link : ptrAt m prev.addr = cur.addr) :
    ∃ front low high, free = low ++ cur :: high ∧ sentinel base :: low = front ++ [prev] := by
  obtain ⟨front, behind, nodes⟩ := List.append_of_mem before
  have next := heap.stored.next nodes
  rw [link] at next
  cases behind with
  | nil =>
      have start : cur.addr = (sentinel base).addr := next
      have same := heap.shape.addr_inj (.tail _ inside) (.head _) start
      have filled := heap.shape.filled cur (List.mem_append_left _ inside)
      rw [same] at filled
      exact absurd filled (Nat.lt_irrefl 0)
  | cons c high =>
      have listed : c ∈ sentinel base :: free := by
        rw [nodes]
        exact List.mem_append_right _ (.tail _ (.head _))
      obtain rfl := heap.shape.addr_inj (.tail _ inside) listed next
      cases front with
      | nil =>
          obtain ⟨rfl, rfl⟩ := List.cons.inj nodes
          exact ⟨[], [], high, rfl, rfl⟩
      | cons first front =>
          obtain ⟨rfl, rfl⟩ := List.cons.inj nodes
          refine ⟨sentinel base :: front, front ++ [prev], high, ?_, rfl⟩
          exact (List.append_assoc front [prev] (cur :: high)).symm

/-- A whole block is taken out of the list. -/
theorem Shape.take (shape : Shape base limit granted (low ++ cur :: high) live) :
    Shape base limit granted (low ++ high) (cur :: live) := by
  have sub : (sentinel base :: (low ++ high)).Sublist (sentinel base :: (low ++ cur :: high)) :=
    ((List.sublist_cons_self cur high).append_left low).cons_cons _
  have perm : (low ++ high ++ cur :: live).Perm (low ++ cur :: high ++ live) := by
    rw [List.append_assoc, List.append_assoc]
    exact (List.perm_middle).append_left low
  refine ⟨shape.gaps.sublist sub, fun b inside => shape.filled b (perm.mem_iff.mp inside), fun x => ?_,
    shape.once, shape.inside⟩
  rw [← shape.tiled x]
  exact cover_perm (perm.map _)

/-- A block is cut in two. -/
structure Cut (cur rest last : Block) : Prop where
  start : rest.addr = cur.addr
  border : last.addr = rest.stop
  total : rest.size + last.size = cur.size
  filled : 0 < rest.size
  some : 0 < last.size

theorem Cut.stop (cut : Cut cur rest last) : last.stop = cur.stop := by
  obtain ⟨start, border, total, _, _⟩ := cut
  unfold Block.stop at *
  simp only [headerSize] at *
  omega

/-- The end of a block becomes a live block. -/
theorem Shape.split (shape : Shape base limit granted (low ++ cur :: high) live) (cut : Cut cur rest last) :
    Shape base limit granted (low ++ rest :: high) (last :: live) := by
  have shorter : rest.stop ≤ cur.stop := by
    rw [← cut.stop, ← cut.border]
    exact last.addr_le_stop
  refine ⟨?_, fun b inside => ?_, fun x => ?_, shape.once, shape.inside⟩
  · have gaps := shape.gaps
    rw [← List.cons_append, List.pairwise_append] at gaps ⊢
    obtain ⟨before, after, across⟩ := gaps
    obtain ⟨far, behind⟩ := List.pairwise_cons.mp after
    refine ⟨before, .cons (fun b inside => Nat.lt_of_le_of_lt shorter (far b inside)) behind, ?_⟩
    intro a early b inside
    rcases List.mem_cons.mp inside with rfl | late
    · rw [Gap, cut.start]
      exact across a early cur (.head _)
    · exact across a early b (.tail _ late)
  · simp only [List.mem_append, List.mem_cons] at inside
    rcases inside with (early | rfl | late) | rfl | lives
    · exact shape.filled b (List.mem_append_left _ (List.mem_append_left _ early))
    · exact cut.filled
    · exact shape.filled b (List.mem_append_left _ (List.mem_append_right _ (.tail _ late)))
    · exact cut.some
    · exact shape.filled b (List.mem_append_right _ lives)
  · have parts := has_split (x := x) rest.addr_le_stop shorter
    rw [← shape.tiled x]
    simp only [List.map_append, List.map_cons, cover_append, cover_cons, Block.range, cut.stop, cut.border, ← cut.start]
    omega

/-- The stores of `malloc` for a block that fits. -/
theorem take_heap (heap : Heap base limit m freep granted (low ++ cur :: high) live)
    (nodes : sentinel base :: low = front ++ [prev]) :
    Heap base limit (setPtr m prev.addr (ptrAt m cur.addr)) prev.addr granted (low ++ high) (cur :: live) ∧
      Kept live m (setPtr m prev.addr (ptrAt m cur.addr)) := by
  have all : sentinel base :: (low ++ cur :: high) = front ++ prev :: cur :: high := by
    rw [← List.cons_append, nodes, List.append_assoc, List.singleton_append]
  have left : sentinel base :: (low ++ high) = front ++ prev :: high := by
    rw [← List.cons_append, nodes, List.append_assoc, List.singleton_append]
  have known : prev ∈ sentinel base :: (low ++ cur :: high) := all ▸ List.mem_append_right _ (.head _)
  have changed := setPtr_elsewhere (m := m) (p := prev.addr) (ptrAt m cur.addr)
  have separate (c : Block) (inside : c ∈ cur :: high ++ front) : Separate prev.addr c.addr :=
    heap.shape.node_separate all inside
  have circle := heap.stored.circle
  rw [all, List.map_append] at circle
  refine ⟨⟨heap.shape.take, ⟨?_, fun b inside => ?_⟩, ?_⟩, fun b lives x has => ?_⟩
  · rw [left, List.map_append]
    apply Circle.rotate
    have path : CircularList.Path (ptrAt m) cur.addr ((high ++ front).map Block.addr) prev.addr := by
      rw [List.map_append]
      exact circle.rotate.2
    have kept (x : Nat) (inside : x ∈ (high ++ front).map Block.addr) :
        ptrAt (setPtr m prev.addr (ptrAt m cur.addr)) x = ptrAt m x := by
      obtain ⟨c, listed, rfl⟩ := List.mem_map.mp inside
      exact changed.ptr (separate c (.tail _ listed))
    rw [List.map_cons, List.cons_append, ← List.map_append]
    exact CircularList.Path.redirect path (ptrAt_setPtr ptrAt_lt) kept
  · have stored : (sizeAt m b.addr).toNat = b.size := by
      apply heap.stored.sizes
      simp only [List.mem_cons, List.mem_append] at inside ⊢
      tauto
    have place : b = prev ∨ Separate prev.addr b.addr := by
      rw [← List.cons_append, nodes] at inside
      simp only [List.mem_append, List.mem_cons, List.not_mem_nil, or_false] at inside
      rcases inside with ((early | same) | late) | same | lives
      · exact Or.inr (separate b (.tail _ (List.mem_append_right _ early)))
      · exact Or.inl same
      · exact Or.inr (separate b (.tail _ (List.mem_append_left _ late)))
      · exact Or.inr (same ▸ separate cur (.head _))
      · exact Or.inr ((heap.shape.beside known lives).separate (heap.shape.filled b (List.mem_append_right _ lives)))
    rw [← stored]
    rcases place with rfl | apart
    · rw [sizeAt_setPtr]
    · rw [changed.size apart]
  · rw [left, List.map_append]
    exact List.mem_append_right _ (.head _)
  · exact changed x ((heap.shape.beside known lives).outside has)

/-- The stores of `malloc` for a larger block. -/
theorem split_heap {n size : Uint} (heap : Heap base limit m freep granted (low ++ cur :: high) live)
    (nodes : sentinel base :: low = front ++ [prev]) (cut : Cut cur rest last) (shorter : size.toNat = rest.size)
    (taken : n.toNat = last.size) :
    Heap base limit (setSize (setSize m cur.addr size) last.addr n) prev.addr granted (low ++ rest :: high)
      (last :: live) ∧ Kept live m (setSize (setSize m cur.addr size) last.addr n) := by
  have shape := heap.shape.split cut
  have first := setSize_elsewhere (m := m) (p := cur.addr) size
  have second := setSize_elsewhere (m := setSize m cur.addr size) (p := last.addr) n
  have cases (c : Block) (inside : c ∈ sentinel base :: (low ++ rest :: high)) :
      c = rest ∨ c ∈ sentinel base :: (low ++ cur :: high) ∧ Separate cur.addr c.addr := by
    rcases Classical.em (c = rest) with same | other
    · exact Or.inl same
    · have beyond : c ∈ high ++ sentinel base :: low := by
        simp only [List.mem_append, List.mem_cons] at inside ⊢
        tauto
      refine Or.inr ⟨?_, heap.shape.node_separate List.cons_append.symm beyond⟩
      simp only [List.mem_append, List.mem_cons] at beyond ⊢
      tauto
  have addresses : (sentinel base :: (low ++ rest :: high)).map Block.addr =
      (sentinel base :: (low ++ cur :: high)).map Block.addr := by
    simp only [List.map_cons, List.map_append, cut.start]
  refine ⟨⟨shape, ⟨?_, fun b inside => ?_⟩, ?_⟩, fun b lives x has => ?_⟩
  · rw [addresses]
    refine heap.stored.circle.congr fun x inside => ?_
    rw [← addresses] at inside
    obtain ⟨c, listed, rfl⟩ := List.mem_map.mp inside
    rw [second.ptr (shape.freed_separate listed).symm]
    rcases cases c listed with rfl | ⟨_, apart⟩
    · rw [cut.start, ptrAt_setSize]
    · exact first.ptr apart
  · rcases List.mem_append.mp inside with listed | lives
    · rw [second.size (shape.freed_separate listed).symm]
      rcases cases b listed with rfl | ⟨known, apart⟩
      · rw [cut.start, sizeAt_setSize, shorter]
      · rw [first.size apart]
        exact heap.stored.sizes b (List.mem_append_left _ known)
    · rcases List.mem_cons.mp lives with rfl | older
      · rw [sizeAt_setSize, taken]
      · have full := shape.filled b (List.mem_append_right _ lives)
        rw [second.size ((shape.beside_head older).separate full), first.size ((heap.shape.beside ?_ older).separate full)]
        · exact heap.stored.sizes b (List.mem_append_right _ older)
        · exact .tail _ (List.mem_append_right _ (.head _))
  · rw [← List.cons_append, nodes, List.append_assoc, List.map_append]
    exact List.mem_append_right _ (.head _)
  · rw [second x ((shape.beside_head lives).outside has), first x ((heap.shape.beside ?_ lives).outside has)]
    exact .tail _ (List.mem_append_right _ (.head _))

/-- A block is served: it is live and has the size that was asked for, and the other live blocks keep their bytes. -/
def Carved {Env : Type} (base limit : Nat) (live : List Block) (n : Uint) (w : World Env) (r : Nat) (w' : World Env) :
    Prop :=
  w'.env = w.env ∧ w'.granted = w.granted ∧ Kept live w.mem w'.mem ∧
    ∃ free' b, r = b.addr + headerSize ∧ b.size = n.toNat ∧
      Heap base limit w'.mem w'.freep w'.granted free' (b :: live)

theorem carve_spec {Env : Type} {w : World Env} {n : Uint}
    (heap : Heap base limit w.mem w.freep w.granted free live) (before : prev ∈ sentinel base :: free)
    (inside : cur ∈ sentinel base :: free) (link : ptrAt w.mem prev.addr = cur.addr) (some : 0 < n.toNat)
    (fits : n.toNat ≤ cur.size) :
    Ensures (carve n prev.addr cur.addr) w (Carved base limit live n w) (fun _ => False) := by
  have listed : cur ∈ free := by
    rcases List.mem_cons.mp inside with rfl | listed
    · exact absurd (Nat.lt_of_lt_of_le some fits) (Nat.lt_irrefl 0)
    · exact listed
  have size := heap.stored.sizes cur (List.mem_append_left _ inside)
  obtain ⟨front, low, high, rfl, nodes⟩ := heap.located before listed link
  unfold carve
  rw [ensures_bind, ensures_get, ensures_ite]
  refine ⟨fun exactly => ?_, fun larger => ?_⟩
  · obtain ⟨heap', kept⟩ := take_heap heap nodes
    rw [ensures_bind, ensures_set, ensures_pure]
    exact ⟨rfl, rfl, kept, low ++ high, cur, rfl, by rw [← size, exactly], heap'⟩
  · have strict : n.toNat < cur.size := by
      refine Nat.lt_of_le_of_ne fits fun same => larger (BitVec.eq_of_toNat_eq ?_)
      rw [size, same]
    have less : (sizeAt w.mem cur.addr - n).toNat = cur.size - n.toNat := by
      rw [BitVec.toNat_sub_of_le (BitVec.le_def.mpr (by rw [size]; exact fits)), size]
    have cut : Cut cur ⟨cur.addr, cur.size - n.toNat⟩ ⟨Block.stop ⟨cur.addr, cur.size - n.toNat⟩, n.toNat⟩ :=
      ⟨rfl, rfl, Nat.sub_add_cancel fits, Nat.sub_pos_of_lt strict, some⟩
    have place : endOf (setSize w.mem cur.addr (sizeAt w.mem cur.addr - n)) cur.addr =
        Block.stop ⟨cur.addr, cur.size - n.toNat⟩ := by
      rw [endOf, sizeAt_setSize, less, Block.stop]
    obtain ⟨heap', kept⟩ := split_heap heap nodes cut less rfl
    simp only [place, ensures_bind, ensures_set, ensures_pure]
    exact ⟨rfl, rfl, kept, _, _, rfl, rfl, heap'⟩

end Carve

section Core

/-- The states in which the kernel has memory for the program, and the end of the memory that the program has. -/
structure Supply (Env : Type) where
  valid : Env → Prop
  top : Env → Nat

variable {Env : Type} (sbrk : Env → CInt → Except Stop (Option Nat × Env)) (base : Nat) (supply : Supply Env)

/-- The regions from `sbrk` are fresh: each of them starts above the program's data and all regions before it. All of
them together are less than the sizes of the allocator can count. -/
structure Fresh : Prop where
  low : 0 < base
  above : ∀ e, supply.valid e → base + headerSize ≤ supply.top e
  below : ∀ e, supply.valid e → supply.top e ≤ 2 ^ 36
  failed : ∀ e n e', supply.valid e → 0 < n.toInt → sbrk e n = .ok (none, e') →
    supply.valid e' ∧ supply.top e ≤ supply.top e'
  granted : ∀ e n p e', supply.valid e → 0 < n.toInt → sbrk e n = .ok (some p, e') →
    supply.valid e' ∧ supply.top e ≤ p ∧ p + n.toInt.toNat ≤ supply.top e'

variable {sbrk base supply} {granted : List Range} {free live : List Block} {m : ByteMap} {freep limit limit' : Nat}

theorem Shape.raise (shape : Shape base limit granted free live) (more : limit ≤ limit') :
    Shape base limit' granted free live :=
  ⟨shape.gaps, shape.filled, shape.tiled, shape.once, fun r known =>
    ⟨(shape.inside r known).1, Nat.le_trans (shape.inside r known).2 more⟩⟩

theorem Heap.raise (heap : Heap base limit m freep granted free live) (more : limit ≤ limit') :
    Heap base limit' m freep granted free live :=
  ⟨heap.shape.raise more, heap.stored, heap.start⟩

/-- A new region is a live block until it is freed. -/
theorem Shape.grant {b : Block} (shape : Shape base limit granted free live) (filled : 0 < b.size)
    (start : base + headerSize ≤ limit) (fresh : limit ≤ b.addr) (more : b.stop ≤ limit') :
    Shape base limit' (b.range :: granted) free (b :: live) := by
  have bound := b.addr_le_stop
  refine ⟨shape.gaps, fun c inside => ?_, fun x => ?_, fun x => ?_, fun r known => ?_⟩
  · simp only [List.mem_append, List.mem_cons] at inside
    rcases inside with listed | rfl | lives
    · exact shape.filled c (List.mem_append_left _ listed)
    · exact filled
    · exact shape.filled c (List.mem_append_right _ lives)
  · have old := shape.tiled x
    simp only [List.map_append, List.map_cons, cover_append, cover_cons] at old ⊢
    omega
  · rw [cover_cons]
    have once := shape.once x
    split_ifs with has
    · have none : cover granted x = 0 := by
        refine Nat.eq_zero_of_not_pos fun covered => ?_
        obtain ⟨r, known, _, high⟩ := cover_pos.mp covered
        have limits := (shape.inside r known).2
        have low : b.addr ≤ x := has.1
        omega
      omega
    · omega
  · rcases List.mem_cons.mp known with rfl | older
    · exact ⟨Nat.le_trans start fresh, more⟩
    · exact ⟨(shape.inside r older).1, by have limits := (shape.inside r older).2; omega⟩

/-- The header of a new region. -/
theorem grant_heap {b : Block} {size : Uint} (heap : Heap base limit m freep granted free live) (filled : 0 < b.size)
    (start : base + headerSize ≤ limit) (fresh : limit ≤ b.addr) (more : b.stop ≤ limit') (counted : size.toNat = b.size) :
    Heap base limit' (setSize m b.addr size) freep (b.range :: granted) free (b :: live) ∧
      Kept live m (setSize m b.addr size) := by
  have shape := heap.shape.grant filled start fresh more
  have changed := setSize_elsewhere (m := m) (p := b.addr) size
  refine ⟨⟨shape, ⟨?_, fun c inside => ?_⟩, heap.start⟩, fun c lives x has => ?_⟩
  · refine heap.stored.circle.congr fun x inside => ?_
    obtain ⟨c, listed, rfl⟩ := List.mem_map.mp inside
    exact changed.ptr (shape.freed_separate listed).symm
  · rcases List.mem_append.mp inside with listed | lives
    · rw [changed.size (shape.freed_separate listed).symm]
      exact heap.stored.sizes c (List.mem_append_left _ listed)
    · rcases List.mem_cons.mp lives with rfl | older
      · rw [sizeAt_setSize, counted]
      · rw [changed.size ((shape.beside_head older).separate (shape.filled c (List.mem_append_right _ lives)))]
        exact heap.stored.sizes c (List.mem_append_right _ older)
  · exact changed x ((shape.beside_head lives).outside has)

/-- The byte count for a small number of units is exact. -/
theorem byteCount_eq {n : Uint} (small : n.toNat * headerSize < 2 ^ 31) : (byteCount n).toInt = n.toNat * headerSize := by
  have product : (byteCount n).toNat = n.toNat * headerSize := by
    unfold byteCount
    simp only [headerSize] at *
    rw [BitVec.toNat_setWidth, BitVec.toNat_mul, BitVec.toNat_setWidth]
    simp only [BitVec.toNat_ofNat]
    omega
  rw [BitVec.toInt_eq_toNat_of_lt (by rw [product]; simp only [headerSize] at *; omega), product]
  norm_cast

/-- The byte count is exact only for a small number of units. -/
theorem small_of_byteCount {n : Uint} (same : (byteCount n).toInt = n.toNat * headerSize) :
    n.toNat * headerSize < 2 ^ 31 := by
  have bound : (byteCount n).toInt < 2 ^ 31 := BitVec.toInt_lt
  omega

theorem coreUnits_toNat (n : Uint) : (coreUnits n).toNat = max 4096 n.toNat := by
  unfold coreUnits
  split
  · next less =>
      have bound : n.toNat < 4096 := less
      rw [max_eq_left (Nat.le_of_lt bound)]
      rfl
  · next more =>
      have bound : ¬ n.toNat < 4096 := more
      rw [max_eq_right (Nat.le_of_not_lt bound)]

theorem coreUnits_small {n : Uint} (small : n.toNat * headerSize < 2 ^ 31) :
    (coreUnits n).toNat * headerSize < 2 ^ 31 := by
  rw [coreUnits_toNat]
  simp only [headerSize] at *
  omega

/-- The program with its heap in order. -/
structure Running (base : Nat) (supply : Supply Env) (w : World Env) (free live : List Block) : Prop extends
    Heap base (supply.top w.env) w.mem w.freep w.granted free live where
  valid : supply.valid w.env

/-- The call of `sbrk` for a number of units. -/
abbrev asked (sbrk : Env → CInt → Except Stop (Option Nat × Env)) (w : World Env) (n : Uint) :
    Except Stop (Option Nat × Env) :=
  sbrk w.env (byteCount (coreUnits n))

/-- `morecore` fails with `sbrk`, or a large enough block is free. The byte count matters only if `sbrk` returns. -/
theorem morecore_spec {w : World Env} {n : Uint} (fresh : Fresh sbrk base supply) (heap : Running base supply w free live)
    (small : ∀ result, asked sbrk w n = .ok result → n.toNat * headerSize < 2 ^ 31) :
    Ensures (morecore sbrk n) w
      (fun r w' => Kept live w.mem w'.mem ∧
        (r = 0 ∧ asked sbrk w n = .ok (none, w'.env) ∧ Running base supply w' free live ∨
          r = w'.freep ∧ (∃ p, asked sbrk w n = .ok (some p, w'.env)) ∧
            ∃ free', Running base supply w' free' live ∧ ∃ b ∈ free', n.toNat ≤ b.size))
      (fun stop => asked sbrk w n = .error stop) := by
  have units := coreUnits_toNat n
  unfold morecore callSbrk
  simp only [ensures_bind, ensures_get]
  cases outcome : sbrk w.env (byteCount (coreUnits n)) with
  | error stop => exact outcome
  | ok result =>
      have count := byteCount_eq (coreUnits_small (small result outcome))
      have positive : 0 < (byteCount (coreUnits n)).toInt := by
        rw [count]
        simp only [headerSize]
        omega
      obtain ⟨r, e⟩ := result
      cases r with
      | none =>
          simp only [ensures_bind, ensures_set, ensures_pure]
          refine ⟨fun _ _ _ _ => rfl, Or.inl ⟨trivial, outcome, ?_⟩⟩
          obtain ⟨valid, more⟩ := fresh.failed _ _ _ heap.valid positive outcome
          exact ⟨heap.raise more, valid⟩
      | some p =>
          obtain ⟨valid, start, stop⟩ := fresh.granted _ _ _ _ heap.valid positive outcome
          have bytes : (byteCount (coreUnits n)).toInt.toNat = headerSize * (coreUnits n).toNat := by
            rw [count, Nat.mul_comm]
            rfl
          have range : Block.range ⟨p, (coreUnits n).toNat⟩ = ⟨p, p + (byteCount (coreUnits n)).toInt.toNat⟩ := by
            rw [bytes]
            rfl
          have more : Block.stop ⟨p, (coreUnits n).toNat⟩ ≤ supply.top e := by
            rw [bytes] at stop
            exact stop
          obtain ⟨heap', kept⟩ := grant_heap heap.toHeap (by simp only; omega) (fresh.above _ heap.valid)
            start more rfl
          rw [range] at heap'
          have freed := free_spec (w := ⟨setSize w.mem p (coreUnits n), w.freep, e, _⟩) heap' fresh.low
            (fresh.below e valid)
          simp only [ensures_bind, ensures_set, ensures_pure, ensures_modify, ensures_get]
          refine freed.mono ?_ fun _ stopped => stopped.elim
          rintro _ w' ⟨env, granted, later, free', running, b, listed, large⟩
          refine ⟨kept.trans later, Or.inr ⟨trivial, ⟨p, ?_⟩, free', ?_, b, listed, ?_⟩⟩
          · rw [env]
            exact outcome
          · have same : w'.env = e := env
            rw [← same] at running valid
            exact ⟨running, valid⟩
          · simp only at large
            omega

theorem Running.freep_ne_zero {w : World Env} (fresh : Fresh sbrk base supply) (heap : Running base supply w free live) :
    w.freep ≠ 0 := by
  obtain ⟨b, inside, same⟩ := List.mem_map.mp heap.start
  have bound := base_le heap.shape.gaps inside
  have low := fresh.low
  omega

/-- The nodes of the list from the one of `freep` on. -/
theorem Running.around {w : World Env} (heap : Running base supply w free live) :
    ∃ last ahead, last.addr = w.freep ∧ Circle (ptrAt w.mem) ((last :: ahead).map Block.addr) ∧
      (∀ b, b ∈ last :: ahead ↔ b ∈ sentinel base :: free) ∧ (∀ b ∈ ahead, b.addr ≠ w.freep) ∧
      ahead.length = free.length := by
  obtain ⟨last, inside, same⟩ := List.mem_map.mp heap.start
  obtain ⟨front, hi, nodes⟩ := List.append_of_mem inside
  have circle := heap.stored.circle
  rw [nodes, List.map_append] at circle
  refine ⟨last, hi ++ front, same, ?_, fun b => ?_, fun b other equal => ?_, ?_⟩
  · rw [← List.cons_append, List.map_append]
    exact circle.rotate
  · rw [nodes]
    simp only [List.mem_cons, List.mem_append]
    tauto
  · have apart := heap.shape.node_separate nodes other
    unfold Separate at apart
    simp only [headerSize] at apart
    omega
  · have total := congrArg List.length nodes
    simp only [List.length_cons, List.length_append] at total ⊢
    omega

/-- What the loop does at the node where it has started, when no node is large enough. -/
def askAgain (sbrk : Env → CInt → Except Stop (Option Nat × Env)) (n : Uint) (bound : Nat) : M Env Nat := do
  let core ← morecore sbrk n
  if core = 0 then return 0 else mallocLoop sbrk n bound core (ptrAt (← get).mem core)

/-- The loop goes along the list up to the node where it has started. -/
theorem mallocLoop_around {w : World Env} {n : Uint} {bound : Nat} {prev last : Block} {ahead : List Block}
    {post : Nat → World Env → Prop} {stop : Stop → Prop} (heap : Running base supply w free live) (some : 0 < n.toNat)
    (start : last.addr = w.freep) (path : CircularList.Path (ptrAt w.mem) prev.addr (ahead.map Block.addr) last.addr)
    (known : ∀ b ∈ prev :: ahead ++ [last], b ∈ sentinel base :: free) (other : ∀ b ∈ ahead, b.addr ≠ w.freep)
    (served : ∀ r w', Carved base (supply.top w.env) live n w r w' → post r w')
    (exhausted : (∀ b ∈ ahead ++ [last], b.size < n.toNat) → Ensures (askAgain sbrk n bound) w post stop) :
    Ensures (mallocLoop sbrk n (ahead.length + 1 + bound) prev.addr (ptrAt w.mem prev.addr)) w post stop := by
  have size (b : Block) (inside : b ∈ prev :: ahead ++ [last]) : (sizeAt w.mem b.addr).toNat = b.size :=
    heap.stored.sizes b (List.mem_append_left _ (known b inside))
  induction ahead generalizing prev with
  | nil =>
      have link : ptrAt w.mem prev.addr = last.addr := path
      have here : last ∈ prev :: [] ++ [last] := .tail _ (.head _)
      rw [List.length_nil, Nat.zero_add, Nat.add_comm, mallocLoop, ensures_bind, ensures_get, link, ensures_ite]
      refine ⟨fun fits => ?_, fun less => ?_⟩
      · have enough : n.toNat ≤ last.size := size last here ▸ BitVec.le_def.mp fits
        exact (carve_spec heap.toHeap (known prev (.head _)) (known last here) link some enough).mono served
          fun _ stopped => stopped.elim
      · rw [if_pos start]
        apply exhausted
        intro b inside
        rw [List.mem_singleton.mp inside, ← size last here]
        exact Nat.lt_of_not_le less
  | cons c ahead ih =>
      have link : ptrAt w.mem prev.addr = c.addr := path.1
      have here : c ∈ prev :: (c :: ahead) ++ [last] := .tail _ (.head _)
      rw [List.length_cons, Nat.add_right_comm, Nat.add_right_comm _ 1 bound, mallocLoop, ensures_bind, ensures_get, link,
        ensures_ite]
      refine ⟨fun fits => ?_, fun less => ?_⟩
      · have enough : n.toNat ≤ c.size := size c here ▸ BitVec.le_def.mp fits
        exact (carve_spec heap.toHeap (known prev (.head _)) (known c here) link some enough).mono served
          fun _ stopped => stopped.elim
      · rw [if_neg (other c (.head _)), Nat.add_right_comm]
        refine ih path.2 (fun b inside => known b (.tail _ inside)) (fun b inside => other b (.tail _ inside))
          (fun none => exhausted fun b inside => ?_) fun b inside => size b (.tail _ inside)
        rcases List.mem_cons.mp inside with rfl | later
        · rw [← size b here]
          exact Nat.lt_of_not_le less
        · exact none b later

theorem Running.length_le {w : World Env} (fresh : Fresh sbrk base supply) (heap : Running base supply w free live) :
    free.length ≤ 2 ^ 32 := by
  have count := heap.shape.length_le
  have bound := fresh.below w.env heap.valid
  simp only [headerSize] at count
  omega

/-- The loop finds a block when there is one. -/
theorem mallocLoop_found {w : World Env} {n : Uint} {bound : Nat} (fresh : Fresh sbrk base supply)
    (heap : Running base supply w free live) (some : 0 < n.toNat) (enough : 2 ^ 33 ≤ bound)
    (fits : ∃ b ∈ free, n.toNat ≤ b.size) :
    Ensures (mallocLoop sbrk n bound w.freep (ptrAt w.mem w.freep)) w (Carved base (supply.top w.env) live n w)
      (fun _ => False) := by
  obtain ⟨last, ahead, start, circle, nodes, other, length⟩ := heap.around
  have count := heap.length_le fresh
  obtain ⟨spare, rfl⟩ := Nat.exists_eq_add_of_le (show ahead.length + 1 ≤ bound by omega)
  rw [← start]
  refine mallocLoop_around heap some start circle (fun b inside => ?_) other (fun _ _ carved => carved) fun none => ?_
  · apply (nodes b).mp
    simp only [List.cons_append, List.mem_cons, List.mem_append, List.not_mem_nil, or_false] at inside ⊢
    tauto
  · obtain ⟨b, listed, large⟩ := fits
    have inside := (nodes b).mpr (.tail _ listed)
    refine absurd (none b ?_) (Nat.not_lt_of_le large)
    simp only [List.mem_cons, List.mem_append, List.not_mem_nil, or_false] at inside ⊢
    exact inside.symm

/-- `malloc` fails with `sbrk`, or it returns a new live block. -/
def Served (sbrk : Env → CInt → Except Stop (Option Nat × Env)) (base : Nat) (supply : Supply Env) (live : List Block)
    (n : Uint) (w : World Env) (r : Nat) (w' : World Env) : Prop :=
  Kept live w.mem w'.mem ∧
    (r = 0 ∧ asked sbrk w n = .ok (none, w'.env) ∧ (∃ free', Running base supply w' free' live) ∨
      ∃ free' b, r = b.addr + headerSize ∧ b.size = n.toNat ∧ Running base supply w' free' (b :: live))

theorem Carved.running {w w' : World Env} {n : Uint} {r : Nat} (valid : supply.valid w.env)
    (carved : Carved base (supply.top w.env) live n w r w') :
    Kept live w.mem w'.mem ∧
      ∃ free' b, r = b.addr + headerSize ∧ b.size = n.toNat ∧ Running base supply w' free' (b :: live) := by
  obtain ⟨env, _, kept, free', b, place, size, heap⟩ := carved
  refine ⟨kept, free', b, place, size, ?_⟩
  rw [← env] at heap valid
  exact ⟨heap, valid⟩

theorem mallocLoop_spec {w : World Env} {n : Uint} (fresh : Fresh sbrk base supply) (heap : Running base supply w free live)
    (some : 0 < n.toNat) (small : ∀ result, asked sbrk w n = .ok result → n.toNat * headerSize < 2 ^ 31) :
    Ensures (mallocLoop sbrk n listBound w.freep (ptrAt w.mem w.freep)) w (Served sbrk base supply live n w)
      (fun stop => asked sbrk w n = .error stop) := by
  obtain ⟨last, ahead, start, circle, nodes, other, length⟩ := heap.around
  have count := heap.length_le fresh
  obtain ⟨spare, enough⟩ := Nat.exists_eq_add_of_le (show ahead.length + 1 ≤ listBound by unfold listBound; omega)
  rw [← start, enough]
  refine mallocLoop_around heap some start circle (fun b inside => ?_) other
    (fun _ _ carved => (carved.running heap.valid).imp_right Or.inr) fun none => ?_
  · apply (nodes b).mp
    simp only [List.cons_append, List.mem_cons, List.mem_append, List.not_mem_nil, or_false] at inside ⊢
    tauto
  · unfold askAgain
    refine (morecore_spec fresh heap small).bind fun core w' grown => ?_
    obtain ⟨kept, ⟨rfl, failed, running⟩ | ⟨rfl, _, free', running, fits⟩⟩ := grown
    · rw [if_pos rfl]
      exact ⟨kept, Or.inl ⟨rfl, failed, free, running⟩⟩
    · rw [if_neg (running.freep_ne_zero fresh), ensures_bind, ensures_get]
      have found := mallocLoop_found fresh running some (show 2 ^ 33 ≤ spare by unfold listBound at enough; omega) fits
      refine found.mono (fun r w'' carved => ?_) fun _ stopped => stopped.elim
      obtain ⟨later, served⟩ := carved.running running.valid
      exact ⟨kept.trans later, Or.inr served⟩

/-- The number of units is the rounded number of bytes and a header. -/
theorem unitsFor_toNat (nbytes : Uint) : (unitsFor nbytes).toNat = (nbytes.toNat + 15) / 16 + 1 := by
  have bound := nbytes.isLt
  unfold unitsFor
  rw [BitVec.toNat_setWidth, BitVec.toNat_add, BitVec.toNat_udiv, BitVec.toNat_sub, BitVec.toNat_add,
    BitVec.toNat_setWidth]
  simp only [BitVec.toNat_ofNat, Nat.reducePow, Nat.reduceMod]
  omega

/-- Before the first call of `malloc` there is no list. -/
def Untouched (w : World Env) (live : List Block) : Prop := w.freep = 0 ∧ w.granted = [] ∧ live = []

/-- The program has no heap yet, or its heap is in order. -/
def Ready (base : Nat) (supply : Supply Env) (w : World Env) (live : List Block) : Prop :=
  supply.valid w.env ∧ (Untouched w live ∨ ∃ free, Running base supply w free live)

theorem empty_heap (low : base < 2 ^ 64) :
    Heap base limit (setSize (setPtr m base base) base 0) base [] [] [] := by
  refine ⟨⟨List.pairwise_singleton _ _, fun _ inside => (nomatch inside), fun _ => rfl, fun _ => Nat.zero_le _,
    fun _ inside => (nomatch inside)⟩, ⟨?_, fun b inside => ?_⟩, .head _⟩
  · exact (ptrAt_setSize _).trans (ptrAt_setPtr low)
  · rw [List.append_nil] at inside
    rw [List.mem_singleton.mp inside]
    exact congrArg BitVec.toNat (sizeAt_setSize (0 : Uint))

/-- `malloc` returns, and a null pointer only when `sbrk` has failed. -/
theorem malloc_spec {w : World Env} {nbytes : Uint} (fresh : Fresh sbrk base supply) (ready : Ready base supply w live)
    (small : ∀ result, asked sbrk w (unitsFor nbytes) = .ok result → (unitsFor nbytes).toNat * headerSize < 2 ^ 31) :
    Ensures (malloc sbrk base nbytes) w (Served sbrk base supply live (unitsFor nbytes) w)
      (fun stop => asked sbrk w (unitsFor nbytes) = .error stop) := by
  have some : 0 < (unitsFor nbytes).toNat := by
    rw [unitsFor_toNat]
    exact Nat.succ_pos _
  unfold malloc
  rw [ensures_bind, ensures_modify, ensures_bind, ensures_get]
  obtain ⟨valid, ⟨null, none, rfl⟩ | ⟨free, heap⟩⟩ := ready
  · rw [if_pos null]
    have low : base < 2 ^ 64 := by
      have above := fresh.above w.env valid
      have below := fresh.below w.env valid
      omega
    have heap : Heap base (supply.top w.env) (setSize (setPtr w.mem base base) base 0) base [] [] [] := empty_heap low
    rw [← none] at heap
    have called := mallocLoop_spec (w := ⟨_, base, w.env, w.granted⟩) fresh ⟨heap, valid⟩ some small
    refine called.mono (fun r w' served => ⟨fun _ inside => (nomatch inside), served.2⟩) fun _ stopped => stopped
  · rw [if_neg (heap.freep_ne_zero fresh)]
    exact mallocLoop_spec fresh heap some small

end Core

end Xv6.Umalloc
