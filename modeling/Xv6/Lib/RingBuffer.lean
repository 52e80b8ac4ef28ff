/-
This file gives a ring buffer with free-running counters, over an arbitrary element type. The counters wrap
at a power of two that the size divides, and the two indices are the counters modulo the size.
-/

import Mathlib

/-- The elements between the two counters are in the buffer. -/
structure RingBuffer (α : Type*) (size width : Nat) where
  cell : Fin size → α
  head : BitVec width
  tail : BitVec width

namespace RingBuffer

variable {α : Type*} {size width : Nat} (buf : RingBuffer α size width)

def count : Nat := (buf.tail - buf.head).toNat

def pop : RingBuffer α size width := { buf with head := buf.head + 1 }

/-- The last push is taken back. -/
def unpush : RingBuffer α size width := { buf with tail := buf.tail - 1 }

/-- The counters differ by the number of elements. -/
theorem tail_eq : buf.tail = buf.head + BitVec.ofNat width buf.count := by
  unfold count
  rw [BitVec.ofNat_toNat, BitVec.setWidth_eq]
  ring

theorem toNat_add_one (counter : BitVec width) :
    (counter + 1).toNat = (counter.toNat + 1) % 2 ^ width := by
  have one : (1 : BitVec width).toNat = 1 % 2 ^ width := rfl
  rw [BitVec.toNat_add, one, Nat.add_mod_mod]

theorem toNat_succ {counter : BitVec width} (room : counter.toNat + 1 < 2 ^ width) :
    (counter + 1).toNat = counter.toNat + 1 := by
  rw [toNat_add_one, Nat.mod_eq_of_lt room]

/-- A successor that is not zero has not wrapped. -/
theorem toNat_pred {counter : BitVec width} (positive : (counter + 1).toNat ≠ 0) :
    counter.toNat + 1 = (counter + 1).toNat := by
  have bound : counter.toNat < 2 ^ width := BitVec.isLt _
  rcases Nat.lt_or_ge (counter.toNat + 1) (2 ^ width) with room | last
  · rw [toNat_succ room]
  · have whole : counter.toNat + 1 = 2 ^ width := by omega
    rw [toNat_add_one, whole, Nat.mod_self] at positive
    exact absurd rfl positive

theorem count_pop (full : buf.count ≠ 0) : buf.pop.count + 1 = buf.count := by
  have moved : buf.tail - buf.head = buf.tail - (buf.head + 1) + 1 := by ring
  unfold count pop at *
  rw [moved] at full ⊢
  exact toNat_pred full

theorem count_unpush (full : buf.count ≠ 0) : buf.unpush.count + 1 = buf.count := by
  have moved : buf.tail - buf.head = buf.tail - 1 - buf.head + 1 := by ring
  unfold count unpush at *
  rw [moved] at full ⊢
  exact toNat_pred full

variable [NeZero size]

/-- The cell that a counter selects. -/
def slot (counter : BitVec width) : Fin size := Fin.ofNat size counter.toNat

/-- The elements in the order in which they were pushed. -/
def contents : List α :=
  (List.range buf.count).map fun k => buf.cell (slot (buf.head + BitVec.ofNat width k))

def push (value : α) : RingBuffer α size width :=
  { buf with cell := Function.update buf.cell (slot buf.tail) value, tail := buf.tail + 1 }

@[simp] theorem contents_length : buf.contents.length = buf.count := by
  simp [contents]

theorem slot_add (divides : size ∣ 2 ^ width) (counter : BitVec width) (k : Nat) :
    (slot (counter + BitVec.ofNat width k) : Fin size).val = (counter.toNat + k) % size := by
  have wrap (n : Nat) : n % 2 ^ width % size = n % size := Nat.mod_mod_of_dvd n divides
  simp only [slot, Fin.ofNat, BitVec.toNat_add, BitVec.toNat_ofNat]
  rw [wrap, Nat.add_mod, wrap, ← Nat.add_mod]

theorem count_push (value : α) (room : buf.count + 1 < 2 ^ width) :
    (buf.push value).count = buf.count + 1 := by
  have moved : buf.tail + 1 - buf.head = buf.tail - buf.head + 1 := by ring
  unfold count push
  rw [moved]
  exact toNat_succ room

/-- Elements that are fewer than the size lie in different cells. -/
theorem slot_ne (divides : size ∣ 2 ^ width) (counter : BitVec width) {j k : Nat} (order : j < k)
    (near : k < j + size) :
    (slot (counter + BitVec.ofNat width j) : Fin size) ≠ slot (counter + BitVec.ofNat width k) := by
  intro same
  have values := congrArg Fin.val same
  rw [slot_add divides, slot_add divides] at values
  have apart : (counter.toNat + k - (counter.toNat + j)) % size = 0 :=
    Nat.sub_mod_eq_zero_of_mod_eq values.symm
  have difference : counter.toNat + k - (counter.toNat + j) = k - j := by omega
  rw [difference, Nat.mod_eq_of_lt (by omega)] at apart
  omega

/-- The next free cell has no element when there is room. -/
theorem slot_free (divides : size ∣ 2 ^ width) (room : buf.count < size) {k : Nat} (below : k < buf.count) :
    (slot (buf.head + BitVec.ofNat width k) : Fin size) ≠ slot buf.tail := by
  rw [buf.tail_eq]
  exact slot_ne divides buf.head below (by omega)

/-- The first half of a push writes the next free cell. -/
def write (value : α) : RingBuffer α size width :=
  { buf with cell := Function.update buf.cell (slot buf.tail) value }

theorem contents_write (value : α) (divides : size ∣ 2 ^ width) (room : buf.count < size) :
    (buf.write value).contents = buf.contents := by
  apply List.map_congr_left
  intro k inside
  exact Function.update_of_ne (buf.slot_free divides room (List.mem_range.mp inside)) _ _

/-- A push appends its element when there is room. -/
theorem contents_push (value : α) (divides : size ∣ 2 ^ width) (room : buf.count < size)
    (small : size < 2 ^ width) : (buf.push value).contents = buf.contents ++ [value] := by
  have total := buf.count_push value (by omega)
  rw [← buf.contents_write value divides room]
  unfold contents
  rw [total, List.range_succ, List.map_append]
  congr 1
  simp only [List.map_cons, List.map_nil, push, ← buf.tail_eq, Function.update_self]

/-- A pop takes the first element. -/
theorem contents_pop (full : buf.count ≠ 0) :
    buf.contents = buf.cell (slot buf.head) :: buf.pop.contents := by
  unfold contents
  rw [← buf.count_pop full, List.range_succ_eq_map, List.map_cons, List.map_map]
  congr 1
  · simp
  · refine List.map_congr_left fun k _ => ?_
    have moved : buf.head + BitVec.ofNat width (k + 1) = buf.head + 1 + BitVec.ofNat width k := by
      rw [BitVec.ofNat_add]
      exact (add_assoc _ _ _).symm.trans (add_right_comm _ _ _)
    simp only [Function.comp, Nat.succ_eq_add_one, moved, pop]

/-- The element that was pushed last is the last one. -/
theorem contents_unpush (full : buf.count ≠ 0) :
    buf.contents = buf.unpush.contents ++ [buf.cell (slot (buf.tail - 1))] := by
  have place : buf.tail - 1 = buf.head + BitVec.ofNat width buf.unpush.count := buf.unpush.tail_eq
  unfold contents
  rw [← buf.count_unpush full, List.range_succ, List.map_append, place]
  rfl

end RingBuffer
