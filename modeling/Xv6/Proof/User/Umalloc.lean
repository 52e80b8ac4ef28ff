/-
This file gives the runs of a program that uses the allocator. Between its calls the program stores into its own memory,
and the heap stays in order.
-/

import Xv6.Lib.Run
import Xv6.Proof.User.Malloc

namespace Xv6.Umalloc

open Bytes Tiling CircularList Program TransitionSystem

section Runs

variable {Env : Type}

/-- A program with the live blocks that `malloc` has returned to it. -/
structure Session (Env : Type) where
  world : World Env
  live : List Block

inductive Call (Env : Type) where
  | malloc (nbytes : Uint)
  | free (b : Block)
  | store (x : Nat) (value : Byte)
  | system (e : Env)

variable (sbrk : Env → CInt → Except Stop (Option Nat × Env)) (base : Nat) (supply : Supply Env)

/-- The request is one whose byte count is an `int`. -/
abbrev Countable (nbytes : Uint) : Prop := (unitsFor nbytes).toNat * headerSize < 2 ^ 31

/-- The program stores into its live blocks, and into memory that the allocator does not have. -/
def Owns (s : Session Env) (x : Nat) : Prop :=
  (∃ b ∈ s.live, b.payload.Has x) ∨ (x < base ∨ base + headerSize ≤ x) ∧ ∀ r ∈ s.world.granted, ¬ r.Has x

/-- The block before a pointer that `malloc` has returned. -/
def returned (w : World Env) (r : Nat) : Block := ⟨r - headerSize, (sizeAt w.mem (r - headerSize)).toNat⟩

inductive Step : Session Env → Call Env → Session Env → Prop where
  | failed {s : Session Env} {nbytes : Uint} {w : World Env} : Countable nbytes →
      (malloc sbrk base nbytes).run s.world = .ok (0, w) → Step s (.malloc nbytes) ⟨w, s.live⟩
  | served {s : Session Env} {nbytes : Uint} {r : Nat} {w : World Env} : Countable nbytes → r ≠ 0 →
      (malloc sbrk base nbytes).run s.world = .ok (r, w) → Step s (.malloc nbytes) ⟨w, returned w r :: s.live⟩
  | freed {s : Session Env} {b : Block} {w : World Env} : b ∈ s.live →
      (free (b.addr + headerSize)).run s.world = .ok ((), w) → Step s (.free b) ⟨w, s.live.erase b⟩
  | stored {s : Session Env} {x : Nat} {value : Byte} : Owns base s x →
      Step s (.store x value) ⟨{ s.world with mem := Function.update s.world.mem x value }, s.live⟩
  | system {s : Session Env} {e : Env} : supply.valid e → supply.top s.world.env ≤ supply.top e →
      Step s (.system e) ⟨{ s.world with env := e }, s.live⟩

variable {sbrk base supply} {s t : Session Env} {b : Block} {free : List Block}

theorem Running.perm {w : World Env} {live other : List Block} (heap : Running base supply w free live)
    (same : live.Perm other) : Running base supply w free other := by
  refine ⟨⟨heap.shape.perm same, ⟨heap.stored.circle, fun c inside => heap.stored.sizes c ?_⟩, heap.start⟩, heap.valid⟩
  rwa [List.mem_append, same.mem_iff, ← List.mem_append]

/-- A store into memory of the program leaves all headers alone. -/
theorem Running.store_outside {x : Nat} (heap : Running base supply s.world free s.live) (owns : Owns base s x)
    (inside : b ∈ sentinel base :: free ++ s.live) : x < b.addr ∨ b.addr + headerSize ≤ x := by
  rcases owns with ⟨c, lives, has⟩ | ⟨outside, unknown⟩
  · have whole : c.range.Has x := ⟨Nat.le_trans (Nat.le_add_right _ _) has.1, has.2⟩
    rcases List.mem_append.mp inside with listed | older
    · exact (heap.shape.beside listed lives).outside whole
    · rcases Classical.em (b = c) with rfl | other
      · exact Or.inr has.1
      · have shape := heap.shape.perm (List.perm_cons_erase older)
        exact (shape.beside_head ((List.mem_erase_of_ne (Ne.symm other)).mpr lives)).outside whole
  · rw [List.cons_append] at inside
    rcases List.mem_cons.mp inside with rfl | known
    · exact outside
    · have filled := heap.shape.filled b known
      by_contra within
      have has : b.range.Has x := by
        unfold Range.Has Block.range Block.stop
        simp only [headerSize] at *
        omega
      have covered := cover_pos.mpr ⟨b.range, List.mem_map_of_mem known, has⟩
      rw [heap.shape.tiled] at covered
      obtain ⟨r, granted, has⟩ := cover_pos.mp covered
      exact unknown r granted has

theorem Running.store {x : Nat} {value : Byte} (heap : Running base supply s.world free s.live) (owns : Owns base s x) :
    Running base supply { s.world with mem := Function.update s.world.mem x value } free s.live := by
  have same (b : Block) (inside : b ∈ sentinel base :: free ++ s.live) (i : Nat) (low : i < headerSize) :
      Function.update s.world.mem x value (b.addr + i) = s.world.mem (b.addr + i) := by
    apply Function.update_of_ne
    have outside := heap.store_outside owns inside
    omega
  refine ⟨⟨heap.shape, ⟨heap.stored.circle.congr fun p inside => ?_, fun b inside => ?_⟩, heap.start⟩, heap.valid⟩
  · obtain ⟨b, listed, rfl⟩ := List.mem_map.mp inside
    unfold ptrAt
    rw [load_congr fun i below => same b (List.mem_append_left _ listed) i (Nat.lt_trans below (by decide))]
  · rw [← heap.stored.sizes b inside]
    unfold sizeAt
    rw [load_congr fun i below => ?_]
    rw [Nat.add_assoc]
    exact same b inside (8 + i) (by simp only [headerSize]; omega)

theorem Running.returned {w : World Env} {live : List Block} (heap : Running base supply w free (b :: live)) :
    returned w (b.addr + headerSize) = b := by
  rw [Umalloc.returned, Nat.add_sub_cancel, heap.stored.sizes b (List.mem_append_right _ (.head _))]

theorem freed_running {w : World Env} (fresh : Fresh sbrk base supply) (ready : Ready base supply s.world s.live)
    (lives : b ∈ s.live) (ran : (Umalloc.free (b.addr + headerSize)).run s.world = .ok ((), w)) :
    ∃ free, Running base supply w free (s.live.erase b) := by
  obtain ⟨valid, ⟨_, _, none⟩ | ⟨free, heap⟩⟩ := ready
  · rw [none] at lives
    cases lives
  · obtain ⟨env, _, _, free', heap', _⟩ :=
      (free_spec (heap.perm (List.perm_cons_erase lives)).toHeap fresh.low (fresh.below _ valid)).ok ran
    rw [← env] at heap' valid
    exact ⟨free', heap', valid⟩

/-- One call keeps the heap in order. -/
theorem step_ready {c : Call Env} (fresh : Fresh sbrk base supply) (ready : Ready base supply s.world s.live)
    (taken : Step sbrk base supply s c t) : Ready base supply t.world t.live := by
  cases taken with
  | failed small ran =>
      obtain ⟨_, ⟨_, _, free, running⟩ | ⟨_, _, place, _, _⟩⟩ := (malloc_spec fresh ready fun _ _ => small).ok ran
      · exact ⟨running.valid, Or.inr ⟨free, running⟩⟩
      · simp only [headerSize] at place
        omega
  | served small some ran =>
      obtain ⟨_, ⟨null, _, _⟩ | ⟨free, b, rfl, _, running⟩⟩ := (malloc_spec fresh ready fun _ _ => small).ok ran
      · exact absurd null some
      · rw [running.returned]
        exact ⟨running.valid, Or.inr ⟨free, running⟩⟩
  | freed lives ran =>
      obtain ⟨free, heap⟩ := freed_running fresh ready lives ran
      exact ⟨heap.valid, Or.inr ⟨free, heap⟩⟩
  | stored owns =>
      obtain ⟨valid, untouched | ⟨free, heap⟩⟩ := ready
      · exact ⟨valid, Or.inl untouched⟩
      · exact ⟨valid, Or.inr ⟨free, heap.store owns⟩⟩
  | system valid later =>
      obtain ⟨_, untouched | ⟨free, heap⟩⟩ := ready
      · exact ⟨valid, Or.inl untouched⟩
      · exact ⟨valid, Or.inr ⟨free, heap.raise later, valid⟩⟩

/-- The call neither frees the block nor stores into it. -/
def Spares (b : Block) : Call Env → Prop
  | .free c => c ≠ b
  | .store x _ => ¬ b.payload.Has x
  | _ => True

/-- A block keeps its contents as long as the program leaves it alone. -/
theorem step_kept {c : Call Env} (fresh : Fresh sbrk base supply) (ready : Ready base supply s.world s.live)
    (taken : Step sbrk base supply s c t) (lives : b ∈ s.live) (spares : Spares b c) :
    b ∈ t.live ∧ ∀ x, b.payload.Has x → t.world.mem x = s.world.mem x := by
  have whole (x : Nat) (has : b.payload.Has x) : b.range.Has x :=
    ⟨Nat.le_trans (Nat.le_add_right _ _) has.1, has.2⟩
  cases taken with
  | failed small ran =>
      have served := (malloc_spec fresh ready fun _ _ => small).ok ran
      exact ⟨lives, fun x has => served.1 b lives x (whole x has)⟩
  | served small _ ran =>
      have served := (malloc_spec fresh ready fun _ _ => small).ok ran
      exact ⟨.tail _ lives, fun x has => served.1 b lives x (whole x has)⟩
  | freed other ran =>
      have left : b ∈ s.live.erase _ := (List.mem_erase_of_ne (Ne.symm spares)).mpr lives
      obtain ⟨valid, ⟨_, _, none⟩ | ⟨free, heap⟩⟩ := ready
      · rw [none] at lives
        exact (nomatch lives)
      · obtain ⟨_, _, kept, _⟩ :=
          (free_spec (heap.perm (List.perm_cons_erase other)).toHeap fresh.low (fresh.below _ valid)).ok ran
        exact ⟨left, fun x has => kept b left x (whole x has)⟩
  | stored _ =>
      refine ⟨lives, fun x has => Function.update_of_ne ?_ _ _⟩
      rintro rfl
      exact spares has
  | system _ _ => exact ⟨lives, fun _ _ => rfl⟩

/-- The free list is a circle through `base` in the order of the addresses. The free blocks and the live ones do not
overlap, they are the memory from `sbrk`, and no two free blocks touch. -/
structure Orderly (base : Nat) (s : Session Env) (free : List Block) : Prop where
  circle : Circle (ptrAt s.world.mem) (base :: free.map Block.addr)
  ascending : (base :: free.map Block.addr).Pairwise (· < ·)
  start : s.world.freep ∈ base :: free.map Block.addr
  sizes : ∀ b ∈ free ++ s.live, (sizeAt s.world.mem b.addr).toNat = b.size
  apart : (free ++ s.live).Pairwise fun a b => a.range.Apart b.range
  exactly : ∀ x, (∃ b ∈ free ++ s.live, b.range.Has x) ↔ ∃ r ∈ s.world.granted, r.Has x
  merged : ∀ a ∈ free, ∀ b ∈ free, a.stop ≠ b.addr

theorem Running.orderly (heap : Running base supply s.world free s.live) : Orderly base s free where
  circle := heap.stored.circle
  ascending := by
    have ordered : ((sentinel base :: free).map Block.addr).Pairwise (· < ·) :=
      List.pairwise_map.mpr (heap.shape.gaps.imp fun gap => Nat.lt_of_le_of_lt Block.addr_le_stop gap)
    exact ordered
  start := heap.start
  sizes b inside := heap.stored.sizes b (.tail _ inside)
  apart := List.pairwise_map.mp heap.shape.apart
  exactly x := by
    have covered := cover_pos (l := (free ++ s.live).map Block.range) (x := x)
    rw [heap.shape.tiled, cover_pos] at covered
    rw [covered]
    constructor
    · rintro ⟨b, inside, has⟩
      exact ⟨b.range, List.mem_map_of_mem inside, has⟩
    · rintro ⟨r, inside, has⟩
      obtain ⟨b, known, rfl⟩ := List.mem_map.mp inside
      exact ⟨b, known, has⟩
  merged a first b second := by
    have symmetric : Std.Symm fun a b : Block => a.stop ≠ b.addr ∧ b.stop ≠ a.addr := ⟨fun _ _ => And.symm⟩
    have alone (c : Block) (listed : c ∈ free) : c.addr < c.stop :=
      Block.filled_range (heap.shape.filled c (List.mem_append_left _ listed))
    have spread : free.Pairwise fun a b => a.stop ≠ b.addr ∧ b.stop ≠ a.addr := by
      refine (List.pairwise_cons.mp heap.shape.gaps).2.imp_of_mem fun {a b} _ listed gap => ?_
      have length := alone b listed
      have start := a.addr_le_stop
      unfold Gap at gap
      omega
    exact (spread.forall_of_forall (fun c listed => ⟨(alone c listed).ne', (alone c listed).ne'⟩) first second).1

theorem run_ready {trace : List (Session Env × Call Env)} (fresh : Fresh sbrk base supply)
    (ready : Ready base supply s.world s.live) (run : Run (Step sbrk base supply) s trace t) :
    Ready base supply t.world t.live := by
  have kept : (fun s : Session Env => Ready base supply s.world s.live) t :=
    run.invariant (fun _ _ => True) (fun _ _ _ _ before taken => step_ready fresh before taken) (fun _ _ => trivial) ready
  exact kept

theorem run_kept {trace : List (Session Env × Call Env)} (fresh : Fresh sbrk base supply)
    (ready : Ready base supply s.world s.live) (run : Run (Step sbrk base supply) s trace t) (lives : b ∈ s.live)
    (spares : ∀ entry ∈ trace, Spares b entry.2) :
    b ∈ t.live ∧ ∀ x, b.payload.Has x → t.world.mem x = s.world.mem x := by
  induction run with
  | refl => exact ⟨lives, fun _ _ => rfl⟩
  | tail before taken ih =>
      obtain ⟨inside, same⟩ := ih fun entry early => spares entry (List.mem_append_left _ early)
      have last := spares _ (List.mem_append_right _ (List.mem_singleton_self _))
      obtain ⟨still, bytes⟩ := step_kept fresh (run_ready fresh ready before) taken inside last
      exact ⟨still, fun x has => (bytes x has).trans (same x has)⟩

/-- In every run of calls of `malloc` and `free` the heap is in order, every call returns, `malloc` returns a null pointer
only when `sbrk` has failed and otherwise a block with room for the request, and a block keeps its contents until it is
freed. -/
theorem heap_runs {start : Session Env} {trace : List (Session Env × Call Env)} (fresh : Fresh sbrk base supply)
    (returns : ∀ e n, ∃ result, sbrk e n = .ok result) (valid : supply.valid start.world.env)
    (untouched : Untouched start.world start.live) (run : Run (Step sbrk base supply) start trace s) :
    (Untouched s.world s.live ∨ ∃ free, Orderly base s free) ∧
      (∀ nbytes, Countable nbytes → ∃ r w, (malloc sbrk base nbytes).run s.world = .ok (r, w) ∧
        (r = 0 → asked sbrk s.world (unitsFor nbytes) = .ok (none, w.env)) ∧
        (r ≠ 0 → r + nbytes.toNat ≤ (returned w r).stop)) ∧
      (∀ b ∈ s.live, ∃ w, (Umalloc.free (b.addr + headerSize)).run s.world = .ok ((), w)) ∧
      ∀ b ∈ s.live, ∀ later t, Run (Step sbrk base supply) s later t → (∀ entry ∈ later, Spares b entry.2) →
        b ∈ t.live ∧ ∀ x, b.payload.Has x → t.world.mem x = s.world.mem x := by
  have ready := run_ready fresh ⟨valid, Or.inl untouched⟩ run
  refine ⟨?_, fun nbytes small => ?_, fun b lives => ?_, fun b lives later t => fun after => run_kept fresh ready after lives⟩
  · exact ready.2.imp_right (Exists.imp fun _ heap => heap.orderly)
  · have never (stop : Stop) : asked sbrk s.world (unitsFor nbytes) ≠ .error stop := by
      obtain ⟨result, answered⟩ := returns s.world.env (byteCount (coreUnits (unitsFor nbytes)))
      rw [asked, answered]
      rintro ⟨⟩
    obtain ⟨r, w, ran, _, outcome⟩ := (malloc_spec fresh ready fun _ _ => small).total never
    refine ⟨r, w, ran, fun null => ?_, fun some => ?_⟩
    · rcases outcome with ⟨_, failed, _⟩ | ⟨_, b, rfl, _⟩
      · exact failed
      · exact absurd null (Nat.succ_ne_zero _)
    · rcases outcome with ⟨null, _⟩ | ⟨free, b, rfl, size, running⟩
      · exact absurd null some
      · rw [running.returned, Block.stop, size, unitsFor_toNat]
        simp only [headerSize]
        omega
  · obtain ⟨valid, ⟨_, _, none⟩ | ⟨free, heap⟩⟩ := ready
    · rw [none] at lives
      cases lives
    · have freed := free_spec (heap.perm (List.perm_cons_erase lives)).toHeap fresh.low (fresh.below _ valid)
      obtain ⟨_, w, ran, _⟩ := freed.total fun _ stopped => stopped
      exact ⟨w, ran⟩

/-- A kernel that moves the end of a process up to a bound. -/
def growBreak (e : Nat) (n : CInt) : Except Stop (Option Nat × Nat) :=
  .ok (if e + n.toInt.toNat ≤ 2 ^ 36 then (some e, e + n.toInt.toNat) else (none, e))

def growSupply : Supply Nat := ⟨fun e => 4112 ≤ e ∧ e ≤ 2 ^ 36, id⟩

theorem growBreak_fresh : Fresh growBreak 4096 growSupply where
  low := by decide
  above e valid := valid.1
  below e valid := valid.2
  failed e n e' valid _ outcome := by
    unfold growBreak at outcome
    split at outcome
    · cases outcome
    · cases outcome
      exact ⟨valid, Nat.le_refl _⟩
  granted e n p e' valid _ outcome := by
    unfold growBreak at outcome
    split at outcome
    · next fits =>
        cases outcome
        exact ⟨⟨Nat.le_trans valid.1 (Nat.le_add_right _ _), fits⟩, Nat.le_refl _, Nat.le_refl _⟩
    · cases outcome

/-- A program before its first call. -/
def newSession : Session Nat := ⟨⟨fun _ => 0, 0, 8192, []⟩, []⟩

/-- The heap is in order after a call of `malloc` and the `free` of its block. -/
theorem heap_after_malloc_free :
    ∃ b trace s, Run (Step growBreak 4096 growSupply) newSession trace s ∧
      trace.map Prod.snd = [.malloc 100, .free b] ∧ ∃ free, Orderly 4096 s free := by
  have returns (e : Nat) (n : CInt) : ∃ result, growBreak e n = .ok result := ⟨_, rfl⟩
  have valid : growSupply.valid newSession.world.env := ⟨by decide, by decide⟩
  have untouched : Untouched newSession.world newSession.live := ⟨rfl, rfl, rfl⟩
  have small : Countable 100 := by decide
  obtain ⟨_, malloc, _, _⟩ := heap_runs growBreak_fresh returns valid untouched .refl
  obtain ⟨r, w, ran, failed, _⟩ := malloc 100 small
  have some : r ≠ 0 := by
    intro null
    have fits : newSession.world.env + (byteCount (coreUnits (unitsFor 100))).toInt.toNat ≤ 2 ^ 36 := by decide
    have outcome := failed null
    rw [asked, growBreak, if_pos fits] at outcome
    cases outcome
  have run : Run (Step growBreak 4096 growSupply) newSession _ _ := Run.single (Step.served small some ran)
  obtain ⟨_, _, free, _⟩ := heap_runs growBreak_fresh returns valid untouched run
  obtain ⟨w', freed⟩ := free _ (.head _)
  obtain ⟨_, heap⟩ := freed_running growBreak_fresh (run_ready growBreak_fresh ⟨valid, .inl untouched⟩ run) (.head _) freed
  exact ⟨_, _, _, run.tail (Step.freed (.head _) freed), rfl, _, heap.orderly⟩

end Runs

end Xv6.Umalloc
