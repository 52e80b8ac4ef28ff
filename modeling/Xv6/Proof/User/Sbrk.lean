/-
This file gives the allocator on the kernel's own `sbrk`. A request that asks the kernel for memory gets what was granted
exactly when its byte count fits in an `int`.
-/

import Xv6.Proof.User.Umalloc
import Xv6.Proof.Vm.Grow

namespace Xv6.Umalloc

open Bytes Tiling CircularList Program TransitionSystem Grow

section Kernel

variable (layout : Layout) (base : Nat)

/-- The stub of the system call in the user library. -/
def sbrk (p : UserSpace) (n : CInt) : Except Stop (Option Nat × UserSpace) :=
  match sysSbrk layout n p with
  | .error _ => .error .panicked
  | .ok (addr, p) => .ok (addr.map BitVec.toNat, p)

/-- The process includes the program's data, and its size and the free memory are bounded by the memory of the machine. -/
def kernelSupply : Supply UserSpace := ⟨fun p => base + headerSize ≤ p.sz.toNat ∧ Bounded p, fun p => p.sz.toNat⟩

variable {layout base}

theorem sbrk_grows {p q : UserSpace} {n : CInt} {addr : Option Nat} (bounded : Bounded p) (positive : 0 < n.toInt)
    (called : sbrk layout p n = .ok (addr, q)) :
    Bounded q ∧ (addr = none ∧ q.sz.toNat = p.sz.toNat ∨
      addr = some p.sz.toNat ∧ q.sz.toNat = p.sz.toNat + n.toInt.toNat) := by
  unfold sbrk sysSbrk at called
  cases grown : growproc layout n p with
  | error stop =>
      rw [grown] at called
      cases called
  | ok result =>
      obtain ⟨done, after⟩ := result
      obtain ⟨kept, size⟩ := growproc_grows bounded positive grown
      rw [grown] at called
      cases done with
      | false =>
          cases called
          exact ⟨kept, Or.inl ⟨rfl, size⟩⟩
      | true =>
          cases called
          exact ⟨kept, Or.inr ⟨rfl, size⟩⟩

theorem sbrk_fresh (low : 0 < base) : Fresh (sbrk layout) base (kernelSupply base) where
  low := low
  above p valid := valid.1
  below p valid := by
    have bounded := valid.2
    unfold Bounded roundUp at bounded
    show p.sz.toNat ≤ 2 ^ 36
    omega
  failed p n q valid positive outcome := by
    obtain ⟨bounded, ⟨_, size⟩ | ⟨addr, _⟩⟩ := sbrk_grows valid.2 positive outcome
    · exact ⟨⟨size ▸ valid.1, bounded⟩, Nat.le_of_eq size.symm⟩
    · cases addr
  granted p n start q valid positive outcome := by
    obtain ⟨bounded, ⟨addr, _⟩ | ⟨addr, size⟩⟩ := sbrk_grows valid.2 positive outcome
    · cases addr
    · cases addr
      exact ⟨⟨size ▸ Nat.le_trans valid.1 (Nat.le_add_right _ _), bounded⟩, Nat.le_refl _, Nat.le_of_eq size.symm⟩

/-- An `sbrk` that does not return. -/
def stuck {Env : Type} (_ : Env) (_ : CInt) : Except Stop (Option Nat × Env) := .error .panicked

/-- A call of `malloc` gets to `morecore` when it would not return from a `sbrk` that does not. -/
def AsksCore {Env : Type} (base : Nat) (w : World Env) (nbytes : Uint) : Prop :=
  (malloc stuck base nbytes).run w = .error .panicked

/-- The loop of `malloc` does the same with every `sbrk` as long as it does not get to `morecore`. -/
theorem mallocLoop_stuck {Env : Type} (sbrk : Env → CInt → Except Stop (Option Nat × Env)) (n : Uint) (bound prevp p : Nat)
    (w : World Env) : (mallocLoop stuck n bound prevp p).run w = .error .panicked ∨
      (mallocLoop stuck n bound prevp p).run w = (mallocLoop sbrk n bound prevp p).run w := by
  induction bound generalizing prevp p with
  | zero => exact .inr rfl
  | succ bound ih =>
      simp only [mallocLoop, StateT.run_bind, StateT.run_get, pure_bind]
      split_ifs with fits around
      · exact .inr rfl
      · exact .inl rfl
      · exact ih p _

theorem malloc_stuck {Env : Type} {w : World Env} {nbytes : Uint} (sbrk : Env → CInt → Except Stop (Option Nat × Env))
    (listed : ¬ AsksCore base w nbytes) :
    (malloc stuck base nbytes).run w = (malloc sbrk base nbytes).run w := by
  unfold AsksCore malloc at listed
  unfold malloc
  exact (mallocLoop_stuck sbrk _ _ _ _ _).resolve_left listed

theorem Fresh.stuck {Env : Type} {call : Env → CInt → Except Stop (Option Nat × Env)} {supply : Supply Env}
    (fresh : Fresh call base supply) : Fresh Umalloc.stuck base supply :=
  ⟨fresh.low, fresh.above, fresh.below, fun _ _ _ _ _ outcome => (by cases outcome),
    fun _ _ _ _ _ _ outcome => (by cases outcome)⟩

/-- What `malloc` promises about a request. A block that it returns has the recorded size and lies in regions that the
kernel has granted, below the size of the process. A byte count for `sbrk` is exact, and a call that returns memory has
grown the process by it. -/
structure Promised (layout : Layout) (base : Nat) (s : Session UserSpace) (nbytes : Uint) : Prop where
  block : ∀ r w, (malloc (sbrk layout) base nbytes).run s.world = .ok (r, w) → r ≠ 0 →
    (returned w r).size = (unitsFor nbytes).toNat ∧
      ∀ x, (returned w r).range.Has x → ∃ g ∈ w.granted, g.Has x ∧ g.stop ≤ w.env.sz.toNat
  count : AsksCore base s.world nbytes →
    (byteCount (coreUnits (unitsFor nbytes))).toInt = (coreUnits (unitsFor nbytes)).toNat * headerSize
  grown : AsksCore base s.world nbytes → ∀ p e, asked (sbrk layout) s.world (unitsFor nbytes) = .ok (some p, e) →
    e.sz.toNat = s.world.env.sz.toNat + (coreUnits (unitsFor nbytes)).toNat * headerSize

theorem served_block {call : UserSpace → CInt → Except Stop (Option Nat × UserSpace)} {live : List Block} {n : Uint}
    {w w' : World UserSpace} {r : Nat} (served : Served call base (kernelSupply base) live n w r w') (some : r ≠ 0) :
    (returned w' r).size = n.toNat ∧
      ∀ x, (returned w' r).range.Has x → ∃ g ∈ w'.granted, g.Has x ∧ g.stop ≤ w'.env.sz.toNat := by
  obtain ⟨_, ⟨null, _⟩ | ⟨free, b, rfl, size, running⟩⟩ := served
  · exact absurd null some
  · rw [running.returned]
    refine ⟨size, fun x has => ?_⟩
    have covered := cover_pos.mpr ⟨b.range, List.mem_map_of_mem (List.mem_append_right free (.head live)), has⟩
    rw [running.shape.tiled] at covered
    obtain ⟨g, known, inside⟩ := cover_pos.mp covered
    exact ⟨g, known, inside, (running.shape.inside g known).2⟩

/-- After a run whose requests all have byte counts that fit in an `int`, `malloc` keeps its promises about a request
exactly when its byte count does so too or a free block is large enough. -/
theorem malloc_within_grant {start s : Session UserSpace} {trace : List (Session UserSpace × Call UserSpace)}
    {nbytes : Uint} (low : 0 < base) (valid : (kernelSupply base).valid start.world.env)
    (untouched : Untouched start.world start.live)
    (run : Run (Step (sbrk layout) base (kernelSupply base)) start trace s) :
    Promised layout base s nbytes ↔ (AsksCore base s.world nbytes → Countable nbytes) := by
  have fresh : Fresh (sbrk layout) base (kernelSupply base) := sbrk_fresh low
  have ready := run_ready fresh ⟨valid, Or.inl untouched⟩ run
  constructor
  · intro promised asks
    have small := small_of_byteCount (promised.count asks)
    rw [coreUnits_toNat] at small
    simp only [Countable, headerSize] at small ⊢
    omega
  · intro small
    refine ⟨fun r w ran some => ?_, fun asks => byteCount_eq (coreUnits_small (small asks)), fun asks p e outcome => ?_⟩
    · by_cases asks : AsksCore base s.world nbytes
      · exact served_block ((malloc_spec fresh ready fun _ _ => small asks).ok ran) some
      · rw [← malloc_stuck _ asks] at ran
        exact served_block ((malloc_spec fresh.stuck ready fun _ returns => by cases returns).ok ran) some
    · have count := byteCount_eq (coreUnits_small (small asks))
      have positive : 0 < (byteCount (coreUnits (unitsFor nbytes))).toInt := by
        rw [count, coreUnits_toNat]
        simp only [headerSize]
        omega
      obtain ⟨_, ⟨addr, _⟩ | ⟨_, grown⟩⟩ := sbrk_grows ready.1.2 positive outcome
      · cases addr
      · rw [grown, count]
        rfl

/-- A kernel of one page. -/
def oneLayout : Layout := ⟨0x80001⟩

/-- A process of three pages on a machine with twenty free pages. -/
def smallProcess : UserSpace :=
  ⟨0x80001, 0x3000, ⟨(List.range 20).map fun i => BitVec.ofNat 52 (0x80002 + i), fun _ _ => 0⟩⟩

def smallSession : Session UserSpace := ⟨⟨fun _ => 0, 0, smallProcess, []⟩, []⟩

/-- The first request of a process gets memory that the kernel has granted. -/
theorem malloc_within_first_grant :
    ∃ w, AsksCore 0x1000 smallSession.world 100 ∧ (malloc (sbrk oneLayout) 0x1000 100).run smallSession.world = .ok (0x12F90, w) ∧
      (returned w 0x12F90).size = 8 ∧
      ∀ x, (returned w 0x12F90).range.Has x → ∃ g ∈ w.granted, g.Has x ∧ g.stop ≤ w.env.sz.toNat := by
  have pointer : ((malloc (sbrk oneLayout) 0x1000 100).run smallSession.world).toOption.map Prod.fst = some 0x12F90 := by
    decide +kernel
  obtain ⟨w, ran⟩ : ∃ w, (malloc (sbrk oneLayout) 0x1000 100).run smallSession.world = .ok (0x12F90, w) := by
    cases called : (malloc (sbrk oneLayout) 0x1000 100).run smallSession.world with
    | error stop =>
        rw [called] at pointer
        cases pointer
    | ok result =>
        rw [called] at pointer
        exact ⟨result.2, congrArg Except.ok (Prod.ext (Option.some.inj pointer) rfl)⟩
  have valid : (kernelSupply 0x1000).valid smallSession.world.env :=
    ⟨by decide, by unfold Bounded; decide⟩
  have promised : Promised oneLayout 0x1000 smallSession 100 :=
    (malloc_within_grant (by decide) valid ⟨rfl, rfl, rfl⟩ .refl).mpr fun _ => by decide
  obtain ⟨size, inside⟩ := promised.block _ w ran (by decide)
  exact ⟨w, rfl, ran, size, inside⟩

/-- A process that has asked for sixteen bytes more than its three pages. -/
def unalignedProcess : UserSpace := ⟨1, 0x3010, ⟨[], fun _ _ => 0⟩⟩

/-- For a request of almost 4 GiB the byte count is zero. The process does not grow, and `malloc` returns a block of 2^28
units at its end. -/
theorem malloc_beyond_grant :
    ∃ w, (malloc (sbrk oneLayout) 0x1000 0xFFFFFFF0).run ⟨fun _ => 0, 0, unalignedProcess, []⟩ = .ok (0x3020, w) ∧
      byteCount (coreUnits (unitsFor 0xFFFFFFF0)) = 0 ∧ w.env.sz = 0x3010 ∧ (returned w 0x3020).size = 2 ^ 28 := by
  refine ⟨_, rfl, rfl, rfl, rfl⟩

end Kernel

end Xv6.Umalloc
