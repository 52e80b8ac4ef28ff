/-
This file shows that the spinlocks count: the depth of `push_off` on a CPU is the number of locks that it holds, and a
CPU that releases a lock of its own does not panic.
-/

import Xv6.Kernel.Spinlock

namespace Xv6.Spinlocks

variable {n : Nat} {Lock : Type} {s t : Spinlocks n Lock} {c d : Fin n} {held : List Lock} {lk : Lock}

/-- A CPU holds exactly these locks. With a lock its interrupts are off. -/
structure Owns (s : Spinlocks n Lock) (c : Fin n) (held : List Lock) : Prop where
  holder : ∀ lk, s.holder lk = some c ↔ lk ∈ held
  nodup : held.Nodup
  noff : (s.off c).noff = held.length
  off : held ≠ [] → (s.off c).sie = false

/-- An operation of one CPU keeps the locks of another. -/
theorem Owns.frame (owns : Owns s d held) (off : t.off d = s.off d)
    (holder : ∀ lk, t.holder lk = s.holder lk ∨ t.holder lk ≠ some d ∧ s.holder lk ≠ some d) : Owns t d held := by
  refine ⟨fun lk => ?_, owns.nodup, ?_, ?_⟩
  · rcases holder lk with same | ⟨after, before⟩
    · rw [same]
      exact owns.holder lk
    · exact ⟨fun mine => absurd mine after, fun inside => absurd ((owns.holder lk).mpr inside) before⟩
  · rw [off]
    exact owns.noff
  · rw [off]
    exact owns.off

/-- A change of the interrupt bit, or of the saved bit, of a CPU. -/
theorem Owns.setOff (owns : Owns s c held) {off : CpuOff} (noff : off.noff = (s.off c).noff)
    (sie : held ≠ [] → off.sie = false) : Owns (s.setOff c off) c held := by
  refine ⟨owns.holder, owns.nodup, ?_, fun locked => ?_⟩
  · simp only [Spinlocks.setOff, Function.update_self, noff]
    exact owns.noff
  · simp only [Spinlocks.setOff, Function.update_self]
    exact sie locked

theorem Owns.setOff_other (owns : Owns s d held) (apart : d ≠ c) (off : CpuOff) : Owns (s.setOff c off) d held :=
  owns.frame (Function.update_of_ne apart _ _) fun _ => .inl rfl

variable [DecidableEq Lock]

/-- A CPU that waits for a lock that it does not hold gets it without a panic. -/
theorem acquire_cases (owns : Owns s c held) (absent : lk ∉ held) {result : Except LockPanic (Spinlocks n Lock)}
    (done : s.acquire c lk = some result) :
    ∃ t, result = .ok t ∧ Owns t c (lk :: held) ∧ ∀ d held', d ≠ c → Owns s d held' → Owns t d held' := by
  have mine : ¬ s.holding c lk = true := by
    simp only [holding, decide_eq_true_eq, owns.holder]
    exact absent
  unfold acquire at done
  rw [if_neg mine] at done
  split_ifs at done with free
  refine ⟨_, (Option.some.inj done).symm, ⟨fun other => ?_, List.nodup_cons.mpr ⟨absent, owns.nodup⟩, ?_, ?_⟩, ?_⟩
  · simp only [setHolder, pushOff, Spinlocks.setOff, Function.update_apply, List.mem_cons]
    split_ifs with here
    · simp [here]
    · simp [here, owns.holder]
  · simp only [setHolder, pushOff, Spinlocks.setOff, Function.update_self, owns.noff, List.length_cons]
    omega
  · intro _
    simp [setHolder, pushOff, Spinlocks.setOff]
  · intro d held' apart others
    refine others.frame ?_ fun other => ?_
    · simp [setHolder, pushOff, Spinlocks.setOff, apart]
    · simp only [setHolder, pushOff, Spinlocks.setOff, Function.update_apply]
      split_ifs with here
      · rw [here, free]
        exact .inr ⟨fun same => apart (Option.some.inj same).symm, nofun⟩
      · exact .inl rfl

/-- A CPU releases a lock that it holds without a panic. -/
theorem release_ok (owns : Owns s c held) (inside : lk ∈ held) :
    ∃ t, s.release c lk = .ok t ∧ Owns t c (held.erase lk) ∧ ∀ d held', d ≠ c → Owns s d held' → Owns t d held' := by
  have mine : s.holding c lk = true := by
    simp only [holding, decide_eq_true_eq, owns.holder]
    exact inside
  have length := List.length_erase_of_mem inside
  have positive := List.length_pos_of_mem inside
  have count := owns.noff
  have closed := owns.off (List.ne_nil_of_mem inside)
  have deep : ¬ (s.off c).noff < 1 := by omega
  unfold release popOff
  rw [if_pos mine]
  have same : (s.setHolder lk none).off = s.off := rfl
  rw [same, closed, if_neg (by decide), if_neg deep]
  refine ⟨_, rfl, ⟨fun other => ?_, owns.nodup.erase lk, ?_, fun more => ?_⟩, fun d held' apart others => ?_⟩
  · simp only [Spinlocks.setOff, setHolder, Function.update_apply, owns.nodup.mem_erase_iff]
    split_ifs with here
    · simp [here]
    · simp [here, owns.holder]
  · simp only [Spinlocks.setOff, Function.update_self]
    omega
  · have left := List.length_pos_iff.mpr more
    simp only [Spinlocks.setOff, Function.update_self, decide_eq_false_iff_not]
    omega
  · refine others.frame ?_ fun other => ?_
    · simp [Spinlocks.setOff, setHolder, apart]
    · simp only [Spinlocks.setOff, setHolder, Function.update_apply]
      split_ifs with here
      · rw [here, (owns.holder lk).mpr inside]
        exact .inr ⟨nofun, fun same => apart (Option.some.inj same).symm⟩
      · exact .inl rfl

end Xv6.Spinlocks
