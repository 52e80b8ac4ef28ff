/-
This file gives programs that change a state and can stop with an error, and the rules of their
postconditions.
-/

import Mathlib

/-- A program returns a value and a new state, or stops. -/
abbrev Program (σ ε α : Type) := StateT σ (Except ε) α

namespace Program

variable {σ ε α β : Type} {s : σ} {post : α → σ → Prop} {stop : ε → Prop}

/-- After the program its postcondition holds, or it has stopped with an allowed error. -/
def Ensures (p : Program σ ε α) (s : σ) (post : α → σ → Prop) (stop : ε → Prop) : Prop :=
  match p.run s with
  | .ok (a, t) => post a t
  | .error e => stop e

theorem Ensures.ok {p : Program σ ε α} (ensures : Ensures p s post stop) {a : α} {t : σ}
    (ran : p.run s = .ok (a, t)) : post a t := by
  unfold Ensures at ensures
  rwa [ran] at ensures

theorem Ensures.error {p : Program σ ε α} (ensures : Ensures p s post stop) {e : ε}
    (ran : p.run s = .error e) : stop e := by
  unfold Ensures at ensures
  rwa [ran] at ensures

/-- A program that cannot stop returns. -/
theorem Ensures.total {p : Program σ ε α} (ensures : Ensures p s post stop) (never : ∀ e, ¬ stop e) :
    ∃ a t, p.run s = .ok (a, t) ∧ post a t := by
  cases ran : p.run s with
  | error e => exact absurd (ensures.error ran) (never e)
  | ok result => exact ⟨result.1, result.2, rfl, ensures.ok ran⟩

@[simp] theorem ensures_pure (a : α) : Ensures (pure a) s post stop ↔ post a s := Iff.rfl

@[simp] theorem ensures_bind (p : Program σ ε β) (f : β → Program σ ε α) :
    Ensures (p >>= f) s post stop ↔ Ensures p s (fun b t => Ensures (f b) t post stop) stop := by
  unfold Ensures
  rw [StateT.run_bind]
  cases p.run s with
  | error e => exact Iff.rfl
  | ok result => exact Iff.rfl

@[simp] theorem ensures_get {post : σ → σ → Prop} :
    Ensures (get : Program σ ε σ) s post stop ↔ post s s := Iff.rfl

@[simp] theorem ensures_modify (f : σ → σ) {post : PUnit → σ → Prop} :
    Ensures (modify f : Program σ ε PUnit) s post stop ↔ post ⟨⟩ (f s) := Iff.rfl

@[simp] theorem ensures_set (t : σ) {post : PUnit → σ → Prop} :
    Ensures (set t : Program σ ε PUnit) s post stop ↔ post ⟨⟩ t := Iff.rfl

@[simp] theorem ensures_throw (e : ε) : Ensures (throw e : Program σ ε α) s post stop ↔ stop e := Iff.rfl

theorem ensures_ite {c : Prop} [Decidable c] {p q : Program σ ε α} :
    Ensures (if c then p else q) s post stop ↔
      (c → Ensures p s post stop) ∧ (¬ c → Ensures q s post stop) := by
  by_cases holds : c
  · simp [holds]
  · simp [holds]

/-- A weaker postcondition. -/
theorem Ensures.mono {p : Program σ ε α} {weak : α → σ → Prop} {allowed : ε → Prop}
    (ensures : Ensures p s post stop) (after : ∀ a t, post a t → weak a t) (stopped : ∀ e, stop e → allowed e) :
    Ensures p s weak allowed := by
  unfold Ensures at ensures ⊢
  cases ran : p.run s with
  | error e =>
      rw [ran] at ensures
      exact stopped e ensures
  | ok result =>
      rw [ran] at ensures
      exact after result.1 result.2 ensures

/-- Two postconditions of one program. -/
theorem Ensures.and {p : Program σ ε α} {other : α → σ → Prop} (first : Ensures p s post stop)
    (second : Ensures p s other stop) : Ensures p s (fun a t => post a t ∧ other a t) stop := by
  unfold Ensures at first second ⊢
  cases ran : p.run s with
  | error e =>
      rw [ran] at first
      exact first
  | ok result =>
      rw [ran] at first second
      exact ⟨first, second⟩

/-- A program after another one that is known by its postcondition. -/
theorem Ensures.bind {p : Program σ ε β} {f : β → Program σ ε α} {middle : β → σ → Prop}
    (first : Ensures p s middle stop) (rest : ∀ b t, middle b t → Ensures (f b) t post stop) :
    Ensures (p >>= f) s post stop := by
  rw [ensures_bind]
  exact first.mono rest fun _ stopped => stopped

end Program
