/-
This file says what the feedback scheduler's choice and its preemption test find in the queues.
-/

import Xv6.Kernel.CpuSystem

namespace Xv6.Cpu

/-- The priority of a process is the number of a queue. -/
def InRange (p : Proc) : Prop := 0 ≤ p.mlfqData.currPri ∧ p.mlfqData.currPri < mlfqNumQueues

section Choice

variable {proc : Slot → Proc} {qnum : Int}

theorem queuedAt_iff (p : Proc) (qnum : Int) :
    queuedAt p qnum = true ↔
      p.mlfqData.inQueue = true ∧ p.mlfqData.currPri = qnum ∧ p.state = .runnable := by
  simp [queuedAt, and_assoc]

/-- A scan of one queue keeps its first candidate or finds a queued process. -/
theorem foldl_topmost_some {slots : List Slot} {first : Option Slot} {p : Slot}
    (found : slots.foldl (topmostStep proc qnum) first = some p) :
    first = some p ∨ queuedAt (proc p) qnum = true := by
  induction slots generalizing first with
  | nil => exact .inl found
  | cons i slots ih =>
      rcases ih found with here | queued
      · unfold topmostStep at here
        by_cases candidate : queuedAt (proc i) qnum = true
        · rw [if_pos candidate] at here
          cases first with
          | none =>
              obtain rfl : i = p := Option.some.inj here
              exact .inr candidate
          | some f =>
              dsimp only at here
              split_ifs at here
              · obtain rfl : i = p := Option.some.inj here
                exact .inr candidate
              · exact .inl here
        · rw [if_neg candidate] at here
          exact .inl here
      · exact .inr queued

/-- A scan that finds nothing passed over no queued process. -/
theorem foldl_topmost_none {slots : List Slot} {first : Option Slot}
    (empty : slots.foldl (topmostStep proc qnum) first = none) :
    first = none ∧ ∀ i ∈ slots, queuedAt (proc i) qnum = false := by
  induction slots generalizing first with
  | nil => exact ⟨empty, fun _ inside => (nomatch inside)⟩
  | cons i slots ih =>
      obtain ⟨here, later⟩ := ih empty
      unfold topmostStep at here
      by_cases candidate : queuedAt (proc i) qnum = true
      · rw [if_pos candidate] at here
        cases first with
        | none => exact (nomatch here)
        | some f =>
            dsimp only at here
            split_ifs at here
      · rw [if_neg candidate] at here
        refine ⟨here, fun j inside => ?_⟩
        rcases List.mem_cons.mp inside with rfl | old
        · exact Bool.eq_false_iff.mpr candidate
        · exact later j old

theorem topmost_some {p : Slot} (found : topmost proc qnum = some p) :
    queuedAt (proc p) qnum = true :=
  (foldl_topmost_some found).resolve_left nofun

theorem topmost_none (empty : topmost proc qnum = none) (q : Slot) :
    queuedAt (proc q) qnum = false :=
  (foldl_topmost_none empty).2 q (List.mem_finRange q)

/-- The order in which `topmost` takes the processes of one queue. -/
def Before (proc : Slot → Proc) (p q : Slot) : Prop :=
  (proc p).mlfqData.intime < (proc q).mlfqData.intime ∨
    (proc p).mlfqData.intime = (proc q).mlfqData.intime ∧ p.val < q.val

theorem Before.trans {p q r : Slot} (first : Before proc p q) (second : Before proc q r) :
    Before proc p r := by
  unfold Before at *
  bv_omega

theorem Before.asymm {p q : Slot} (first : Before proc p q) (second : Before proc q p) : False := by
  unfold Before at *
  bv_omega

/-- One iteration of `topmost` keeps the earlier one of its candidate and a later slot. -/
theorem topmostStep_some {first : Option Slot} {i g : Slot} (earlier : ∀ f, first = some f → f < i)
    (kept : topmostStep proc qnum first i = some g) :
    (g = i ∨ first = some g) ∧ (∀ f, first = some f → f = g ∨ Before proc g f) ∧
      (queuedAt (proc i) qnum = true → i = g ∨ Before proc g i) := by
  unfold topmostStep at kept
  by_cases queued : queuedAt (proc i) qnum = true
  · rw [if_pos queued] at kept
    cases first with
    | none =>
        obtain rfl : i = g := Option.some.inj kept
        exact ⟨.inl rfl, nofun, fun _ => .inl rfl⟩
    | some f =>
        have slot : f.val < i.val := earlier f rfl
        dsimp only at kept
        split_ifs at kept with sooner
        · obtain rfl : i = g := Option.some.inj kept
          refine ⟨.inl rfl, fun h same => ?_, fun _ => .inl rfl⟩
          obtain rfl := Option.some.inj same
          exact .inr (.inl sooner)
        · obtain rfl : f = g := Option.some.inj kept
          refine ⟨.inr rfl, fun h same => .inl (Option.some.inj same).symm, fun _ => .inr ?_⟩
          unfold Before
          bv_omega
  · rw [if_neg queued] at kept
    exact ⟨.inr kept, fun f same => .inl (Option.some.inj (same.symm.trans kept)),
      fun here => absurd here queued⟩

/-- A scan of the slots in order keeps the first process of the queue. -/
theorem foldl_topmost_least {slots : List Slot} {first : Option Slot} {p : Slot}
    (sorted : slots.Pairwise (· < ·)) (earlier : ∀ f, first = some f → ∀ i ∈ slots, f < i)
    (found : slots.foldl (topmostStep proc qnum) first = some p) :
    (∀ f, first = some f → f = p ∨ Before proc p f) ∧
      ∀ q ∈ slots, queuedAt (proc q) qnum = true → q = p ∨ Before proc p q := by
  induction slots generalizing first with
  | nil => exact ⟨fun f here => .inl (Option.some.inj (here.symm.trans found)), nofun⟩
  | cons i slots ih =>
      obtain ⟨below, sorted⟩ := List.pairwise_cons.mp sorted
      have here (f : Slot) (same : first = some f) : f < i := earlier f same i List.mem_cons_self
      have later (g : Slot) (kept : topmostStep proc qnum first i = some g) : ∀ j ∈ slots, g < j := by
        intro j inside
        rcases (topmostStep_some here kept).1 with rfl | same
        · exact below j inside
        · exact earlier g same j (List.mem_cons_of_mem _ inside)
      obtain ⟨head, rest⟩ := ih sorted later found
      have through {g r : Slot} (kept : topmostStep proc qnum first i = some g)
          (step : r = g ∨ Before proc g r) : r = p ∨ Before proc p r := by
        rcases head g kept with rfl | ahead
        · exact step
        · rcases step with rfl | behind
          · exact .inr ahead
          · exact .inr (ahead.trans behind)
      cases kept : topmostStep proc qnum first i with
      | some g =>
          obtain ⟨_, old, new⟩ := topmostStep_some here kept
          refine ⟨fun f same => through kept (old f same), fun q inside queued => ?_⟩
          rcases List.mem_cons.mp inside with rfl | member
          · exact through kept (new queued)
          · exact rest q member queued
      | none =>
          have alone : [i].foldl (topmostStep proc qnum) first = none := kept
          obtain ⟨none, unqueued⟩ := foldl_topmost_none alone
          refine ⟨fun f same => (nomatch none.symm.trans same), fun q inside queued => ?_⟩
          rcases List.mem_cons.mp inside with rfl | member
          · exact (nomatch (unqueued q List.mem_cons_self).symm.trans queued)
          · exact rest q member queued

/-- `topmost` returns the first process of its queue. -/
theorem topmost_least {p q : Slot} (found : topmost proc qnum = some p)
    (queued : queuedAt (proc q) qnum = true) : q = p ∨ Before proc p q := by
  refine (foldl_topmost_least (List.pairwise_lt_finRange nproc) ?_ found).2 q (List.mem_finRange q) queued
  exact nofun

/-- The scheduler takes the first process of its queue. -/
theorem chooseNext_first {p q : Slot} (chosen : chooseNext proc = some p)
    (queued : queuedAt (proc q) (proc p).mlfqData.currPri = true) : q = p ∨ Before proc p q := by
  obtain ⟨qnum, _, found⟩ := List.exists_of_findSome?_eq_some chosen
  obtain ⟨_, pri, _⟩ := (queuedAt_iff _ _).mp (topmost_some found)
  exact topmost_least found (pri ▸ queued)

/-- The chosen process heads its queue, and the queues above it are empty. -/
theorem chooseNext_some {p : Slot} (chosen : chooseNext proc = some p) :
    ∃ k, queuedAt (proc p) k = true ∧
      ∀ m, 0 ≤ m → m < k → ∀ q, queuedAt (proc q) m = false := by
  unfold chooseNext at chosen
  cases zero : topmost proc 0 with
  | some z =>
      obtain rfl : z = p := by simpa [zero] using chosen
      exact ⟨0, topmost_some zero, fun m lower upper => by omega⟩
  | none =>
      cases one : topmost proc 1 with
      | some z =>
          obtain rfl : z = p := by simpa [zero, one] using chosen
          refine ⟨1, topmost_some one, fun m lower upper q => ?_⟩
          obtain rfl : m = 0 := by omega
          exact topmost_none zero q
      | none =>
          cases two : topmost proc 2 with
          | some z =>
              obtain rfl : z = p := by simpa [zero, one, two] using chosen
              refine ⟨2, topmost_some two, fun m lower upper q => ?_⟩
              obtain rfl | rfl : m = 0 ∨ m = 1 := by omega
              · exact topmost_none zero q
              · exact topmost_none one q
          | none =>
              have three : topmost proc 3 = some p := by simpa [zero, one, two] using chosen
              refine ⟨3, topmost_some three, fun m lower upper q => ?_⟩
              obtain rfl | rfl | rfl : m = 0 ∨ m = 1 ∨ m = 2 := by omega
              · exact topmost_none zero q
              · exact topmost_none one q
              · exact topmost_none two q

theorem chooseNext_waits {p : Slot} (chosen : chooseNext proc = some p) :
    (proc p).state = .runnable ∧ (proc p).mlfqData.inQueue = true := by
  obtain ⟨i, heads, _⟩ := chooseNext_some chosen
  obtain ⟨queued, _, runnable⟩ := (queuedAt_iff _ _).mp heads
  exact ⟨runnable, queued⟩

/-- When every runnable process is in its queue, the chosen process has the least priority number. -/
theorem chooseNext_least {p : Slot} (chosen : chooseNext proc = some p)
    (inRange : ∀ q, InRange (proc q))
    (queued : ∀ q, (proc q).state = .runnable → (proc q).mlfqData.inQueue = true) {q : Slot}
    (runnable : (proc q).state = .runnable) :
    (proc p).mlfqData.currPri ≤ (proc q).mlfqData.currPri := by
  obtain ⟨k, heads, above⟩ := chooseNext_some chosen
  obtain ⟨_, rfl, _⟩ := (queuedAt_iff _ _).mp heads
  by_contra smaller
  have missed := above _ (inRange q).1 (not_le.mp smaller) q
  rw [(queuedAt_iff _ _).mpr ⟨queued q runnable, rfl, runnable⟩] at missed
  exact (nomatch missed)

/-- A preemption test that fails saw no queued process above. -/
theorem preemptFlag_false {pri : Int} (fails : preemptFlag proc pri = false)
    (inRange : ∀ q, InRange (proc q))
    (queued : ∀ q, (proc q).state = .runnable → (proc q).mlfqData.inQueue = true) {q : Slot}
    (runnable : (proc q).state = .runnable) : pri ≤ (proc q).mlfqData.currPri := by
  by_contra smaller
  have lower := (inRange q).1
  have inside : (proc q).mlfqData.currPri.toNat ∈ List.range pri.toNat := by
    rw [List.mem_range]
    omega
  have seen : queuedAt (proc q) (proc q).mlfqData.currPri.toNat = true := by
    rw [Int.toNat_of_nonneg lower]
    exact (queuedAt_iff _ _).mpr ⟨queued q runnable, rfl, runnable⟩
  have flagged : preemptFlag proc pri = true :=
    List.any_eq_true.mpr ⟨_, inside, List.any_eq_true.mpr ⟨q, List.mem_finRange q, seen⟩⟩
  rw [flagged] at fails
  exact (nomatch fails)

end Choice

end Xv6.Cpu
