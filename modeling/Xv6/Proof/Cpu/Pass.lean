/-
This file follows one pass of the feedback scheduler on one CPU without interrupts: the scan of the table, the choice
and the switch.
-/

import Xv6.Proof.Cpu.Sweep

namespace Xv6.Cpu
open TransitionSystem

section Scan

variable {p : Proc} {ticks : Uint}

/-- After the scan a runnable process is in its queue. -/
theorem scanSlot_queued (runnable : p.state = .runnable) : (scanSlot ticks p).mlfqData.inQueue = true := by
  unfold scanSlot
  dsimp only
  by_cases due : agingDue ticks p = true
  · rw [if_pos due]
    rfl
  · rw [if_neg due]
    cases inside : p.mlfqData.inQueue with
    | true => simp [runnable, inside]
    | false => simp [runnable]

/-- After the scan a process that sleeps or has exited is in no queue. -/
theorem scanSlot_removed (gone : p.state = .sleeping ∨ p.state = .zombie) :
    (scanSlot ticks p).mlfqData.inQueue = false := by
  have stays : agingDue ticks p = false := agingDue_of_state (by rcases gone with state | state <;> simp [state])
  unfold scanSlot
  rw [stays]
  rcases gone with state | state <;> simp [state, remove]

theorem scanSlot_inRange (inRange : InRange p) : InRange (scanSlot ticks p) := by
  have lower := inRange.1
  have upper := inRange.2
  have kept (q : Proc) (same : q.mlfqData.currPri = p.mlfqData.currPri) : InRange q := by
    unfold InRange
    rw [same]
    exact inRange
  unfold scanSlot
  dsimp only
  split_ifs with due
  · constructor
    · exact le_max_right _ _
    · rw [push_currPri]
      omega
  all_goals exact kept _ rfl

/-- A choice that finds no process. -/
theorem chooseNext_none {proc : Slot → Proc} (empty : chooseNext proc = none) (inRange : ∀ q, InRange (proc q))
    (queued : ∀ q, (proc q).state = .runnable → (proc q).mlfqData.inQueue = true) (q : Slot) :
    (proc q).state ≠ .runnable := by
  intro runnable
  have none := List.findSome?_eq_none_iff.mp empty (proc q).mlfqData.currPri (by
    have lower := (inRange q).1
    have upper : (proc q).mlfqData.currPri < 4 := (inRange q).2
    simp only [List.mem_cons, List.not_mem_nil, or_false]
    omega)
  have missed := topmost_none none q
  rw [(queuedAt_iff _ _).mpr ⟨queued q runnable, rfl, runnable⟩] at missed
  cases missed

/-- The key by which the feedback scheduler orders the processes. -/
def rank (proc : Slot → Proc) (p : Slot) : Int ×ₗ Nat ×ₗ Nat :=
  toLex ((proc p).mlfqData.currPri, toLex ((proc p).mlfqData.intime.toNat, p.val))

/-- The chosen process is runnable and has the least key of all runnable processes. -/
theorem chooseNext_rank {proc : Slot → Proc} {p : Slot} (chosen : chooseNext proc = some p)
    (inRange : ∀ q, InRange (proc q))
    (queued : ∀ q, (proc q).state = .runnable → (proc q).mlfqData.inQueue = true) :
    (proc p).state = .runnable ∧ ∀ q, (proc q).state = .runnable → rank proc p ≤ rank proc q := by
  obtain ⟨k, heads, _⟩ := chooseNext_some chosen
  obtain ⟨_, _, ready⟩ := (queuedAt_iff _ _).mp heads
  refine ⟨ready, fun q runnable => ?_⟩
  have least := chooseNext_least chosen inRange queued runnable
  unfold rank
  rw [Prod.Lex.toLex_le_toLex]
  rcases lt_or_eq_of_le least with less | same
  · exact .inl less
  · refine .inr ⟨same, ?_⟩
    rw [Prod.Lex.toLex_le_toLex]
    have member : queuedAt (proc q) (proc p).mlfqData.currPri = true :=
      (queuedAt_iff _ _).mpr ⟨queued q runnable, same.symm, runnable⟩
    rcases chooseNext_first chosen member with rfl | earlier | ⟨equal, index⟩
    · exact .inr ⟨rfl, le_rfl⟩
    · exact .inl earlier
    · exact .inr ⟨congrArg BitVec.toNat equal, Nat.le_of_lt index⟩

end Scan

section Pass

variable {s : Machine 1}

/-- The machine of one CPU before the body of the scheduler's loop. -/
structure AtTop (s : Machine 1) : Prop where
  handler : (s.sched 0).handler = none
  cur : s.cur 0 = none
  pc : (s.sched 0).pc = .top

/-- The machine when the scan has visited the slots below `i`. -/
def scanned (s : Machine 1) (i : Nat) : Machine 1 :=
  { s with
    proc := fun j => if j.val < i then scanSlot s.ticks (s.proc j) else s.proc j
    sched := Function.update s.sched 0 ⟨none, .scan i none, true⟩ }

/-- The events of a run are sections of the scheduler. -/
def Sections (trace : List (Machine 1 × CpuEvent 1)) : Prop := ∀ entry ∈ trace, entry.2 = .step 0

theorem Sections.append {first second : List (Machine 1 × CpuEvent 1)} (left : Sections first) (right : Sections second) :
    Sections (first ++ second) :=
  fun entry inside => (List.mem_append.mp inside).elim (left entry) (right entry)

theorem sections_single (t : Machine 1) : Sections [(t, .step 0)] := by
  intro entry inside
  rw [List.mem_singleton.mp inside]

theorem scanned_free {i : Nat} (cur : s.cur 0 = none) : (scanned s i).handler 0 = none := by
  simp [Machine.handler, scanned, cur]

theorem scanned_unlocked {i : Nat} (j : Slot) : (scanned s i).Unlocked j := by
  intro c
  rw [Fin.fin_one_eq_zero c]
  simp [scanned, SchedPc.held]

/-- One iteration of the scan. -/
theorem scanned_step (cur : s.cur 0 = none) (j : Slot) :
    (scanned s j.val).Step .mlfq (.step 0) (scanned s (j.val + 1)) := by
  have unlocked : (scanned s j.val).Unlocked j := scanned_unlocked j
  have free := scanned_free (i := j.val) cur
  have waits : (scanned s j.val).cur 0 = none := cur
  have place : ((scanned s j.val).sched 0).pc = .scan j.val none := by simp [scanned]
  simp only [Machine.Step, Machine.next, free, waits, Machine.schedStep, place, Machine.scanMlfq, slotAt_val,
    Machine.visit, unlocked, if_true, Option.map_some, Option.some.injEq]
  simp only [scanned, Machine.goto, Machine.setSched, Machine.setProc, Function.update_idem, Function.update_self,
    Machine.mk.injEq, and_true]
  funext q
  by_cases here : q = j
  · subst here
    simp
  · have apart : q.val ≠ j.val := fun same => here (Fin.ext same)
    have order : q.val < j.val + 1 ↔ q.val < j.val := by omega
    simp [here, order]

/-- The scan of the slots from `i` on. -/
theorem scanned_run (cur : s.cur 0 = none) (left i : Nat) (inside : i + left = nproc) :
    ∃ trace, Run (fun s => s.Step .mlfq) (scanned s i) trace (scanned s nproc) ∧ Sections trace := by
  induction left generalizing i with
  | zero =>
      obtain rfl : i = nproc := inside
      exact ⟨[], .refl, nofun⟩
  | succ left ih =>
      have below : i < nproc := by omega
      obtain ⟨trace, run, only⟩ := ih (i + 1) (by omega)
      refine ⟨_, (Run.single (scanned_step cur ⟨i, below⟩)).trans run, ?_⟩
      exact (sections_single _).append only

theorem AtTop.free (top : AtTop s) : s.handler 0 = none := by
  simp only [Machine.handler, top.cur]
  exact top.handler

/-- The scheduler begins its scan. -/
theorem AtTop.begin (top : AtTop s) : s.Step .mlfq (.step 0) (scanned s 0) := by
  simp only [Machine.Step, Machine.next, top.free, top.cur, Machine.schedStep, top.pc, Option.some.injEq]
  simp [scanned, Machine.setSched]

/-- The machine after the scan. -/
def afterScan (s : Machine 1) : Machine 1 := (scanned s nproc).goto 0 .choose

theorem afterScan_proc (i : Slot) : (afterScan s).proc i = scanSlot s.ticks (s.proc i) := if_pos i.isLt

theorem afterScan_pc : ((afterScan s).sched 0).pc = .choose := by
  simp [afterScan, Machine.goto, Machine.setSched]

theorem afterScan_free (cur : s.cur 0 = none) : (afterScan s).handler 0 = none := by
  simp [Machine.handler, afterScan, Machine.goto, Machine.setSched, scanned, cur]

/-- The scan runs to its end. -/
theorem AtTop.scan (top : AtTop s) :
    ∃ trace, Run (fun s => s.Step .mlfq) s trace (afterScan s) ∧ Sections trace := by
  obtain ⟨trace, run, only⟩ := scanned_run top.cur nproc 0 (by omega)
  have last : (scanned s nproc).Step .mlfq (.step 0) (afterScan s) := by
    have waits : (scanned s nproc).cur 0 = none := top.cur
    have place : ((scanned s nproc).sched 0).pc = .scan nproc none := by simp [scanned]
    have stop : slotAt nproc = none := rfl
    simp only [Machine.Step, Machine.next, scanned_free top.cur, waits, Machine.schedStep, place, Machine.scanMlfq, stop]
    rfl
  refine ⟨_, ((Run.single top.begin).trans run).trans (.single last), ?_⟩
  exact ((sections_single _).append only).append (sections_single _)

/-- The scheduler finds no process and starts again, or switches to the process that it has chosen. -/
theorem AtTop.choice (top : AtTop s) :
    ∃ trace u, Run (fun s => s.Step .mlfq) (afterScan s) trace u ∧ Sections trace ∧
      (chooseNext (afterScan s).proc = none ∧ u.cur 0 = none ∧ (u.sched 0).pc = .top ∧ u.proc = (afterScan s).proc ∨
        ∃ p, chooseNext (afterScan s).proc = some p ∧ u.cur 0 = some p ∧
          u.proc = Function.update (afterScan s).proc p { (afterScan s).proc p with state := .running, chan := none }) := by
  have waits : (afterScan s).cur 0 = none := top.cur
  have chooses : (afterScan s).Step .mlfq (.step 0) ((afterScan s).chooseStep 0) := by
    simp only [Machine.Step, Machine.next, afterScan_free top.cur, waits, Machine.schedStep, afterScan_pc]
  cases chosen : chooseNext (afterScan s).proc with
  | none =>
      refine ⟨_, _, .single chooses, sections_single _, .inl ⟨rfl, ?_⟩⟩
      simp only [Machine.chooseStep, chosen]
      refine ⟨waits, ?_, rfl⟩
      simp [Machine.goto, Machine.setSched]
  | some p =>
      have place : (((afterScan s).chooseStep 0).sched 0).pc = .lockNext p := by
        simp [Machine.chooseStep, chosen, Machine.goto, Machine.setSched]
      have same : ((afterScan s).chooseStep 0).proc = (afterScan s).proc := by
        simp only [Machine.chooseStep, chosen]
        rfl
      have waits' : ((afterScan s).chooseStep 0).cur 0 = none := by
        simp only [Machine.chooseStep, chosen]
        exact waits
      have free : ((afterScan s).chooseStep 0).handler 0 = none := by
        have idle := afterScan_free top.cur
        simp only [Machine.handler, waits] at idle
        simp [Machine.handler, waits, Machine.chooseStep, chosen, Machine.goto, Machine.setSched, idle]
      have unlocked : ((afterScan s).chooseStep 0).Unlocked p := by
        intro c
        rw [Fin.fin_one_eq_zero c, place]
        rintro ⟨⟩
      have switches : ((afterScan s).chooseStep 0).Step .mlfq (.step 0) (((afterScan s).chooseStep 0).dispatch 0 p 0) := by
        simp only [Machine.Step, Machine.next, free, waits', Machine.schedStep, place, if_pos unlocked]
      refine ⟨_, _, (Run.single chooses).trans (.single switches), (sections_single _).append (sections_single _),
        .inr ⟨p, rfl, ?_, ?_⟩⟩
      · simp [Machine.dispatch]
      · simp only [Machine.dispatch, same]

end Pass

/-- One pass of the feedback scheduler: its sections run to the end of the scan and on to the switch. After the scan
exactly the runnable processes, of those that are runnable, asleep or exited, are in a queue. A process is switched to if
and only if one is runnable, it has the least key after the scan, and no other state changes. -/
theorem mlfq_pass_dispatches_least {s : Machine 1} (top : AtTop s) (inRange : ∀ i, InRange (s.proc i)) :
    ∃ scan t choice u, Run (fun s => s.Step .mlfq) s scan t ∧ Run (fun s => s.Step .mlfq) t choice u ∧
      Sections (scan ++ choice) ∧
      (∀ i, t.proc i = scanSlot s.ticks (s.proc i)) ∧
      (∀ i, (t.proc i).state = .runnable → (t.proc i).mlfqData.inQueue = true) ∧
      (∀ i, (t.proc i).state = .sleeping ∨ (t.proc i).state = .zombie → (t.proc i).mlfqData.inQueue = false) ∧
      ((∃ p, u.cur 0 = some p) ↔ ∃ i, (s.proc i).state = .runnable) ∧
      (∀ p, u.cur 0 = some p → (s.proc p).state = .runnable ∧ (u.proc p).state = .running ∧
        ∀ q, (s.proc q).state = .runnable → rank t.proc p ≤ rank t.proc q) ∧
      (∀ i, u.cur 0 ≠ some i → (u.proc i).state = (s.proc i).state) ∧ (u.cur 0 = none → (u.sched 0).pc = .top) := by
  obtain ⟨scan, scanRun, scanOnly⟩ := top.scan
  obtain ⟨choice, u, choiceRun, choiceOnly, outcome⟩ := top.choice
  have state (i : Slot) : ((afterScan s).proc i).state = (s.proc i).state := by
    rw [afterScan_proc, scanSlot_state]
  have queued (i : Slot) (runnable : ((afterScan s).proc i).state = .runnable) :
      ((afterScan s).proc i).mlfqData.inQueue = true := by
    rw [state] at runnable
    rw [afterScan_proc]
    exact scanSlot_queued runnable
  have range (i : Slot) : InRange ((afterScan s).proc i) := by
    rw [afterScan_proc]
    exact scanSlot_inRange (inRange i)
  refine ⟨scan, afterScan s, choice, u, scanRun, choiceRun, scanOnly.append choiceOnly, afterScan_proc, queued, ?_, ?_⟩
  · intro i gone
    rw [state] at gone
    rw [afterScan_proc]
    exact scanSlot_removed gone
  rcases outcome with ⟨empty, idle, back, same⟩ | ⟨p, chosen, current, changed⟩
  · refine ⟨?_, ?_, ?_, fun _ => back⟩
    · constructor
      · rintro ⟨p, current⟩
        rw [idle] at current
        cases current
      · rintro ⟨i, runnable⟩
        rw [← state] at runnable
        exact absurd runnable (chooseNext_none empty range queued i)
    · intro p current
      rw [idle] at current
      cases current
    · intro i _
      rw [same, state]
  · obtain ⟨ready, least⟩ := chooseNext_rank chosen range queued
    rw [state] at ready
    refine ⟨?_, ?_, ?_, ?_⟩
    · exact ⟨fun _ => ⟨p, ready⟩, fun _ => ⟨p, current⟩⟩
    · intro q there
      obtain rfl : p = q := Option.some.inj (current.symm.trans there)
      refine ⟨ready, ?_, fun q runnable => least q ?_⟩
      · rw [changed, Function.update_self]
      · rw [state]
        exact runnable
    · intro i other
      have apart : i ≠ p := by
        rintro rfl
        exact other current
      rw [changed, Function.update_of_ne apart, state]
    · intro none
      rw [none] at current
      cases current

/-- The first process has made a child and used its slice, and the scheduler is at the top of its loop. -/
def parentPreempted : List (CpuEvent 1) :=
  Machine.steps 0 68 ++ [.call 0 (.fork 1 ⟨some junkFrame, some 0, true⟩), .step 0, .call 0 .leave,
    .interrupt 0 .timer] ++ Machine.steps 0 200

/-- Parent and child are runnable, and the pass switches to the child. -/
theorem mlfq_pass_dispatches_child :
    Reachable (fun s => s.Step .mlfq) (.boot .mlfq 1 0 0) (Machine.play .mlfq parentPreempted) ∧
      (∀ i, ((Machine.play .mlfq parentPreempted).proc i).state = .runnable ↔ i = 0 ∨ i = 1) ∧
      ∃ trace u, Run (fun s => s.Step .mlfq) (Machine.play .mlfq parentPreempted) trace u ∧ u.cur 0 = some 1 := by
  have range (i : Slot) : InRange ((Machine.play .mlfq parentPreempted).proc i) := by
    revert i
    unfold InRange
    decide +kernel
  have ready : ∀ i, ((Machine.play .mlfq parentPreempted).proc i).state = .runnable ↔ i = 0 ∨ i = 1 := by
    decide +kernel
  refine ⟨reachable_of_events .mlfq parentPreempted (by decide +kernel), ready, ?_⟩
  obtain ⟨scan, t, choice, u, scanRun, choiceRun, _, scanned, _, _, dispatches, chosen, _⟩ :=
    mlfq_pass_dispatches_least ⟨by decide +kernel, by decide +kernel, by decide +kernel⟩ range
  obtain ⟨p, current⟩ := dispatches.mpr ⟨0, (ready 0).mpr (.inl rfl)⟩
  obtain ⟨runnable, _, least⟩ := chosen p current
  refine ⟨_, u, scanRun.trans choiceRun, ?_⟩
  rcases (ready p).mp runnable with rfl | rfl
  · have first := least 1 ((ready 1).mpr (.inr rfl))
    rw [rank, rank, scanned, scanned] at first
    exact absurd first (by decide +kernel)
  · exact current

end Xv6.Cpu
