/-
This file shows what the time slices of the feedback scheduler guarantee on one CPU. A process is charged
at most its slice after a push, and the tick that charges the last part moves it down one queue.
-/

import Xv6.Proof.Cpu.Sweep
import Xv6.Proof.Cpu.Priority

namespace Xv6.Cpu
open TransitionSystem

/-- The process has ticks left in its slice. -/
def WithinSlice (p : Proc) : Prop := p.mlfqData.numTicks.toNat < sliceTicks p.mlfqData.currPri

/-- The trap handler is about to return, or has returned. -/
def ended : Option HandlerPc → Bool
  | none | some (.leave _ _) => true
  | _ => false

/-- The tick has passed the process in its update loop, and has not yet tested the slice. -/
def spending (q : Slot) : Option HandlerPc → Bool
  | some (.update _ i) => q.val < i
  | some (.wakeup _ timer _ _ _) | some (.devDone _ timer) | some (.aging _ timer _) => timer
  | some (.slice _ timer p) => timer && p == q
  | _ => false

/-- A deed starts a new spell of a process, or adds a charge to it. -/
def spellStep (q : Slot) (spell : Int × Nat) : Deed → Int × Nat
  | .push _ r qnum => if r = q then (qnum, 0) else spell
  | .charge r => if r = q then (spell.1, spell.2 + 1) else spell
  | _ => spell

/-- The queue of the last push of a process, and the number of ticks charged since. -/
def spell (q : Slot) (trace : List (Machine 1 × CpuEvent 1)) : Int × Nat :=
  trace.foldl (fun spell entry => spellStep q spell (deed entry.1 entry.2)) (0, 0)

/-- The process is behind every other process that waits in the queue. -/
def AtTail (proc : Slot → Proc) (q : Slot) (qnum : Int) : Prop :=
  (proc q).mlfqData.inQueue = true ∧ (proc q).mlfqData.currPri = qnum ∧
    ∀ r, r ≠ q → queuedAt (proc r) qnum = true → Before proc r q

/-- The clock does not wrap, and a process whose slice ends finds no process of a later slot that was
pushed into its new queue in the same tick. -/
def SlotOrder (s : Machine 1) (event : CpuEvent 1) : Prop :=
  match deed s event with
  | .tick => s.ticks + 1 ≠ 0
  | .push .slice q qnum => ∀ r, r ≠ q → queuedAt (s.proc r) qnum = true →
      (s.proc r).mlfqData.intime = s.ticks → r.val < q.val
  | _ => True

instance (s : Machine 1) (event : CpuEvent 1) : Decidable (SlotOrder s event) := by
  unfold SlotOrder
  split <;> infer_instance

/-- The slice of a process has room, or the tick that used its last part is still running. -/
def Spends (handler : Option HandlerPc) (q : Slot) (p : Proc) : Prop :=
  WithinSlice p ∨
    p.mlfqData.numTicks.toNat = sliceTicks p.mlfqData.currPri ∧ p.state = .running ∧
      spending q handler = true

section Step

variable {k l : Core} {act : Deed} {q : Slot}

theorem one_le_sliceTicks (pri : Int) : 1 ≤ sliceTicks pri := by
  unfold sliceTicks
  split_ifs <;> decide

theorem sliceTicks_le (pri : Int) : sliceTicks pri ≤ 15 := by
  unfold sliceTicks
  split_ifs <;> decide

theorem withinSlice_zero {p : Proc} (fresh : p.mlfqData.numTicks = 0) : WithinSlice p := by
  unfold WithinSlice
  rw [fresh]
  exact one_le_sliceTicks _

/-- A tick that has charged the current process keeps it in view up to the test of its slice. -/
theorem spending_walk {handler : Option HandlerPc} (walked : Walk k handler)
    (names : k.cproc = some q) (used : sliceUsed (k.proc q) = true)
    (spends : spending q k.handler = true) : spending q handler = true := by
  cases walked with
  | interrupt trap device idle | wakeup chan idle => simp [idle, spending] at spends
  | dying timer position => simp [position, spending] at spends
  | turn pc _ position turned =>
      rw [position] at spends
      cases turned with
      | wakeupDone trap timer chan rest => cases rest <;> exact spends
      | devKilled timer only => simp_all [spending]
      | devYield trap only => exact (nomatch only)
      | devLeave timer other => exact absurd rfl other
      | agingSlice trap timer i p past named =>
          obtain rfl : p = q := Option.some.inj (named.symm.trans names)
          simpa [spending] using spends
      | agingLeave trap timer i past unnamed => exact (nomatch unnamed.symm.trans names)
      | sliceKeep trap timer p kept => simp_all [spending]
      | updateDone => rfl
      | wakeupSkip | devAging => exact spends
      | callSkip | callDone | flagYield | flagDone | killedYield | killedLeave | leave =>
          exact (nomatch spends)

theorem sliceUsed_of_full {p : Proc} (running : p.state = .running)
    (full : p.mlfqData.numTicks.toNat = sliceTicks p.mlfqData.currPri) : sliceUsed p = true := by
  simp [sliceUsed, running, full]

theorem numTicks_succ {ticks : Uint} (small : ticks.toNat ≤ 15) :
    (ticks + 1).toNat = ticks.toNat + 1 := by
  rw [BitVec.toNat_add]
  exact Nat.mod_eq_of_lt (show ticks.toNat + 1 < 2 ^ 32 by omega)

/-- A process with ticks left keeps some, or the step charges it the last one. -/
theorem spends_within (stepped : CoreStep k act l) (within : WithinSlice (k.proc q)) :
    Spends l.handler q (l.proc q) := by
  have fate := fate_next stepped q
  have before := sliceTicks_le (k.proc q).mlfqData.currPri
  unfold Spends WithinSlice at *
  generalize written : (l.proc q).mlfqData = data at fate
  cases fate with
  | push cause qnum => exact .inl (one_le_sliceTicks qnum)
  | remove | zero => exact .inl (one_le_sliceTicks _)
  | wait | same => exact .inl within
  | charge running =>
      obtain ⟨still, trap, position⟩ := charge_next stepped rfl
      have counted := numTicks_succ (show (k.proc q).mlfqData.numTicks.toNat ≤ 15 by omega)
      by_cases last : (k.proc q).mlfqData.numTicks.toNat + 1 = sliceTicks (k.proc q).mlfqData.currPri
      · exact .inr ⟨counted.trans last, still, by simp [position, spending]⟩
      · refine .inl (lt_of_le_of_ne ?_ ?_)
        · exact counted ▸ within
        · exact counted ▸ last

/-- The tick that charged a process its last part goes on to demote it. -/
theorem spends_full (solo : Solo k) (stepped : CoreStep k act l)
    (full : (k.proc q).mlfqData.numTicks.toNat = sliceTicks (k.proc q).mlfqData.currPri)
    (running : (k.proc q).state = .running) (spends : spending q k.handler = true) :
    Spends l.handler q (l.proc q) := by
  have same {handler : Option HandlerPc} (still : spending q handler = true) :
      Spends handler q (k.proc q) := .inr ⟨full, running, still⟩
  have names := solo.named q (solo.running q running).1
  have idle (free : k.handler = none) : False := by simp [free, spending] at spends
  have others {j : Slot} {record : Proc} {handler : Option HandlerPc}
      (here : q = j → Spends handler j record) (still : q ≠ j → spending q handler = true) :
      Spends handler q (Function.update k.proc j record q) := by
    by_cases this : q = j
    · subst this
      rw [Function.update_self]
      exact here rfl
    · rw [Function.update_of_ne this]
      exact same (still this)
  cases stepped with
  | rest free => exact (idle free).elim
  | walk handler walked =>
      exact same (spending_walk walked names (sliceUsed_of_full running full) spends)
  | tick trap position | wakeCall chan j position | stray p trap after position => simp [position, spending] at spends
  | charge trap j position =>
      rw [position] at spends
      have passed : q.val < j.val := by simpa [spending] using spends
      refine others (fun here => absurd passed (by simp [here])) fun _ => ?_
      simp only [spending, decide_eq_true_eq]
      omega
  | wake trap timer chan rest j position other =>
      rw [position] at spends
      exact others (fun here => absurd (here ▸ names) other) fun _ => spends
  | age trap timer j position =>
      rw [position] at spends
      refine others (fun here => ?_) fun _ => spends
      subst here
      rw [aging_of_not_due (agingDue_of_state (by simp [running]))]
      exact same spends
  | demote trap p position used =>
      rw [position] at spends
      obtain rfl : p = q := by simpa [spending] using spends
      exact others (fun _ => .inl (withinSlice_zero rfl)) (fun other => absurd rfl other)
  | leave p record after current leaves =>
      cases leaves with
      | yield trap after position => simp [position, spending] at spends
      | sleep chan free | exit status free => exact (idle free).elim
  | sched pc named free | scan j first free | run p handler free | kill j free | ready p np free
  | fork np record free | free np record free => exact (idle free).elim

theorem spends_step (solo : Solo k) (stepped : CoreStep k act l)
    (sliced : ∀ q, Spends k.handler q (k.proc q)) (q : Slot) : Spends l.handler q (l.proc q) := by
  rcases sliced q with within | ⟨full, running, spends⟩
  · exact spends_within stepped within
  · exact spends_full solo stepped full running spends

/-- The spell of a process agrees with its record while it is in a queue. -/
structure Spelled (spell : Int × Nat) (data : MlfqProc) : Prop where
  queued : data.inQueue = true → spell.1 = data.currPri ∧ spell.2 = data.numTicks.toNat
  out : data.inQueue = false → spell.2 < sliceTicks spell.1

/-- A process that leaves its queue between two ticks has used less than its slice. -/
theorem Spelled.unused {spell : Int × Nat} {p : Proc} (spelled : Spelled spell p.mlfqData)
    (within : WithinSlice p) : spell.2 < sliceTicks spell.1 := by
  cases inside : p.mlfqData.inQueue with
  | false => exact spelled.out inside
  | true =>
      obtain ⟨queue, count⟩ := spelled.queued inside
      rw [queue, count]
      exact within

theorem Spelled.le_slice {spell : Int × Nat} {handler : Option HandlerPc} {p : Proc}
    (spelled : Spelled spell p.mlfqData) (spends : Spends handler q p) :
    spell.2 ≤ sliceTicks spell.1 := by
  cases inside : p.mlfqData.inQueue with
  | false => exact le_of_lt (spelled.out inside)
  | true =>
      obtain ⟨queue, count⟩ := spelled.queued inside
      rw [queue, count]
      exact spends.elim le_of_lt fun full => le_of_eq full.1

theorem ended_of_spending {handler : Option HandlerPc} (spends : spending q handler = true) :
    ended handler = false := by
  cases handler with
  | none => exact (nomatch spends)
  | some pc =>
      cases pc with
      | leave => exact (nomatch spends)
      | _ => rfl

theorem spellStep_unmarked {spell : Int × Nat} (other : act.marks q = false) :
    spellStep q spell act = spell := by
  cases act <;> simp_all [Deed.marks, spellStep]

theorem Spends.bound {handler : Option HandlerPc} {p : Proc} (spends : Spends handler q p) :
    p.mlfqData.numTicks.toNat ≤ 15 := by
  have slice := sliceTicks_le p.mlfqData.currPri
  rcases spends with within | ⟨full, _⟩
  · exact (le_of_lt within).trans slice
  · omega

theorem spelled_step {spell : Int × Nat} (solo : Solo k) (stepped : CoreStep k act l)
    (sliced : Spends k.handler q (k.proc q)) (spelled : Spelled spell (k.proc q).mlfqData) :
    Spelled (spellStep q spell act) (l.proc q).mlfqData := by
  have fate := fate_next stepped q
  have idle (free : k.handler = none) : WithinSlice (k.proc q) :=
    sliced.resolve_right fun ⟨_, _, spends⟩ => by simp [free, spending] at spends
  generalize (l.proc q).mlfqData = data at fate
  cases fate with
  | push cause qnum => exact ⟨fun _ => by simp [spellStep], nofun⟩
  | charge running =>
      have inside := (solo.running q running).2
      obtain ⟨queue, count⟩ := spelled.queued inside
      have counted := numTicks_succ sliced.bound
      refine ⟨fun _ => ?_, fun outside => (nomatch outside.symm.trans inside)⟩
      simp only [spellStep, if_true]
      exact ⟨queue, by rw [count, counted]⟩
  | wait => exact ⟨spelled.queued, spelled.out⟩
  | remove free | zero free => exact ⟨nofun, fun _ => spelled.unused (idle free)⟩
  | same act other =>
      rw [spellStep_unmarked other]
      exact spelled

end Step

section Run

variable {table cwd : Uint64} {s t : Machine 1} {trace : List (Machine 1 × CpuEvent 1)}

/-- What holds in every run of the feedback scheduler on one CPU. -/
structure SliceInv (trace : List (Machine 1 × CpuEvent 1)) (s : Machine 1) : Prop where
  wired : Wired .mlfq s
  solo : Solo (core s)
  inRange : ∀ q, InRange (s.proc q)
  sliced : ∀ q, Spends (s.handler 0) q (s.proc q)
  spelled : ∀ q, Spelled (spell q trace) (s.proc q).mlfqData

theorem spell_append (q : Slot) (s : Machine 1) (event : CpuEvent 1) :
    spell q (trace ++ [(s, event)]) = spellStep q (spell q trace) (deed s event) := by
  simp [spell]

theorem sliceInv_step {event : CpuEvent 1} (inv : SliceInv trace s) (stepped : s.Step .mlfq event t) :
    SliceInv (trace ++ [(s, event)]) t := by
  have moved := core_next inv.wired stepped
  refine ⟨wired_step inv.wired stepped, solo_step inv.solo moved, inRange_next inv.inRange stepped,
    spends_step inv.solo moved inv.sliced, fun q => ?_⟩
  rw [spell_append]
  exact spelled_step inv.solo moved (inv.sliced q) (inv.spelled q)

theorem sliceInv_boot (table cwd : Uint64) : SliceInv [] (Machine.boot .mlfq 1 table cwd) where
  wired := wired_boot .mlfq 1 table cwd
  solo := solo_boot table cwd
  inRange := (priInv_boot table cwd).inRange
  sliced := forall_update (.inl (withinSlice_zero rfl)) fun _ _ => .inl (withinSlice_zero rfl)
  spelled := by
    refine forall_update (P := fun _ p => Spelled (0, 0) p.mlfqData) ?_ ?_
    · exact ⟨fun _ => ⟨rfl, rfl⟩, nofun⟩
    · exact fun _ _ => ⟨nofun, fun _ => by decide⟩

theorem sliceInv_run (run : Run (fun s => s.Step .mlfq) (.boot .mlfq 1 table cwd) trace s) :
    SliceInv trace s :=
  run.history (fun _ _ => True) (fun _ _ _ _ _ inv stepped => sliceInv_step inv stepped)
    (fun _ _ => trivial) (sliceInv_boot table cwd)

/-- A queued process was pushed at a time that the clock has reached. -/
def Stamped (s : Machine 1) : Prop :=
  ∀ q, (s.proc q).mlfqData.inQueue = true → (s.proc q).mlfqData.intime ≤ s.ticks

theorem stamped_step {event : CpuEvent 1} (wired : Wired .mlfq s) (stamped : Stamped s)
    (steady : deed s event = .tick → s.ticks + 1 ≠ 0) (stepped : s.Step .mlfq event t) : Stamped t := by
  intro q inside
  have moved := core_next wired stepped
  have fate : Fate (core s) q (deed s event) (t.proc q).mlfqData := fate_next moved q
  have clock : t.ticks = if deed s event = .tick then s.ticks + 1 else s.ticks := ticks_of_step moved
  have later : s.ticks ≤ t.ticks := by
    rw [clock]
    split_ifs with tick
    · have below := steady tick
      bv_omega
    · exact BitVec.le_refl _
  have before := stamped q
  generalize (t.proc q).mlfqData = data at fate inside
  generalize deed s event = act at fate
  cases fate with
  | push cause qnum => exact later
  | remove | zero => exact (nomatch inside)
  | charge | wait | same => exact BitVec.le_trans (before inside) later

theorem stamped_boot (table cwd : Uint64) : Stamped (Machine.boot .mlfq 1 table cwd) := by
  refine forall_update (P := fun _ p => p.mlfqData.inQueue = true → p.mlfqData.intime ≤ 0) ?_ ?_
  · exact fun _ => BitVec.le_refl _
  · exact fun _ _ => nofun

theorem stamped_run (run : Run (fun s => s.Step .mlfq) (.boot .mlfq 1 table cwd) trace s)
    (ordered : ∀ entry ∈ trace, SlotOrder entry.1 entry.2) : Stamped s := by
  have keeps : ∀ (s : Machine 1) (event : CpuEvent 1) (t : Machine 1), SlotOrder s event →
      Wired .mlfq s ∧ Stamped s → s.Step .mlfq event t → Wired .mlfq t ∧ Stamped t := by
    refine fun s event t kept before stepped => ⟨wired_step before.1 stepped, ?_⟩
    refine stamped_step before.1 before.2 (fun tick => ?_) stepped
    simpa only [SlotOrder, tick] using kept
  exact (run.invariant SlotOrder keeps ordered ⟨wired_boot .mlfq 1 table cwd, stamped_boot table cwd⟩).2

/-- A push gives its process the current time in its queue. -/
theorem pushed_data {event : CpuEvent 1} {q : Slot} {cause : Cause} {qnum : Int} (wired : Wired .mlfq s)
    (pushed : deed s event = .push cause q qnum) (stepped : s.Step .mlfq event t) :
    (t.proc q).mlfqData = ⟨qnum, 0, 0, true, s.ticks⟩ := by
  have moved := core_next wired stepped
  rw [pushed] at moved
  have fate : Fate (core s) q (.push cause q qnum) (t.proc q).mlfqData := fate_next moved q
  generalize (t.proc q).mlfqData = data at fate ⊢
  cases fate with
  | push => rfl
  | same _ other => simp [Deed.marks] at other

/-- A pushed process is behind a process of its queue that was pushed in an earlier tick, or in the same
tick into an earlier slot. -/
theorem before_pushed {event : CpuEvent 1} {q r : Slot} {cause : Cause} {qnum : Int}
    (wired : Wired .mlfq s) (stamped : Stamped s) (pushed : deed s event = .push cause q qnum)
    (stepped : s.Step .mlfq event t) (other : r ≠ q) (inside : (s.proc r).mlfqData.inQueue = true)
    (ordered : (s.proc r).mlfqData.intime = s.ticks → r.val < q.val) : Before t.proc r q := by
  have same : t.proc r = s.proc r := push_others (core_next wired stepped) pushed other
  have earlier := stamped r inside
  unfold Before
  rw [pushed_data wired pushed stepped, same]
  by_cases now : (s.proc r).mlfqData.intime = s.ticks
  · exact .inr ⟨now, ordered now⟩
  · exact .inl (by bv_omega)

/-- A process whose slice ended is pushed behind the processes of its new queue. -/
theorem atTail_demote {event : CpuEvent 1} {q : Slot} {qnum : Int} (wired : Wired .mlfq s)
    (stamped : Stamped s) (ordered : SlotOrder s event) (pushed : deed s event = .push .slice q qnum)
    (stepped : s.Step .mlfq event t) : AtTail t.proc q qnum := by
  have data := pushed_data wired pushed stepped
  simp only [SlotOrder, pushed] at ordered
  refine ⟨by rw [data], by rw [data], fun r other waits => ?_⟩
  have same : t.proc r = s.proc r := push_others (core_next wired stepped) pushed other
  rw [same] at waits
  exact before_pushed wired stamped pushed stepped other ((queuedAt_iff _ _).mp waits).1
    (ordered r other waits)

/-- A process that was pushed in the same tick into a later slot stays behind. -/
theorem not_atTail {event : CpuEvent 1} {q r : Slot} {cause : Cause} {qnum : Int} (wired : Wired .mlfq s)
    (pushed : deed s event = .push cause q qnum) (stepped : s.Step .mlfq event t)
    (waits : queuedAt (s.proc r) qnum = true) (now : (s.proc r).mlfqData.intime = s.ticks)
    (later : q.val < r.val) : ¬ AtTail t.proc q qnum := by
  intro tail
  have other : r ≠ q := fun same => absurd later (by simp [same])
  have same : t.proc r = s.proc r := push_others (core_next wired stepped) pushed other
  have ahead := tail.2.2 r other (same ▸ waits)
  unfold Before at ahead
  rw [pushed_data wired pushed stepped, same, now] at ahead
  rcases ahead with less | ⟨_, order⟩
  · exact absurd less (BitVec.lt_irrefl _)
  · omega

/-- While the last part of a slice is being used, only the end of the slice pushes the process. -/
theorem push_of_full {event : CpuEvent 1} {q : Slot} {cause : Cause} {qnum : Int} (wired : Wired .mlfq s)
    (running : (s.proc q).state = .running) (spends : spending q (s.handler 0) = true)
    (stepped : s.Step .mlfq event t) (pushed : deed s event = .push cause q qnum) :
    cause = .slice ∧ qnum = min ((s.proc q).mlfqData.currPri + 1) (mlfqNumQueues - 1) := by
  have moved := core_next wired stepped
  have position : (core s).handler = s.handler 0 := rfl
  generalize deed s event = act at moved pushed
  rw [← position] at spends
  have busy : (core s).handler ≠ none := fun free => by simp [free, spending] at spends
  have undue {j : Slot} (same : j = q) : agingDue (core s).ticks ((core s).proc j) = false :=
    agingDue_of_state (by simp [core, same, running])
  generalize core t = l at moved
  cases moved with
  | charge trap j =>
      unfold chargeDeed at pushed
      split_ifs at pushed
  | age trap timer j =>
      unfold agingDeed at pushed
      split_ifs at pushed with due
      obtain ⟨_, same, _⟩ := Deed.push.inj pushed
      simp [undue same] at due
  | demote trap p =>
      obtain ⟨rfl, rfl, rfl⟩ := Deed.push.inj pushed
      exact ⟨rfl, rfl⟩
  | scan j first free | ready p np free => exact absurd free busy
  | _ => cases pushed

/-- A process whose slice ends has been charged all of it. -/
theorem spell_of_slice {event : CpuEvent 1} {q : Slot} {qnum : Int} (inv : SliceInv trace s)
    (pushed : deed s event = .push .slice q qnum) (stepped : s.Step .mlfq event t) :
    (spell q trace).2 = sliceTicks (spell q trace).1 := by
  have used : sliceUsed (s.proc q) = true := slice_next (core_next inv.wired stepped) pushed
  obtain ⟨running, least⟩ : (s.proc q).state = .running ∧
      sliceTicks (s.proc q).mlfqData.currPri ≤ (s.proc q).mlfqData.numTicks.toNat := by
    simpa [sliceUsed] using used
  obtain ⟨full, _⟩ := (inv.sliced q).resolve_left (Nat.not_lt.mpr least)
  obtain ⟨queue, count⟩ := (inv.spelled q).queued (inv.solo.running q running).2
  rw [queue, count, full]

/-- On one CPU every process has ticks left in its slice at the end of every trap. After a push into a
queue it is charged at most the slice of that queue. The tick that charges the last part pushes it into
the next queue before the trap ends, and to its tail when the pushes are in slot order. -/
theorem slices_bound (run : Run (fun s => s.Step .mlfq) (.boot .mlfq 1 table cwd) trace s) :
    (ended (s.handler 0) = true → ∀ q, InRange (s.proc q) ∧ WithinSlice (s.proc q)) ∧
    ∀ q, (spell q trace).2 ≤ sliceTicks (spell q trace).1 ∧
      ((spell q trace).2 = sliceTicks (spell q trace).1 →
        s.cur 0 = some q ∧ ended (s.handler 0) = false ∧
        ∀ event t cause qnum, s.Step .mlfq event t → deed s event = .push cause q qnum →
          cause = .slice ∧ qnum = min ((spell q trace).1 + 1) (mlfqNumQueues - 1) ∧
          ((∀ entry ∈ trace ++ [(s, event)], SlotOrder entry.1 entry.2) → AtTail t.proc q qnum)) := by
  have inv := sliceInv_run run
  have full (q : Slot) (used : (spell q trace).2 = sliceTicks (spell q trace).1) :
      (spell q trace).1 = (s.proc q).mlfqData.currPri ∧ (s.proc q).state = .running ∧
        spending q (s.handler 0) = true := by
    have notWithin : ¬ WithinSlice (s.proc q) := fun within =>
      absurd ((inv.spelled q).unused within) (by omega)
    obtain ⟨_, running, spends⟩ := (inv.sliced q).resolve_left notWithin
    have inside := (inv.solo.running q running).2
    exact ⟨((inv.spelled q).queued inside).1, running, spends⟩
  refine ⟨fun done q => ⟨inv.inRange q, ?_⟩, fun q => ⟨?_, fun used => ?_⟩⟩
  · refine (inv.sliced q).resolve_right fun ⟨_, _, spends⟩ => ?_
    rw [ended_of_spending spends] at done
    exact (nomatch done)
  · exact (inv.spelled q).le_slice (inv.sliced q)
  · obtain ⟨queue, running, spends⟩ := full q used
    refine ⟨(inv.solo.running q running).1, ended_of_spending spends, ?_⟩
    intro event t cause qnum stepped pushed
    obtain ⟨rfl, target⟩ := push_of_full inv.wired running spends stepped pushed
    rw [queue]
    refine ⟨rfl, target, fun ordered => ?_⟩
    have stamped := stamped_run run fun entry inside => ordered entry (List.mem_append_left _ inside)
    have last := ordered _ (List.mem_append_right _ (List.mem_singleton_self _))
    exact atTail_demote inv.wired stamped last pushed stepped

end Run

/-- The first process comes to the test of its slice in its first tick. -/
def firstSlice : List (CpuEvent 1) :=
  firstPass ++ [.call 0 .leave, .interrupt 0 .timer] ++ Machine.steps 0 197

/-- The first process uses its slice in its first tick and goes to the tail of the second queue. -/
theorem slices_bound_first : ∃ s t : Machine 1, Reachable (fun s => s.Step .mlfq) (.boot .mlfq 1 0 0) s ∧
    s.Step .mlfq (.step 0) t ∧ deed s (.step 0) = .push .slice 0 1 ∧ AtTail t.proc 0 1 := by
  obtain ⟨trace, run, ordered⟩ := run_of_events .mlfq firstSlice SlotOrder (by decide +kernel)
  have facts : Machine.legal .mlfq (Machine.play .mlfq firstSlice) (.step 0) = true ∧
      SlotOrder (Machine.play .mlfq firstSlice) (.step 0) ∧
      deed (Machine.play .mlfq firstSlice) (.step 0) = .push .slice 0 1 ∧
      ((Machine.play .mlfq firstSlice).proc 0).mlfqData.inQueue = true ∧
      ((Machine.play .mlfq firstSlice).proc 0).mlfqData.numTicks.toNat =
        sliceTicks ((Machine.play .mlfq firstSlice).proc 0).mlfqData.currPri := by decide +kernel
  generalize Machine.play .mlfq firstSlice = s at run facts
  obtain ⟨possible, last, pushed, inside, full⟩ := facts
  have stepped := Machine.legal_step s (.step 0) possible
  obtain ⟨queue, count⟩ := ((sliceInv_run run).spelled 0).queued inside
  have used : (spell 0 trace).2 = sliceTicks (spell 0 trace).1 := by rw [queue, count, full]
  refine ⟨s, _, ⟨trace, run⟩, stepped, pushed, ?_⟩
  refine ((((slices_bound run).2 0).2 used).2.2 (.step 0) _ .slice 1 stepped pushed).2.2 ?_
  intro entry inside
  rcases List.mem_append.mp inside with old | new
  · exact ordered entry old
  · rw [List.mem_singleton.mp new]
    exact last

/-- The first process uses its slice in the tick that ages its child into the second queue, and it goes
before the child there. -/
theorem slice_ends_ahead : ∃ (trace : List (Machine 1 × CpuEvent 1)) (s t : Machine 1),
    Run (fun s => s.Step .mlfq) (.boot .mlfq 1 0 0) trace s ∧
    (spell 0 trace).2 = sliceTicks (spell 0 trace).1 ∧ s.Step .mlfq (.step 0) t ∧
    deed s (.step 0) = .push .slice 0 1 ∧ ¬ AtTail t.proc 0 1 := by
  obtain ⟨before, middle, after, resumed, running, aged, slice, first, _, again, second, _, _, _, _, third,
    ends, possible, queued, time⟩ := longRun
  have run := ((first.tail again).trans second).trans third
  have inv := sliceInv_run run
  have stepped := Machine.legal_step slice (.step 0) possible
  refine ⟨_, _, _, run, ?_, stepped, ends, not_atTail inv.wired ends stepped queued time (by decide)⟩
  exact spell_of_slice inv ends stepped

end Xv6.Cpu
