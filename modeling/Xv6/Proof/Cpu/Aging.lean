/-
This file shows that the aging loops of the feedback scheduler prevent starvation on one CPU. A process
that waits in a queue is moved up at the latest after thirty ticks, also when the clock wraps.
-/

import Xv6.Proof.Cpu.Sweep

namespace Xv6.Cpu
open TransitionSystem

/-- The ticks since the last push, as the aging loops compute them. -/
def ageOf (ticks : Uint) (p : Proc) : Nat := (ticks - p.mlfqData.intime).toNat

/-- The aging loop of the running tick has not yet visited the process. -/
def pending (q : Slot) : Option HandlerPc → Bool
  | some (.update _ _) => true
  | some (.wakeup _ timer _ _ _) | some (.devDone _ timer) => timer
  | some (.aging _ timer i) => timer && decide (i ≤ q.val)
  | _ => false

/-- The scheduler has visited the process since a process last left the CPU. -/
def seen (k : Core) (q : Slot) : Bool :=
  match k.cur, k.pc with
  | some _, _ => true
  | none, .scan i _ => q.val < i
  | none, .choose | none, .lockNext _ => true
  | _, _ => false

/-- A sleeper is in no queue, and a waiting process is young or due in the running tick. -/
def FairSlot (ticks : Uint) (handler : Option HandlerPc) (q : Slot) (p : Proc) : Prop :=
  (p.state = .sleeping → p.mlfqData.inQueue = false) ∧
    (Waits p → ageOf ticks p < agingTime ∨ pending q handler = true ∧ ageOf ticks p ≤ agingTime)

def Fair (k : Core) : Prop := ∀ q, seen k q = true → FairSlot k.ticks k.handler q (k.proc q)

section Step

variable {k l : Core} {act : Deed} {q : Slot}

theorem FairSlot.busy {ticks : Uint} {handler : Option HandlerPc} {p : Proc} (awake : p.state ≠ .sleeping)
    (busy : p.state ≠ .runnable) : FairSlot ticks handler q p :=
  ⟨fun asleep => absurd asleep awake, fun waits => absurd waits.1 busy⟩

/-- A process that was pushed at this tick is young. -/
theorem FairSlot.pushed {ticks : Uint} {handler : Option HandlerPc} {p : Proc} {qnum : Int}
    (awake : p.state ≠ .sleeping) : FairSlot ticks handler q (push ticks qnum p) := by
  refine ⟨fun asleep => absurd asleep awake, fun _ => .inl ?_⟩
  simp [ageOf, push]

theorem FairSlot.wakeupSlot {ticks : Uint} {handler : Option HandlerPc} {p : Proc} {chan : Chan}
    (fair : FairSlot ticks handler q p) : FairSlot ticks handler q (wakeupSlot chan p) := by
  unfold Xv6.wakeupSlot
  split_ifs with asleep
  · refine ⟨nofun, fun waits => ?_⟩
    exact (nomatch (fair.1 asleep.1).symm.trans waits.2)
  · exact fair

theorem FairSlot.killSlot {ticks : Uint} {handler : Option HandlerPc} {p : Proc}
    (fair : FairSlot ticks handler q p) : FairSlot ticks handler q (killSlot p) := by
  unfold Xv6.killSlot
  split_ifs with asleep
  · refine ⟨nofun, fun waits => ?_⟩
    exact (nomatch (fair.1 asleep).symm.trans waits.2)
  · exact fair

theorem young_of_not_due {ticks : Uint} {p : Proc} (early : agingDue ticks p = false) (waits : Waits p) :
    ageOf ticks p < agingTime := by
  by_contra old
  have due : agingDue ticks p = true :=
    agingDue_iff.mpr ⟨Nat.not_lt.mp old, waits.2, waits.1⟩
  exact (nomatch due.symm.trans early)

/-- The visit of an aging loop leaves a young process. -/
theorem FairSlot.aging {ticks : Uint} {handler after : Option HandlerPc} {p : Proc}
    (fair : FairSlot ticks handler q p) : FairSlot ticks after q (aging ticks p) := by
  unfold Xv6.aging
  split_ifs with due
  · refine .pushed ?_
    simp [(agingDue_iff.mp due).2.2]
  · exact ⟨fair.1, fun waits => .inl (young_of_not_due (Bool.eq_false_iff.mpr due) waits)⟩

/-- The scheduler's visit takes a sleeper out of its queue and leaves a young process. -/
theorem FairSlot.scanSlot (ticks : Uint) (handler : Option HandlerPc) (p : Proc) :
    FairSlot ticks handler q (scanSlot ticks p) := by
  unfold Xv6.scanSlot
  dsimp only
  split_ifs with due insert resting resting
  · refine .pushed ?_
    simp [(agingDue_iff.mp due).2.2]
  · simp [insert.1] at resting
  · exact .pushed (by simp [insert.1])
  · refine ⟨fun _ => rfl, fun waits => (nomatch waits.2)⟩
  · exact ⟨fun asleep => absurd (.inr asleep) resting,
      fun waits => .inl (young_of_not_due (Bool.eq_false_iff.mpr due) waits)⟩

theorem pending_walk {handler : Option HandlerPc} (walked : Walk k handler) :
    pending q handler = pending q k.handler := by
  cases walked with
  | interrupt trap device idle =>
      rw [idle]
      cases device with
      | timer => rfl
      | other chans => cases chans <;> rfl
  | wakeup chan idle => rw [idle]; rfl
  | dying timer position => rw [position]; rfl
  | turn pc _ position turned =>
      rw [position]
      have past {i : Nat} (ended : nproc ≤ i) : ¬ i ≤ q.val := by
        have := q.isLt
        omega
      cases turned with
      | wakeupDone trap timer chan rest => cases rest <;> rfl
      | devKilled timer only =>
          obtain rfl : timer = false := only.resolve_left nofun
          rfl
      | devYield trap only => exact (nomatch only)
      | devLeave timer other => exact absurd rfl other
      | devAging trap timer => simp [pending]
      | agingSlice trap timer i p ended => simp [pending, past ended]
      | agingLeave trap timer i ended => simp [pending, past ended]
      | flagDone trap => cases trap <;> rfl
      | _ => rfl

theorem ageOf_tick {ticks : Uint} {p : Proc} (small : ageOf ticks p + 1 < 2 ^ 32) :
    ageOf (ticks + 1) p = ageOf ticks p + 1 := by
  unfold ageOf at *
  bv_omega

theorem fair_step (solo : Solo k) (fair : Fair k) (stepped : CoreStep k act l) : Fair l := by
  intro q looked
  have write {j : Slot} {record : Proc} {ticks : Uint} {handler : Option HandlerPc}
      (here : q = j → FairSlot ticks handler q record)
      (others : q ≠ j → FairSlot ticks handler q (k.proc q)) :
      FairSlot ticks handler q (Function.update k.proc j record q) := by
    by_cases same : q = j
    · subst same
      rw [Function.update_self]
      exact here rfl
    · rw [Function.update_of_ne same]
      exact others same
  have young (free : pending q k.handler = false) (before : seen k q = true) (handler : Option HandlerPc) :
      FairSlot k.ticks handler q (k.proc q) := by
    obtain ⟨asleep, waiting⟩ := fair q before
    exact ⟨asleep, fun waits => .inl ((waiting waits).resolve_right (by simp [free]))⟩
  have idle (free : k.handler = none) : pending q k.handler = false := by rw [free]; rfl
  have running (busy : k.cur ≠ none) : seen k q = true := by
    obtain ⟨p, current⟩ := Option.ne_none_iff_exists'.mp busy
    simp [seen, current]
  cases stepped with
  | rest => exact fair q looked
  | walk handler walked =>
      have before := fair q looked
      rw [FairSlot, ← pending_walk walked] at before
      exact before
  | tick trap position =>
      obtain ⟨asleep, waiting⟩ := young (by rw [position]; rfl) looked none
      refine ⟨asleep, fun waits => .inr ⟨rfl, ?_⟩⟩
      have age : ageOf k.ticks (k.proc q) < agingTime := (waiting waits).resolve_right (by rintro ⟨⟨⟩, _⟩)
      have grown : ageOf (k.ticks + 1) (k.proc q) = ageOf k.ticks (k.proc q) + 1 :=
        ageOf_tick (by simp only [agingTime] at age; omega)
      exact le_of_eq_of_le grown age
  | charge trap j position =>
      have before := fair q looked
      rw [position] at before
      refine write (fun same => ?_) fun _ => before
      subst same
      simpa [FairSlot, Waits, ageOf, pending] using before
  | wakeCall chan j position | wake _ _ chan _ j position =>
      have before := fair q looked
      rw [position] at before
      exact write (fun same => by subst same; exact before.wakeupSlot) fun _ => before
  | age trap timer j position =>
      have before := fair q looked
      rw [position] at before
      refine write (fun same => ?_) fun other => ?_
      · subst same
        exact before.aging
      · refine ⟨before.1, fun waits => (before.2 waits).imp_right fun late => ⟨?_, late.2⟩⟩
        have different : q.val ≠ j.val := fun equal => other (Fin.ext equal)
        have later := late.1
        simp only [pending, Bool.and_eq_true, decide_eq_true_eq] at later ⊢
        exact ⟨later.1, by omega⟩
  | demote trap p position used =>
      refine write (fun same => ?_) fun _ => young (by rw [position]; rfl) looked _
      subst same
      have run : (k.proc q).state = .running := by
        simp only [sliceUsed, Bool.and_eq_true, beq_iff_eq] at used
        exact used.1
      exact .busy (by simp [run]) (by simp [run])
  | leave => cases looked
  | stray p trap after position current names =>
      simp [seen, current, solo.stale p current names] at looked
  | sched pc named free current moved =>
      refine young (idle free) ?_ _
      have inside := q.isLt
      cases moved with
      | top | stale | empty => simp [seen, current] at looked
      | done i first position ended =>
          simp only [seen, current, position, decide_eq_true_eq]
          omega
      | choose p position => simp [seen, current, position]
  | scan j first free current position =>
      refine write (fun same => .scanSlot ..) fun other => young (idle free) ?_ _
      have different : q.val ≠ j.val := fun equal => other (Fin.ext equal)
      have visited : q.val < j.val + 1 := by simpa [seen, current] using looked
      simp only [seen, current, position, decide_eq_true_eq]
      omega
  | run p handler free current locks resumed =>
      refine write (fun _ => .busy (by rintro ⟨⟩) (by rintro ⟨⟩)) fun _ => young (idle free) ?_ _
      simp [seen, current, locks]
  | kill j free busy =>
      exact write (fun same => by subst same; exact (young (idle free) (running busy) _).killSlot)
        fun _ => young (idle free) (running busy) _
  | ready p np free current =>
      refine write (fun _ => .pushed (by rintro ⟨⟩)) fun _ => young (idle free) (running ?_) _
      simp [current]
  | fork np record free busy unused used =>
      refine write (fun _ => .busy ?_ ?_) fun _ => young (idle free) (running busy) _
      · simp [used]
      · simp [used]
  | free np record free busy resting unused =>
      refine write (fun _ => .busy ?_ ?_) fun _ => young (idle free) (running busy) _
      · simp [unused]
      · simp [unused]

theorem pending_rests {pc : HandlerPc} (resting : rests pc = true) : pending q (some pc) = false := by
  cases pc <;> simp_all [rests, pending]

/-- A tick puts every process before its aging visit, and only that visit ends this. -/
theorem pending_step (solo : Solo k) (stepped : CoreStep k act l) (q : Slot) :
    act = .tick ∧ pending q k.handler = false ∧ pending q l.handler = true ∨
      act ≠ .tick ∧ pending q l.handler = pending q k.handler ∨
      act = agingDeed k.ticks q (k.proc q) ∧ pending q l.handler = false := by
  cases stepped with
  | tick trap position => exact .inl ⟨rfl, by rw [position]; rfl, rfl⟩
  | walk handler walked => exact .inr (.inl ⟨nofun, pending_walk walked⟩)
  | charge trap j position =>
      refine .inr (.inl ⟨chargeDeed_ne_tick _ _, ?_⟩)
      rw [position]
      rfl
  | wakeCall chan j position | wake _ _ chan _ j position | demote _ j position | stray p trap after position =>
      refine .inr (.inl ⟨nofun, ?_⟩)
      rw [position]
      rfl
  | age trap timer j position =>
      by_cases same : q = j
      · subst same
        exact .inr (.inr ⟨rfl, by simp [pending]⟩)
      · refine .inr (.inl ⟨agingDeed_ne_tick _ _ _, ?_⟩)
        have different : q.val ≠ j.val := fun equal => same (Fin.ext equal)
        have order : j.val + 1 ≤ q.val ↔ j.val ≤ q.val := by omega
        simp [position, pending, order]
  | leave p record after current leaves =>
      refine .inr (.inl ⟨nofun, ?_⟩)
      cases leaves with
      | yield trap after position => rw [position]; rfl
      | sleep chan free | exit status free => rw [free]
  | scan j => exact .inr (.inl ⟨scanDeed_ne_tick _ _ _, rfl⟩)
  | run p handler free current locks resumed =>
      refine .inr (.inl ⟨nofun, ?_⟩)
      have resting := solo.parked p
      rw [free]
      rcases resumed with rfl | rfl
      · rfl
      · cases parked : k.parked p with
        | none => rfl
        | some pc => exact pending_rests (by simpa [parked] using resting)
  | rest | sched | kill | ready | fork | free => exact .inr (.inl ⟨nofun, rfl⟩)

/-- A process that waits is pushed by an aging loop, or into the first queue. -/
theorem push_waiting {cause : Cause} {qnum : Int} (stepped : CoreStep k act l)
    (pushed : act = .push cause q qnum) (waits : Waits (k.proc q)) :
    pending q l.handler = false ∧ qnum ≤ max ((k.proc q).mlfqData.currPri - 1) 0 := by
  cases stepped with
  | charge trap j =>
      unfold chargeDeed at pushed
      split_ifs at pushed
  | age trap timer j =>
      unfold agingDeed at pushed
      split_ifs at pushed
      obtain ⟨_, rfl, rfl⟩ := Deed.push.inj pushed
      exact ⟨by simp [pending], le_refl _⟩
  | scan j first free =>
      unfold scanDeed at pushed
      split_ifs at pushed with due insert
      · obtain ⟨_, rfl, rfl⟩ := Deed.push.inj pushed
        exact ⟨by rw [free]; rfl, le_refl _⟩
      · obtain ⟨_, rfl, _⟩ := Deed.push.inj pushed
        exact (nomatch insert.2.symm.trans waits.2)
  | demote trap p position used =>
      obtain ⟨_, rfl, _⟩ := Deed.push.inj pushed
      simp [sliceUsed, waits.1] at used
  | ready p np free =>
      obtain ⟨_, rfl, rfl⟩ := Deed.push.inj pushed
      exact ⟨by rw [free]; rfl, le_max_right _ _⟩
  | _ => exact (nomatch pushed)

/-- A waiting process has moved up once for every thirty ticks of a stretch. The age makes up for the
ticks since the last move. -/
def Climbed (top : Int) (elapsed : Nat) (k : Core) (q : Slot) : Prop :=
  ∃ moves : Nat, (k.proc q).mlfqData.currPri ≤ max (top - moves) 0 ∧
    (pending q k.handler = true → elapsed ≤ agingTime * moves + min (ageOf k.ticks (k.proc q)) agingTime) ∧
    (pending q k.handler = false → ageOf k.ticks (k.proc q) + 1 < 2 ^ 32 ∧
      elapsed < agingTime * (moves + 1) ∧ elapsed ≤ agingTime * moves + ageOf k.ticks (k.proc q))

theorem climbed_step {top : Int} {elapsed : Nat} (solo : Solo k) (stepped : CoreStep k act l)
    (before : Waits (k.proc q)) (after : Waits (l.proc q)) (climbed : Climbed top elapsed k q) :
    Climbed top (elapsed + if act = .tick then 1 else 0) l q := by
  obtain ⟨moves, pri, late, early⟩ := climbed
  have clock := ticks_of_step stepped
  rcases (fate_next stepped q).queued after.2 with ⟨cause, qnum, rfl, data⟩ | ⟨unpushed, _, same, time⟩
  · obtain ⟨visited, less⟩ := push_waiting stepped rfl before
    have age : ageOf l.ticks (l.proc q) = 0 := by
      simp [ageOf, data, clock]
    have bound : elapsed ≤ agingTime * (moves + 1) := by
      simp only [agingTime] at late early ⊢
      cases waiting : pending q k.handler with
      | true =>
          have count := late waiting
          omega
      | false =>
          have count := (early waiting).2.1
          omega
    refine ⟨moves + 1, ?_, fun late => (nomatch visited.symm.trans late), fun _ => ?_⟩
    · rw [data]
      push_cast
      omega
    · simp only [reduceCtorEq, if_false, age, agingTime] at bound ⊢
      omega
  · have aged : ageOf l.ticks (l.proc q) = ageOf l.ticks (k.proc q) := by rw [ageOf, time, ageOf]
    refine ⟨moves, same ▸ pri, ?_⟩
    rw [aged]
    rcases pending_step solo stepped q with ⟨rfl, fresh, begun⟩ | ⟨other, kept⟩ | ⟨visit, visited⟩
    · obtain ⟨small, bound, count⟩ := early fresh
      rw [if_pos rfl] at clock ⊢
      rw [clock, ageOf_tick small, begun]
      refine ⟨fun _ => ?_, nofun⟩
      simp only [agingTime] at bound count ⊢
      omega
    · rw [kept, clock, if_neg other, if_neg other]
      exact ⟨late, early⟩
    · have undue : agingDue k.ticks (k.proc q) = false := by
        by_contra due
        rw [Bool.not_eq_false] at due
        exact unpushed .aging _ (visit.trans (if_pos due))
      have young := young_of_not_due undue before
      have other : act ≠ .tick := visit ▸ agingDeed_ne_tick _ _ _
      rw [clock, if_neg other, if_neg other]
      refine ⟨fun late => (nomatch visited.symm.trans late), fun _ => ?_⟩
      cases waiting : pending q k.handler with
      | true =>
          have count := late waiting
          simp only [agingTime] at count young ⊢
          omega
      | false => exact early waiting

end Step

section Run

variable {table cwd : Uint64} {s t : Machine 1} {trace rest : List (Machine 1 × CpuEvent 1)}

/-- The CPU executes a process in user mode. -/
def InUser (s : Machine 1) : Prop :=
  ∃ p, s.cur 0 = some p ∧ s.handler 0 = none ∧ (s.thread p).base = .user

theorem fair_run (run : Run (fun s => s.Step .mlfq) (.boot .mlfq 1 table cwd) trace s) :
    Wired .mlfq s ∧ Solo (core s) ∧ Fair (core s) := by
  have keeps : ∀ (s : Machine 1) (event : CpuEvent 1) (t : Machine 1), True →
      Wired .mlfq s ∧ Solo (core s) ∧ Fair (core s) → s.Step .mlfq event t →
      Wired .mlfq t ∧ Solo (core t) ∧ Fair (core t) := by
    rintro s event t _ ⟨wired, solo, fair⟩ stepped
    have moved := core_next wired stepped
    exact ⟨wired_step wired stepped, solo_step solo moved, fair_step solo fair moved⟩
  exact run.invariant (fun _ _ => True) keeps (fun _ _ => trivial)
    ⟨wired_boot .mlfq 1 table cwd, solo_boot table cwd, fun _ => nofun⟩

/-- A waiting process is young whenever a process is on the CPU. -/
theorem young_of_busy (fair : Fair (core s)) (busy : s.cur 0 ≠ none) {q : Slot} (waits : Waits (s.proc q)) :
    ageOf s.ticks (s.proc q) ≤ agingTime ∧
      (pending q (s.handler 0) = false → ageOf s.ticks (s.proc q) < agingTime) := by
  obtain ⟨p, current⟩ := Option.ne_none_iff_exists'.mp busy
  have known : seen (core s) q = true := by simp [seen, core, current]
  rcases (fair q known).2 waits with young | ⟨late, due⟩
  · exact ⟨le_of_lt young, fun _ => young⟩
  · exact ⟨due, fun early => by cases late.symm.trans early⟩

/-- A stretch of a run in which a process waits moves it up. -/
theorem climbed_run {q : Slot} (wired : Wired .mlfq s) (solo : Solo (core s))
    (start : ageOf s.ticks (s.proc q) + 1 < 2 ^ 32) (run : Run (fun s => s.Step .mlfq) s rest t)
    (waits : ∀ entry ∈ rest, Waits (entry.1.proc q)) (still : Waits (t.proc q)) :
    Wired .mlfq t ∧ Solo (core t) ∧
      Climbed (s.proc q).mlfqData.currPri (tickCount rest) (core t) q := by
  induction run with
  | refl =>
      refine ⟨wired, solo, 0, by simp [core], fun _ => Nat.zero_le _, fun _ => ⟨start, ?_⟩⟩
      simp [tickCount]
  | @tail rest u t event run stepped ih =>
      have here : Waits (u.proc q) := waits (u, event) (List.mem_append_right _ (List.mem_singleton_self _))
      obtain ⟨wired, solo, climbed⟩ := ih (fun entry inside => waits entry (List.mem_append_left _ inside)) here
      have moved := core_next wired stepped
      refine ⟨wired_step wired stepped, solo_step solo moved, ?_⟩
      have next := climbed_step solo moved here still climbed
      by_cases tick : deed u event = .tick <;> simpa [tickCount, tick] using next

/-- On one CPU a process that waits in a queue has waited fewer than thirty ticks whenever the CPU is in
user mode. Over a stretch of thirty times `j` ticks in which a process keeps waiting, it moves up at
least `j` queues. -/
theorem aging_prevents_starvation
    (run : Run (fun s => s.Step .mlfq) (.boot .mlfq 1 table cwd) trace s) :
    (InUser s → ∀ q, Waits (s.proc q) → ageOf s.ticks (s.proc q) < agingTime) ∧
    ∀ (q : Slot) (rest : List (Machine 1 × CpuEvent 1)) (t : Machine 1) (j : Nat),
      (s.cur 0 ≠ none ∨ ageOf s.ticks (s.proc q) + 1 < 2 ^ 32) →
      Run (fun s => s.Step .mlfq) s rest t → (∀ entry ∈ rest, Waits (entry.1.proc q)) →
      Waits (t.proc q) → pending q (t.handler 0) = false → agingTime * j ≤ tickCount rest →
      (t.proc q).mlfqData.currPri ≤ max 0 ((s.proc q).mlfqData.currPri - j) := by
  obtain ⟨wired, solo, fair⟩ := fair_run run
  refine ⟨?_, ?_⟩
  · rintro ⟨p, current, idle, _⟩ q waits
    exact (young_of_busy fair (by simp [current]) waits).2 (by rw [idle]; rfl)
  · intro q rest t j start onward waits still passed long
    have first : Waits (s.proc q) :=
      onward.at_start (fun u => Waits (u.proc q)) waits still
    have small : ageOf s.ticks (s.proc q) + 1 < 2 ^ 32 := by
      rcases start with busy | small
      · have young := (young_of_busy fair busy first).1
        simp only [agingTime] at young
        omega
      · exact small
    obtain ⟨_, _, moves, pri, _, early⟩ := climbed_run wired solo small onward waits still
    have enough : j ≤ moves := by
      have bound := (early passed).2.1
      have less : agingTime * j < agingTime * (moves + 1) := by omega
      exact Nat.lt_succ_iff.mp (Nat.lt_of_mul_lt_mul_left less)
    have shown : (t.proc q).mlfqData.currPri ≤ max ((s.proc q).mlfqData.currPri - moves) 0 := pri
    omega

end Run

instance (p : Proc) : Decidable (Waits p) := inferInstanceAs (Decidable (_ ∧ _))

section Idle

/-- The scheduler takes a timer interrupt up to its aging loop. -/
def idleTick : List Stride :=
  .event (.interrupt 0 .timer) :: sections 1 ++ [.sweep] ++ sections 1 ++ [.sweep] ++ sections 2

/-- Some ticks arrive while the scheduler scans. -/
def idleTicks (count : Nat) : List Stride :=
  (List.replicate count (idleTick ++ [.sweep] ++ sections 2)).flatten

/-- The first process uses its slice and yields, and the scheduler starts its scan. -/
def untilYielded : List Stride :=
  sections 1 ++ [.sweep] ++ sections 3 ++ doCall .leave ++ tickTo 3 ++ sections 2

/-- The process waits before and after the stride. -/
def waitsOver (q : Slot) (s : Machine 1) (_ : Stride) (t : Machine 1) : Bool :=
  decide (Waits (s.proc q)) && decide (Waits (t.proc q))

theorem waitsOver_sound (q : Slot) (s : Machine 1) (move : Stride) (t : Machine 1)
    (entry : Machine 1 × CpuEvent 1) (checked : waitsOver q s move t = true)
    (inside : StrideStep s move t entry) : Waits (entry.1.proc q) := by
  simp only [waitsOver, Bool.and_eq_true, decide_eq_true_eq] at checked
  cases move with
  | event event =>
      rw [show entry = (s, event) from inside]
      exact checked.1
  | sweep =>
      rcases inside.1.2.2 q with same | same
      · rw [same]
        exact checked.1
      · rw [same]
        exact checked.2

/-- The first process forks a child and returns to user mode. -/
def untilForked : List Stride := sections 1 ++ [.sweep] ++ sections 3 ++ forkChild 1 ++ doCall .leave

instance (s : Machine 1) : Decidable (InUser s) := inferInstanceAs (Decidable (∃ _, _))

/-- What the runs show in user mode and over thirty ticks. -/
def idleRunShows : Bool :=
  ((strides unchecked (Machine.boot .mlfq 1 0 0, 0) untilForked).any fun forked =>
    decide (InUser forked.1) && decide (Waits (forked.1.proc 1))) &&
  (strides unchecked (Machine.boot .mlfq 1 0 0, 0) untilYielded).any fun start =>
    decide (ageOf start.1.ticks (start.1.proc 0) + 1 < 2 ^ 32) &&
      (start.1.proc 0).mlfqData.currPri == 1 &&
        (strides (waitsOver 0) (start.1, 0) (idleTicks 30)).any fun last =>
          last.2 == 30 && decide (Waits (last.1.proc 0)) && pending 0 (last.1.handler 0) == false

/-- A child is young when its parent is in user mode, and the first process moves up to the first queue
when it waits thirty ticks in the second. -/
theorem aging_prevents_starvation_first :
    (∃ u : Machine 1, Reachable (fun s => s.Step .mlfq) (.boot .mlfq 1 0 0) u ∧ InUser u ∧
      Waits (u.proc 1) ∧ ageOf u.ticks (u.proc 1) < agingTime) ∧
    ∃ (s t : Machine 1) (rest : List (Machine 1 × CpuEvent 1)),
      Reachable (fun s => s.Step .mlfq) (.boot .mlfq 1 0 0) s ∧ Run (fun s => s.Step .mlfq) s rest t ∧
      (s.proc 0).mlfqData.currPri = 1 ∧ tickCount rest = 30 ∧ (t.proc 0).mlfqData.currPri ≤ 0 := by
  have shows : idleRunShows = true := by decide +kernel
  obtain ⟨forks, shows⟩ := Bool.and_eq_true_iff.mp shows
  obtain ⟨⟨u, _⟩, user, forks⟩ := (Option.any_eq_true _ _).mp forks
  simp only [Bool.and_eq_true, decide_eq_true_eq] at forks
  obtain ⟨inUser, child⟩ := forks
  obtain ⟨⟨s, clock⟩, reached, shows⟩ := (Option.any_eq_true _ _).mp shows
  simp only [Bool.and_eq_true, beq_iff_eq, decide_eq_true_eq] at shows
  obtain ⟨⟨young, pri⟩, shows⟩ := shows
  obtain ⟨⟨t, ticks⟩, waited, shows⟩ := (Option.any_eq_true _ _).mp shows
  simp only [Bool.and_eq_true, beq_iff_eq, decide_eq_true_eq] at shows
  obtain ⟨⟨rfl, still⟩, passed⟩ := shows
  obtain ⟨early, toUser, _⟩ := run_of_unchecked user
  obtain ⟨before, first, _⟩ := run_of_unchecked reached
  obtain ⟨rest, onward, count, waits⟩ :=
    run_of_strides (fun u _ => Waits (u.proc 0)) (waitsOver_sound 0) waited
  refine ⟨⟨u, ⟨early, toUser⟩, inUser, child, (aging_prevents_starvation toUser).1 inUser 1 child⟩, ?_⟩
  have long : agingTime * 1 ≤ tickCount rest := by
    simp only [agingTime]
    omega
  have moved := (aging_prevents_starvation first).2 0 rest t 1 (.inr young) onward waits still passed long
  refine ⟨s, t, rest, ⟨before, first⟩, onward, pri, by omega, ?_⟩
  rw [pri] at moved
  exact moved

end Idle

end Xv6.Cpu
