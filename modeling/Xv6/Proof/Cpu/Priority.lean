/-
This file shows when the feedback scheduler returns from a tick only to a process of the first
nonempty queue. On one CPU this holds when every runnable process is in its queue whenever the kernel
looks at the queues, and no interrupt arrives between the choice of a process and its lock.
-/

import Xv6.Proof.Cpu.Control
import Xv6.Proof.Cpu.Table
import Xv6.Proof.Cpu.Legal

namespace Xv6.Cpu
open TransitionSystem

/-- No other runnable process has a smaller queue number. -/
def Favoured {n : Nat} (s : Machine n) (p : Slot) : Prop :=
  ∀ q, q ≠ p → (s.proc q).state = .runnable →
    (s.proc p).mlfqData.currPri ≤ (s.proc q).mlfqData.currPri

/-- A tick that is about to return to user space returns to a favoured process. -/
def ReturnsFavoured (s : Machine 1) : Prop :=
  ∀ p, s.cur 0 = some p → s.handler 0 = some (.leave .user true) →
    (s.proc p).state = .running → Favoured s p

/-- Every runnable process is in its queue. -/
def Queued {n : Nat} (s : Machine n) : Prop :=
  ∀ q, (s.proc q).state = .runnable → (s.proc q).mlfqData.inQueue = true

instance {n : Nat} (s : Machine n) : Decidable (Queued s) := inferInstanceAs (Decidable (∀ _, _))

/-- The preemption test of `usertrap`. -/
def tests : Option HandlerPc → Bool
  | some (.flag .user _) => true
  | _ => false

/-- The process that the feedback scheduler has chosen and not yet locked. -/
def locking : SchedPc → Option Slot
  | .lockNext p => some p
  | _ => none

/-- Every runnable process is in its queue at the preemption test of `usertrap` and at the scheduler's
choice, and no interrupt arrives between the choice and the lock. -/
def Attentive (s : Machine 1) : CpuEvent 1 → Prop
  | .step c =>
      (tests (s.handler c) = true → Queued s) ∧
        (s.handler c = none → s.cur c = none → (s.sched c).pc = .choose → Queued s)
  | .interrupt c _ => s.cur c = none → locking (s.sched c).pc = none
  | .call _ _ => True

instance (s : Machine 1) (event : CpuEvent 1) : Decidable (Attentive s event) := by
  cases event <;> unfold Attentive <;> infer_instance

/-- No interrupt arrives between the scheduler's choice and its lock. -/
def Unhurried (s : Machine 1) : CpuEvent 1 → Prop
  | .interrupt c _ => s.cur c = none → locking (s.sched c).pc = none
  | _ => True

instance (s : Machine 1) (event : CpuEvent 1) : Decidable (Unhurried s event) := by
  cases event <;> unfold Unhurried <;> infer_instance

theorem Attentive.unhurried {s : Machine 1} {event : CpuEvent 1} (attentive : Attentive s event) :
    Unhurried s event := by
  cases event with
  | interrupt c device => exact attentive
  | _ => trivial

/-- The handler has passed its last test of the queues. -/
def late : Option HandlerPc → Bool
  | some (.killed true) | some (.leave .user true) => true
  | _ => false

/-- The process that the tests of `usertrap` are about. -/
def subject : Option HandlerPc → Option Slot
  | some (.slice .user _ p) | some (.flag .user p) | some (.yield .user (.flag p)) => some p
  | _ => none

/-- The priorities are queue numbers, the tests of `usertrap` are about the thread that runs them, a
chosen process heads the queues, and a process that has passed its tests is favoured. -/
structure PriInv (s : Machine 1) : Prop where
  inRange : ∀ q, InRange (s.proc q)
  owner : ∀ p q, subject (s.thread p).handler = some q → q = p
  chosen : ∀ p, s.cur 0 = none → (s.sched 0).pc = .lockNext p → s.handler 0 = none ∧
    ∀ q, (s.proc q).state = .runnable → (s.proc p).mlfqData.currPri ≤ (s.proc q).mlfqData.currPri
  favoured : ∀ p, s.cur 0 = some p → late (s.handler 0) = true → Favoured s p

section Range

variable {p : Proc}

theorem inRange_push {ticks : Uint} {qnum : Int} (lower : 0 ≤ qnum) (upper : qnum < mlfqNumQueues) :
    InRange (push ticks qnum p) := ⟨lower, upper⟩

theorem inRange_aging {ticks : Uint} (inRange : InRange p) : InRange (aging ticks p) := by
  obtain ⟨lower, upper⟩ := inRange
  unfold aging
  split_ifs
  · exact inRange_push (by omega) (by simp only [mlfqNumQueues] at upper ⊢; omega)
  · exact ⟨lower, upper⟩

theorem inRange_scanSlot {ticks : Uint} (inRange : InRange p) : InRange (scanSlot ticks p) := by
  obtain ⟨lower, upper⟩ := inRange
  unfold scanSlot
  dsimp only
  split_ifs
  · exact inRange_push (by omega) (by simp only [mlfqNumQueues] at upper ⊢; omega)
  all_goals exact ⟨lower, upper⟩

theorem inRange_demote {ticks : Uint} (inRange : InRange p) : InRange (demote ticks p) := by
  obtain ⟨lower, upper⟩ := inRange
  exact inRange_push (by simp only [mlfqNumQueues] at upper ⊢; omega)
    (by simp only [mlfqNumQueues] at upper ⊢; omega)

theorem inRange_updateTime {build : Build} (inRange : InRange p) : InRange (updateTime build p) := by
  unfold updateTime
  cases build <;> dsimp only <;> split_ifs <;> exact inRange

theorem inRange_wakeupSlot {chan : Chan} (inRange : InRange p) : InRange (wakeupSlot chan p) := by
  unfold wakeupSlot
  split_ifs <;> exact inRange

theorem inRange_killSlot (inRange : InRange p) : InRange (killSlot p) := by
  unfold killSlot
  split_ifs <;> exact inRange

theorem inRange_freeproc {build : Build} (inRange : InRange p) : InRange (freeproc build p) := by
  cases build with
  | mlfq => exact ⟨le_refl 0, show (0 : Int) < mlfqNumQueues by decide⟩
  | _ => exact inRange

theorem inRange_forkReady {build : Build} {ticks : Uint} (inRange : InRange p) :
    InRange (forkReady build ticks p) := by
  cases build with
  | mlfq => exact inRange_push (le_refl 0) (by decide)
  | _ => exact inRange

theorem inRange_allocproc {build : Build} {pid : CInt} {ticks : Uint} {page : Option Trapframe}
    {table : Option Uint64} {child after : Proc} (inRange : InRange p)
    (done : allocproc build pid ticks page table p = (some child, after)) : InRange child := by
  cases page with
  | none => simp [allocproc] at done
  | some page =>
      cases table with
      | none => simp [allocproc] at done
      | some table =>
          simp only [allocproc, Prod.mk.injEq, Option.some.injEq] at done
          exact done.1 ▸ inRange

theorem inRange_forkFailed {build : Build} {pid : CInt} {ticks : Uint} {page : Option Trapframe}
    {table : Option Uint64} (inRange : InRange p) :
    InRange (forkFailed build pid ticks page table p) := by
  cases page <;> cases table <;> exact inRange_freeproc inRange

theorem inRange_next {n : Nat} {build : Build} {s t : Machine n} {event : CpuEvent n}
    (inRange : ∀ q, InRange (s.proc q)) (stepped : s.Step build event t) (q : Slot) :
    InRange (t.proc q) := by
  have before := inRange q
  have touched := touch_next stepped q
  generalize t.proc q = record at touched ⊢
  cases touched with
  | same | run | yield | sleep | exit => exact before
  | update => exact inRange_updateTime before
  | wakeup => exact inRange_wakeupSlot before
  | age => exact inRange_aging before
  | scan => exact inRange_scanSlot before
  | demote => exact inRange_demote before
  | kill => exact inRange_killSlot before
  | ready => exact inRange_forkReady before
  | fork p child after memory allocated =>
      have made : InRange child := inRange_allocproc before allocated
      exact made
  | failed => exact inRange_forkFailed before
  | free => exact inRange_freeproc before

end Range

section Step

variable {s t : Machine 1} {event : CpuEvent 1}

/-- A test of `usertrap` is about the process that its handler has read from `c->proc`. -/
theorem subject_flow {build : Build} {first : Bool} {named : Option Slot} {before after : Option HandlerPc} {q : Slot}
    (flow : Flow build first named before after) (about : subject after = some q) :
    named = some q ∨ subject before = some q := by
  cases flow with
  | interrupt trap device =>
      cases device with
      | timer => cases first <;> exact (nomatch about)
      | other chans => cases chans <;> exact (nomatch about)
  | wakeupDone trap timer chan rest i => cases rest <;> exact (nomatch about)
  | devYield trap | flagYield trap p | flagDone trap p => cases trap <;> exact (nomatch about)
  | agingSlice trap timer i p named =>
      cases trap with
      | user => exact .inl (named.trans about)
      | kernel => exact (nomatch about)
  | sliceYield trap timer p | sliceFlag trap timer p => cases trap <;> exact .inr about
  | _ => exact (nomatch about)

theorem subject_resumes {before after : Option HandlerPc} {q : Slot} (resumes : Resumes before after)
    (about : subject after = some q) : subject before = some q := by
  cases resumes with
  | call => exact (nomatch about)
  | yield trap next =>
      cases trap <;> cases next <;> exact about

/-- The tests of `usertrap` stay about the thread that runs them. -/
theorem owner_shift {n : Nat} {build : Build} {k l : Control n} {c : Fin n}
    (named : ∀ p, k.cur c = some p → k.cproc c = some p)
    (owner : ∀ p q, subject (k.hand p) = some q → q = p) (shift : Shift build k c l) :
    ∀ p q, subject (l.hand p) = some q → q = p := by
  have outside : subject none = none := rfl
  cases shift with
  | hand p handler current flow =>
      intro r q about
      by_cases same : r = p
      · subst same
        have here : subject handler = some q := by simpa using about
        rcases subject_flow flow here with read | kept
        · exact Option.some.inj (read.symm.trans (named r current))
        · exact owner r q (by simpa [Control.handler, current] using kept)
      · exact owner r q (by simpa [same] using about)
  | leave p handler _ current resumes =>
      intro r q about
      by_cases same : r = p
      · subst same
        have kept := subject_resumes resumes (by simpa using about)
        exact owner r q (by simpa [Control.handler, current] using kept)
      · exact owner r q (by simpa [same] using about)
  | _ => grind

/-- The feedback scheduler comes to the lock only from its choice. -/
theorem chosen_schedStep {n : Nat} {s t : Machine n} {c : Fin n} {p : Slot} (idle : s.handler c = none)
    (current : s.cur c = none) (moved : s.schedStep .mlfq c = some t)
    (locks : (t.sched c).pc = .lockNext p) :
    (s.sched c).pc = .choose ∧ chooseNext s.proc = some p ∧ t.proc = s.proc ∧ t.handler c = none := by
  unfold Machine.schedStep at moved
  cases position : (s.sched c).pc with
  | choose =>
      simp only [position, Option.some.injEq, Machine.chooseStep] at moved
      cases chosen : chooseNext s.proc with
      | none =>
          simp only [chosen] at moved
          simp [← moved, Machine.goto, Machine.setSched] at locks
      | some q =>
          simp only [chosen] at moved
          obtain rfl : q = p := by simpa [← moved, Machine.goto, Machine.setSched] using locks
          refine ⟨rfl, rfl, moved ▸ rfl, ?_⟩
          simp only [Machine.handler, current] at idle
          simp [← moved, Machine.handler, Machine.goto, Machine.setSched, current, idle]
  | top =>
      simp only [position, Option.some.injEq] at moved
      simp [← moved, Machine.setSched] at locks
  | scan i first =>
      simp only [position, Machine.scanMlfq] at moved
      split at moved
      · simp [← Option.some.inj moved, Machine.goto, Machine.setSched] at locks
      · obtain ⟨u, visited, rfl⟩ := Option.map_eq_some_iff.mp moved
        simp [Machine.goto, Machine.setSched] at locks
  | lockNext q =>
      simp only [position] at moved
      split_ifs at moved
      simp [← Option.some.inj moved, Machine.dispatch] at locks
  | away q i => simp [position] at moved
  | stale q =>
      simp only [position, Option.some.injEq] at moved
      simp [← moved, Machine.goto, Machine.setSched] at locks

/-- The feedback scheduler runs only the process that it has locked. -/
theorem run_schedStep {n : Nat} {s t : Machine n} {c : Fin n} {p : Slot} (current : s.cur c = none)
    (moved : s.schedStep .mlfq c = some t) (runs : t.cur c = some p) :
    (s.sched c).pc = .lockNext p ∧ t = s.dispatch c p 0 := by
  unfold Machine.schedStep at moved
  cases position : (s.sched c).pc with
  | lockNext q =>
      simp only [position] at moved
      split_ifs at moved
      obtain rfl : q = p := by
        simpa [← Option.some.inj moved, Machine.dispatch] using runs
      exact ⟨rfl, (Option.some.inj moved).symm⟩
  | top =>
      simp only [position, Option.some.injEq] at moved
      simp [← moved, Machine.setSched, current] at runs
  | scan i first =>
      simp only [position, Machine.scanMlfq] at moved
      split at moved
      · simp [← Option.some.inj moved, Machine.goto, Machine.setSched, current] at runs
      · obtain ⟨u, visited, rfl⟩ := Option.map_eq_some_iff.mp moved
        obtain ⟨_, rfl⟩ := visit_some visited
        simp [Machine.goto, Machine.setSched, Machine.setProc, current] at runs
  | choose =>
      simp only [position, Option.some.injEq, Machine.chooseStep] at moved
      cases chosen : chooseNext s.proc <;> simp only [chosen] at moved <;>
        simp [← moved, Machine.goto, Machine.setSched, current] at runs
  | away q i => simp [position] at moved
  | stale q =>
      simp only [position, Option.some.injEq] at moved
      simp [← moved, Machine.goto, Machine.setSched, current] at runs

/-- A handler passes its last test after the preemption test, or it has passed it before. -/
theorem late_flow {first : Bool} {named : Option Slot} {before after : Option HandlerPc}
    (flow : Flow .mlfq first named before after) (passed : late after = true) :
    before = some (.killed true) ∨ (∃ q, before = some (.flag .user q)) ∨ named = none := by
  cases flow with
  | interrupt trap device =>
      cases device with
      | timer => cases first <;> exact (nomatch passed)
      | other chans => cases chans <;> exact (nomatch passed)
  | wakeupDone trap timer chan rest i => cases rest <;> exact (nomatch passed)
  | devKilled timer other =>
      rw [other rfl] at passed
      exact (nomatch passed)
  | agingLeave trap timer i unnamed => exact .inr (.inr unnamed)
  | flagDone trap p =>
      cases trap with
      | user => exact .inr (.inl ⟨p, rfl⟩)
      | kernel => exact (nomatch passed)
  | killedLeave timer =>
      cases timer with
      | true => exact .inl rfl
      | false => exact (nomatch passed)
  | _ => exact (nomatch passed)

/-- A scheduler that is at the lock came there in this step or was there before. -/
theorem pass_of_lock {n : Nat} {build : Build} {b d : Board n} {act : Act n} {c : Fin n} {p : Slot}
    (stepped : BoardStep build b act d) (idle : d.cur c = none) (locks : d.pc c = .lockNext p) :
    b.cur c = none ∧ b.pc c = .lockNext p ∨ act = .pass c := by
  cases stepped <;> grind

/-- A CPU leaves its scheduler only to run a process. -/
theorem run_of_cur {n : Nat} {build : Build} {b d : Board n} {act : Act n} {c : Fin n} {p : Slot}
    (stepped : BoardStep build b act d) (idle : b.cur c = none) (runs : d.cur c = some p) :
    act = .run c p := by
  cases stepped <;> grind

/-- A scheduler at the lock takes no step but the one that runs the process. -/
theorem locked_next {p : Slot} (quiet : Unhurried s event) (idle : s.handler 0 = none)
    (current : s.cur 0 = none) (locks : (s.sched 0).pc = .lockNext p)
    (stepped : s.Step .mlfq event t) : t.cur 0 = some p := by
  unfold Machine.Step Machine.next at stepped
  cases event with
  | step c =>
      obtain rfl : c = 0 := Subsingleton.elim c 0
      simp only [idle, current, Machine.schedStep, locks] at stepped
      split_ifs at stepped
      simp [← Option.some.inj stepped, Machine.dispatch]
  | interrupt c device =>
      obtain rfl : c = 0 := Subsingleton.elim c 0
      have released := quiet current
      simp [locks, locking] at released
  | call c call =>
      obtain rfl : c = 0 := Subsingleton.elim c 0
      simp [idle, current] at stepped

/-- A scheduler that comes to the lock has just chosen the process. -/
theorem chosen_of_lock (wired : Wired .mlfq s) (quiet : Unhurried s event) (stepped : s.Step .mlfq event t) {p : Slot}
    (settled : s.cur 0 = none → (s.sched 0).pc = .lockNext p → s.handler 0 = none) (idle : t.cur 0 = none)
    (locks : (t.sched 0).pc = .lockNext p) :
    event = .step 0 ∧ s.handler 0 = none ∧ s.cur 0 = none ∧ (s.sched 0).pc = .choose ∧
      chooseNext s.proc = some p ∧ t.proc = s.proc ∧ t.handler 0 = none := by
  obtain ⟨act, executes, moved⟩ := follows_next wired.calm wired.seated stepped
  rcases pass_of_lock moved idle locks with ⟨current, before⟩ | rfl
  · have running := locked_next quiet (settled current before) current before stepped
    exact (nomatch idle.symm.trans running)
  · cases executes with
    | pass _ free current =>
        have scheduled : s.schedStep .mlfq 0 = some t := by
          simpa [Machine.Step, Machine.next, free, current] using stepped
        exact ⟨rfl, free, current, chosen_schedStep free current scheduled locks⟩

theorem chosen_next (inv : PriInv s) (wired : Wired .mlfq s) (attentive : Attentive s event)
    (stepped : s.Step .mlfq event t) {p : Slot} (idle : t.cur 0 = none)
    (locks : (t.sched 0).pc = .lockNext p) :
    t.handler 0 = none ∧ ∀ q, (t.proc q).state = .runnable →
      (t.proc p).mlfqData.currPri ≤ (t.proc q).mlfqData.currPri := by
  obtain ⟨rfl, free, current, position, chosen, same, quiet⟩ := chosen_of_lock wired attentive.unhurried stepped
    (fun current before => (inv.chosen p current before).1) idle locks
  refine ⟨quiet, fun q runnable => ?_⟩
  rw [same] at runnable ⊢
  exact chooseNext_least chosen inv.inRange (attentive.2 free current position) runnable

/-- The process that the scheduler runs is favoured. -/
theorem favoured_run (inv : PriInv s) (wired : Wired .mlfq s) (stepped : s.Step .mlfq event t)
    {p : Slot} (idle : s.cur 0 = none) (runs : t.cur 0 = some p) : Favoured t p := by
  obtain ⟨act, executes, moved⟩ := follows_next wired.calm wired.seated stepped
  obtain rfl := run_of_cur moved idle runs
  cases executes with
  | run _ _ free current =>
      have scheduled : s.schedStep .mlfq 0 = some t := by
        simpa [Machine.Step, Machine.next, free, current] using stepped
      obtain ⟨locks, rfl⟩ := run_schedStep current scheduled runs
      intro q different runnable
      have same : (s.dispatch 0 p 0).proc q = s.proc q := by simp [Machine.dispatch, different]
      rw [same] at runnable ⊢
      have least := (inv.chosen p current locks).2 q runnable
      simpa [Machine.dispatch] using least

/-- The last sections of a tick keep the table, and pass the preemption test only when it fails. -/
theorem late_step {p : Slot} (inv : PriInv s) (attentive : Attentive s (.step 0))
    (current : s.cur 0 = some p) (stepped : s.Step .mlfq (.step 0) t)
    (passed : late (t.handler 0) = true)
    (before : s.handler 0 = some (.killed true) ∨ ∃ q, s.handler 0 = some (.flag .user q)) :
    Favoured t p := by
  unfold Machine.Step Machine.next at stepped
  rcases before with killed | ⟨q, flag⟩
  · simp only [killed] at stepped
    have same : t.proc = s.proc := proc_checkKilled stepped
    have favoured := inv.favoured p current (by rw [killed]; rfl)
    unfold Favoured at favoured ⊢
    rwa [same]
  · simp only [flag, Machine.handlerStep] at stepped
    have mine : q = p := inv.owner p q (by
      simp only [Machine.handler, current] at flag
      rw [flag]
      rfl)
    subst mine
    split_ifs at stepped with preempts
    · rw [← Option.some.inj stepped, handler_setHandler] at passed
      cases passed
    · have same : t.proc = s.proc := (Option.some.inj stepped) ▸ proc_setHandler s 0 _
      intro r different runnable
      rw [same] at runnable ⊢
      exact preemptFlag_false (Bool.eq_false_iff.mpr preempts) inv.inRange
        (attentive.1 (by rw [flag]; rfl)) runnable

/-- A thread that has passed its last test is new on its CPU, or it passed the test there. -/
theorem late_shift {n : Nat} {k l : Control n} {c : Fin n} {p : Slot} (shift : Shift .mlfq k c l)
    (named : ∀ p, k.cur c = some p → k.cproc c = some p) (runs : l.cur c = some p)
    (passed : late (l.handler c) = true) :
    k.cur c = none ∨ k.cur c = some p ∧
      (k.handler c = some (.killed true) ∨ ∃ q, k.handler c = some (.flag .user q)) := by
  have outside : late none = false := rfl
  cases shift with
  | hand q handler current flow =>
      obtain rfl : q = p := Option.some.inj (current.symm.trans runs)
      refine .inr ⟨current, ?_⟩
      have here : late handler = true := by simpa [Control.handler, current] using passed
      rcases late_flow flow here with killed | flag | unnamed
      · exact .inl killed
      · exact .inr flag
      · exact (nomatch unnamed.symm.trans (named q current))
  | _ => grind [Control.handler]

theorem favoured_next (inv : PriInv s) (wired : Wired .mlfq s) (attentive : Attentive s event)
    (stepped : s.Step .mlfq event t) {p : Slot} (runs : t.cur 0 = some p)
    (passed : late (t.handler 0) = true) : Favoured t p := by
  have first : event.cpu = 0 := Subsingleton.elim _ 0
  have shift := shift_next wired.seated stepped
  rw [first] at shift
  rcases late_shift shift (wired.seated.named 0) runs passed with idle | ⟨current, before⟩
  · exact favoured_run inv wired stepped idle runs
  · have code : event = .step 0 := by
      have busy : ∃ pc, s.handler event.cpu = some pc := by
        rw [first]
        exact before.elim (fun killed => ⟨_, killed⟩) fun ⟨_, flag⟩ => ⟨_, flag⟩
      obtain ⟨pc, position⟩ := busy
      rw [event_of_handler position stepped, first]
    subst code
    exact late_step inv attentive current stepped passed before

theorem priInv_step (inv : PriInv s) (wired : Wired .mlfq s) (attentive : Attentive s event)
    (stepped : s.Step .mlfq event t) : PriInv t where
  inRange := inRange_next inv.inRange stepped
  owner := owner_shift (wired.seated.named event.cpu) inv.owner (shift_next wired.seated stepped)
  chosen := fun _ idle locks => chosen_next inv wired attentive stepped idle locks
  favoured := fun _ runs passed => favoured_next inv wired attentive stepped runs passed

theorem priInv_boot (table cwd : Uint64) : PriInv (Machine.boot .mlfq 1 table cwd) where
  inRange := fun q => by
    by_cases first : q = 0
    · subst first
      exact ⟨le_refl 0, show (0 : Int) < mlfqNumQueues by decide⟩
    · have zero : (Machine.boot .mlfq 1 table cwd).proc q = Proc.zero := by
        simp [Machine.boot, bootTable, first]
      rw [zero]
      exact ⟨le_refl 0, show (0 : Int) < mlfqNumQueues by decide⟩
  owner := nofun
  chosen := nofun
  favoured := nofun

end Step

/-- In every attentive run of the feedback scheduler on one CPU, a tick returns to user space only
when no other runnable process has a smaller queue number. -/
theorem tick_returns_favoured {table cwd : Uint64} {s : Machine 1}
    {trace : List (Machine 1 × CpuEvent 1)}
    (run : Run (fun s => s.Step .mlfq) (.boot .mlfq 1 table cwd) trace s)
    (attentive : ∀ entry ∈ trace, Attentive entry.1 entry.2) : ReturnsFavoured s := by
  have keeps : ∀ (s : Machine 1) (event : CpuEvent 1) (t : Machine 1), Attentive s event →
      Wired .mlfq s ∧ PriInv s → s.Step .mlfq event t → Wired .mlfq t ∧ PriInv t :=
    fun s event t allowed before stepped =>
      ⟨wired_step before.1 stepped, priInv_step before.2 before.1 allowed stepped⟩
  have inv := (run.invariant Attentive keeps attentive
    ⟨wired_boot .mlfq 1 table cwd, priInv_boot table cwd⟩).2
  intro p current position _
  exact inv.favoured p current (by rw [position]; rfl)

/-- The first process makes a child and moves down one queue. The child starts to run. -/
def childStarts : List (CpuEvent 1) :=
  firstPass ++ [.call 0 (.fork 1 ⟨some junkFrame, some 0, true⟩), .step 0, .call 0 .leave,
    .interrupt 0 .timer] ++ Machine.steps 0 268

/-- The child moves down too, and the tick returns to the first process. -/
def childWaits : List (CpuEvent 1) :=
  childStarts ++ [.call 0 .leave, .interrupt 0 .timer] ++ Machine.steps 0 270

/-- The child sleeps until the next tick, which wakes it and returns to the first process. -/
def childWakes : List (CpuEvent 1) :=
  childStarts ++ [.call 0 (.sleep .ticks)] ++ Machine.steps 0 72 ++ [.interrupt 0 .timer] ++ Machine.steps 0 200

/-- A tick returns to the first process while its child is runnable in the same queue. -/
theorem tick_returns_favoured_child :
    ((Machine.play .mlfq childWaits).cur 0 = some 0 ∧
        (Machine.play .mlfq childWaits).handler 0 = some (.leave .user true) ∧
        ((Machine.play .mlfq childWaits).proc 0).state = .running ∧
        ((Machine.play .mlfq childWaits).proc 1).state = .runnable) ∧
      ReturnsFavoured (Machine.play .mlfq childWaits) := by
  obtain ⟨trace, run, attentive⟩ := run_of_events .mlfq childWaits Attentive (by decide +kernel)
  exact ⟨by decide +kernel, tick_returns_favoured run attentive⟩

/-- A tick returns to a process in the second queue while a process that it woke is runnable in the
first. -/
theorem tick_passes_over_woken : ∃ s : Machine 1,
    Reachable (fun s => s.Step .mlfq) (.boot .mlfq 1 0 0) s ∧ ¬ ReturnsFavoured s := by
  refine ⟨Machine.play .mlfq childWakes, reachable_of_events .mlfq childWakes (by decide +kernel), ?_⟩
  intro favoured
  have facts : (Machine.play .mlfq childWakes).cur 0 = some 0 ∧
      (Machine.play .mlfq childWakes).handler 0 = some (.leave .user true) ∧
      ((Machine.play .mlfq childWakes).proc 0).state = .running ∧
      ((Machine.play .mlfq childWakes).proc 1).state = .runnable ∧
      ¬ ((Machine.play .mlfq childWakes).proc 0).mlfqData.currPri ≤
        ((Machine.play .mlfq childWakes).proc 1).mlfqData.currPri := by decide +kernel
  generalize Machine.play .mlfq childWakes = s at favoured facts
  obtain ⟨current, returns, running, woken, above⟩ := facts
  exact above (favoured 0 current returns running 1 (by decide) woken)

end Xv6.Cpu
