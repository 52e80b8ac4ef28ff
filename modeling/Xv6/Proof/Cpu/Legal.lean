/-
This file shows when the process states take only legal transitions. The round robin and the
first-come scheduler take no other. The feedback scheduler takes no other in orderly runs.
-/

import Xv6.Proof.Cpu.Invariant

namespace Xv6.Cpu
open TransitionSystem

variable {n : Nat}

/-- The legal transitions of one process, with the code that makes them. -/
inductive Legal (s : Machine n) : CpuEvent n → Slot → ProcState → ProcState → Prop where
  | stay (event : CpuEvent n) (p : Slot) (state : ProcState) : Legal s event p state state
  | fork (c : Fin n) (p : Slot) (memory : Memory) :
      Legal s (.call c (.fork p memory)) p .unused .used
  | ready (c : Fin n) (p parent : Slot) (mode : Mode) :
      s.handler c = none → s.cur c = some parent → (s.thread parent).base = .forking mode p →
      Legal s (.step c) p .used .runnable
  | run (c : Fin n) (p : Slot) :
      s.handler c = none → s.cur c = none → Legal s (.step c) p .runnable .running
  | yield (c : Fin n) (p : Slot) (trap : Trap) (after : AfterYield) :
      s.handler c = some (.yield trap after) → s.cur c = some p →
      Legal s (.step c) p .running .runnable
  | sleep (c : Fin n) (p : Slot) (chan : Chan) :
      s.cur c = some p → Legal s (.call c (.sleep chan)) p .running .sleeping
  | exit (c : Fin n) (p : Slot) (status : CInt) :
      s.cur c = some p → Legal s (.call c (.exit status)) p .running .zombie
  | wakeup (c : Fin n) (p : Slot) (chan : Chan) :
      wakingAt s c = some (chan, p.val) → (s.proc p).chan = some chan →
      Legal s (.step c) p .sleeping .runnable
  | kill (c : Fin n) (p : Slot) : Kills s c p → Legal s (.step c) p .sleeping .runnable
  | wait (c : Fin n) (p : Slot) : Legal s (.call c (.wait p)) p .zombie .unused

section Step

variable {build : Build} {s t : Machine n} {event : CpuEvent n} {act : Act n}

/-- An orderly step of the protocol changes the state of a process legally. -/
theorem legal_of_change {d : Board n} {p : Slot} {before after : ProcState}
    (inv : BoardInv build (board s)) (executes : Executes build s event act)
    (moved : BoardStep build (board s) act d) (orderly : Orderly (board s) act)
    (change : Change act p before after) (old : (s.proc p).state = before) :
    Legal s event p before after := by
  cases change with
  | wake =>
      cases executes with
      | wakeup c _ chan waking asleep => exact .wakeup c p chan waking asleep
      | kill c _ kills => exact .kill c p kills
  | run c =>
      obtain rfl : before = .runnable := old.symm.trans orderly
      cases executes with
      | run _ _ idle current => exact .run c p idle current
  | leave c =>
      cases executes with
      | yield _ _ trap stop position current =>
          obtain rfl : before = .running := old.symm.trans (inv.running c p current)
          exact .yield c p trap stop position current
      | sleep _ _ chan current =>
          obtain rfl : before = .running := old.symm.trans (inv.running c p current)
          exact .sleep c p chan current
      | exit _ _ status current =>
          obtain rfl : before = .running := old.symm.trans (inv.running c p current)
          exact .exit c p status current
  | stray => exact orderly.elim
  | alloc =>
      cases executes with
      | fork c _ _ memory => exact .fork c p memory
  | ready parent =>
      cases executes with
      | ready c _ _ mode idle current position =>
          have made : (board s).making parent = some p := by simp [board, position, makes]
          obtain rfl : before = .used := old.symm.trans (inv.newborn parent p made)
          exact .ready c p parent mode idle current position
  | reap =>
      cases executes with
      | wait c => exact .wait c p

theorem legal_next (before : CpuInv build s) (kept : build = .mlfq → OrderlyStep s event)
    (stepped : s.Step build event t) (p : Slot) :
    Legal s event p (s.proc p).state (t.proc p).state := by
  obtain ⟨act, executes, moved, orderly⟩ := orderly_next before kept stepped
  rcases change_of_step moved p with same | change
  · have kept : (t.proc p).state = (s.proc p).state := same
    rw [kept]
    exact .stay event p _
  · exact legal_of_change before.inv executes moved orderly change rfl

/-- A legal `yield` changes only a running process. -/
theorem legal_yield {c : Fin n} {trap : Trap} {stop : AfterYield} {p : Slot}
    {before after : ProcState} (legal : Legal s (.step c) p before after)
    (position : s.handler c = some (.yield trap stop)) : after = before ∨ before = .running := by
  cases legal with
  | stay => exact .inl rfl
  | yield => exact .inr rfl
  | ready _ _ _ _ idle => simp [position] at idle
  | run _ _ idle => simp [position] at idle
  | wakeup _ _ chan call => simp [wakingAt, waking, position] at call
  | kill _ _ kills =>
      obtain ⟨_, _, idle, _⟩ := kills
      simp [position] at idle

end Step

/-- In every run of the round robin and of the first-come scheduler, and in every orderly run of the
feedback scheduler, each step changes each process legally, and a `yield` changes only a running
process. -/
theorem transitions_legal {build : Build} {table cwd : Uint64} {s : Machine n}
    {trace : List (Machine n × CpuEvent n)}
    (run : Run (fun s => s.Step build) (.boot build n table cwd) trace s)
    (orderly : build = .mlfq → ∀ entry ∈ trace, OrderlyStep entry.1 entry.2)
    (event : CpuEvent n) (t : Machine n) (kept : build = .mlfq → OrderlyStep s event)
    (stepped : s.Step build event t) (p : Slot) :
    Legal s event p (s.proc p).state (t.proc p).state ∧
      ∀ c trap stop, event = .step c → s.handler c = some (.yield trap stop) →
        (s.proc p).state = .sleeping ∨ (s.proc p).state = .zombie →
          (t.proc p).state = (s.proc p).state := by
  have legal := legal_next (cpuInv_run run orderly) kept stepped p
  refine ⟨legal, ?_⟩
  rintro c trap stop rfl position resting
  refine (legal_yield legal position).resolve_right fun running => ?_
  rcases resting with asleep | exited
  · exact absurd (running.symm.trans asleep) (by decide)
  · exact absurd (running.symm.trans exited) (by decide)

/-- The first CPU scans the table and runs the first process. -/
def firstPass : List (CpuEvent 1) := Machine.steps 0 68

/-- A tick moves the first process down one queue, and the handler goes up to `yield`. -/
def firstYield : List (CpuEvent 1) :=
  firstPass ++ [.call 0 .leave, .interrupt 0 .timer] ++ Machine.steps 0 198

/-- The first process yields and runs again until it is back in user space. -/
def firstTick : List (CpuEvent 1) := firstYield ++ Machine.steps 0 73

/-- The first process forks and sleeps. An interrupt arrives before the scheduler has cleared
`c->proc`, and its handler goes up to `yield`. -/
def strayYield : List (CpuEvent 1) :=
  firstTick ++ [.call 0 .enter, .call 0 (.fork 1 ⟨some junkFrame, some 0, true⟩), .step 0,
    .call 0 (.sleep (.proc 0)), .interrupt 0 (.other [])] ++ Machine.steps 0 68

/-- The first process yields legally at its first tick. -/
theorem transitions_legal_first_yield : ∃ t : Machine 1,
    (Machine.play .mlfq firstYield).Step .mlfq (.step 0) t ∧
      ((Machine.play .mlfq firstYield).proc 0).state = .running ∧
      Legal (Machine.play .mlfq firstYield) (.step 0) 0
        ((Machine.play .mlfq firstYield).proc 0).state (t.proc 0).state := by
  obtain ⟨trace, run, orderly⟩ := run_of_events .mlfq firstYield OrderlyStep (by decide +kernel)
  obtain ⟨running, kept, possible⟩ : ((Machine.play .mlfq firstYield).proc 0).state = .running ∧
      OrderlyStep (Machine.play .mlfq firstYield) (.step 0) ∧
      Machine.legal .mlfq (Machine.play .mlfq firstYield) (.step 0) = true := by decide +kernel
  have stepped := Machine.legal_step _ _ possible
  exact ⟨_, stepped, running,
    (transitions_legal run (fun _ => orderly) (.step 0) _ (fun _ => kept) stepped 0).1⟩

/-- A `yield` in `kerneltrap` makes a sleeping process runnable, which is not legal. -/
theorem sleeper_yielded : ∃ s t : Machine 1,
    Reachable (fun s => s.Step .mlfq) (.boot .mlfq 1 0 0) s ∧ s.Step .mlfq (.step 0) t ∧
      s.handler 0 = some (.yield .kernel .leave) ∧ (s.proc 0).state = .sleeping ∧
      (t.proc 0).state = .runnable ∧ ¬ Legal s (.step 0) 0 (s.proc 0).state (t.proc 0).state := by
  obtain ⟨possible, position, asleep, woken⟩ :
      Machine.legal .mlfq (Machine.play .mlfq strayYield) (.step 0) = true ∧
      (Machine.play .mlfq strayYield).handler 0 = some (.yield .kernel .leave) ∧
      ((Machine.play .mlfq strayYield).proc 0).state = .sleeping ∧
      ((Machine.after .mlfq (Machine.play .mlfq strayYield) (.step 0)).proc 0).state = .runnable := by
    decide +kernel
  refine ⟨_, _, reachable_of_events .mlfq strayYield (by decide +kernel),
    Machine.legal_step _ _ possible, position, asleep, woken, fun legal => ?_⟩
  rcases legal_yield legal position with same | running
  · exact (nomatch woken.symm.trans (same.trans asleep))
  · exact (nomatch asleep.symm.trans running)

end Xv6.Cpu
