/-
This file lists what one step of the machine of the CPUs can do to one record of the process table.
-/

import Xv6.Proof.Cpu.Refinement

namespace Xv6.Cpu

variable {n : Nat}

/-- The records that a step can leave in one slot. -/
inductive Touch (build : Build) (s : Machine n) (q : Slot) : Proc → Prop where
  | same : Touch build s q (s.proc q)
  | update : Touch build s q (updateTime build (s.proc q))
  | wakeup (chan : Chan) : Touch build s q (wakeupSlot chan (s.proc q))
  | age : Touch build s q (aging s.ticks (s.proc q))
  | scan : Touch build s q (scanSlot s.ticks (s.proc q))
  | demote : Touch build s q (demote s.ticks (s.proc q))
  | kill : Touch build s q (killSlot (s.proc q))
  | run : Touch build s q { s.proc q with state := .running, chan := none }
  | yield : Touch build s q { s.proc q with state := .runnable }
  | sleep (chan : Chan) : Touch build s q { s.proc q with state := .sleeping, chan := some chan }
  | exit (status : CInt) : Touch build s q (exitZombie s.ticks status (s.proc q))
  | ready (p : Slot) : Touch build s q (forkReady build s.ticks (forkParent p (s.proc q)))
  | fork (p : Slot) (child after : Proc) (memory : Memory) :
      allocproc build s.nextpid s.ticks memory.page memory.table (s.proc q) = (some child, after) →
      Touch build s q (forkCopy (s.proc p) child)
  | failed (memory : Memory) :
      Touch build s q (forkFailed build s.nextpid s.ticks memory.page memory.table (s.proc q))
  | free : Touch build s q (freeproc build (s.proc q))

section View

variable (s : Machine n)

@[simp] theorem proc_setHandler (c : Fin n) (handler : Option HandlerPc) :
    (s.setHandler c handler).proc = s.proc := by
  unfold Machine.setHandler
  cases s.cur c <;> rfl

@[simp] theorem proc_swtch (build : Build) (c : Fin n) (ie : Bool) :
    (s.swtch build c ie).proc = s.proc := by
  unfold Machine.swtch
  split <;> rfl

/-- The test of `killed` keeps the table. -/
theorem proc_checkKilled {build : Build} {s t : Machine n} {c : Fin n} {timer : Bool}
    (checked : s.checkKilled build c timer = some t) : t.proc = s.proc := by
  unfold Machine.checkKilled at checked
  cases current : s.cur c with
  | none => simp [current] at checked
  | some p =>
      simp only [current] at checked
      split_ifs at checked
      · exact (Option.some.inj checked) ▸ rfl
      all_goals exact (Option.some.inj checked) ▸ proc_setHandler s c _

end View

section Step

variable {build : Build} {s t : Machine n}

/-- A step that writes one record touches no other. -/
theorem touch_set {j : Slot} {record : Proc} (touched : Touch build s j record)
    (written : t.proc = Function.update s.proc j record) (q : Slot) : Touch build s q (t.proc q) := by
  rw [written]
  by_cases same : q = j
  · subst same
    rwa [Function.update_self]
  · rw [Function.update_of_ne same]
    exact .same

theorem touch_visit {named : Option Slot} {pc after : HandlerPc} {j : Slot} {body : Proc → Proc}
    (visited : Visit build named s.ticks pc j body after) : Touch build s j (body (s.proc j)) := by
  cases visited with
  | call chan => exact .wakeup chan
  | update trap => exact .update
  | wakeup trap timer chan => exact .wakeup chan
  | aging trap timer => exact .age

/-- Every step leaves each slot with one of the listed records. -/
theorem touch_next {event : CpuEvent n} (stepped : s.Step build event t) (q : Slot) :
    Touch build s q (t.proc q) := by
  have same {u : Machine n} (kept : u.proc = s.proc) : Touch build s q (u.proc q) := by
    rw [kept]
    exact .same
  cases move_next stepped with
  | interrupt c device trap | wakeup c p mode chan => exact same (proc_setHandler s c _)
  | turn c pc handler => exact same (proc_setHandler s c handler)
  | tick c trap => exact same (proc_setHandler _ c _)
  | visit c pc after j body position visited =>
      exact touch_set (touch_visit visited) (proc_setHandler _ c _) q
  | demote c trap p => exact touch_set .demote (proc_setHandler _ c _) q
  | yield c p r trap after =>
      exact touch_set .yield ((proc_swtch _ build c false).trans (proc_setHandler _ c _)) q
  | stray c p trap after => exact touch_set .yield (proc_swtch _ build c false) q
  | scan c j first => exact touch_set .scan rfl q
  | run c p i => exact touch_set .run rfl q
  | kill c p j mode => exact touch_set .kill rfl q
  | ready c p np mode => exact touch_set (.ready p) rfl q
  | sleep c p mode chan => exact touch_set (.sleep chan) (proc_swtch _ build c mode.ie) q
  | exit c p mode status => exact touch_set (.exit status) (proc_swtch _ build c mode.ie) q
  | fork c p np mode memory child after idle current position unused unlocked allocated =>
      exact touch_set (.fork p child after memory allocated) rfl q
  | forkFailed c p np memory => exact touch_set (.failed memory) rfl q
  | wait c p child => exact touch_set .free rfl q
  | dying | top | pass | clear | goes | calls => exact same rfl

end Step

end Xv6.Cpu
