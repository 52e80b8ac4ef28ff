/-
This file gives the feedback queues and the per-slot bodies of the kernel's table loops.
A body acts on one record while that record's lock is held.
-/

import Xv6.Kernel.Proc

namespace Xv6

/-- `push` puts a process at the end of a queue. -/
def push (ticks : Uint) (qnum : Int) (p : Proc) : Proc :=
  { p with mlfqData := { p.mlfqData with
      currPri := qnum
      inQueue := true
      intime := ticks
      wtime := 0
      numTicks := 0 } }

/-- `remove` takes a process out of its queue and keeps its priority. -/
def remove (p : Proc) : Proc :=
  { p with mlfqData := { p.mlfqData with
      inQueue := false
      wtime := 0
      numTicks := 0
      intime := 0 } }

/-- A candidate of `topmost` is a queued runnable process with the given priority. -/
def queuedAt (p : Proc) (qnum : Int) : Bool :=
  p.mlfqData.inQueue && p.mlfqData.currPri == qnum && p.state == .runnable

/-- One iteration of `topmost` keeps the earliest insertion time. -/
def topmostStep (proc : Slot → Proc) (qnum : Int) (first : Option Slot) (i : Slot) : Option Slot :=
  if queuedAt (proc i) qnum then
    match first with
    | none => some i
    | some f => if (proc i).mlfqData.intime < (proc f).mlfqData.intime then some i else some f
  else first

/-- `topmost` returns the head of one queue. -/
def topmost (proc : Slot → Proc) (qnum : Int) : Option Slot :=
  (List.finRange nproc).foldl (topmostStep proc qnum) none

/-- The feedback scheduler takes the head of the first queue that is not empty. -/
def chooseNext (proc : Slot → Proc) : Option Slot :=
  [0, 1, 2, 3].findSome? (topmost proc)

/-- The aging test of both trap handlers and of the scheduler. -/
def agingDue (ticks : Uint) (p : Proc) : Bool :=
  agingTime ≤ (ticks - p.mlfqData.intime).toNat && p.mlfqData.inQueue && p.state == .runnable

/-- The aging loop moves a waiting process up one queue. -/
def aging (ticks : Uint) (p : Proc) : Proc :=
  if agingDue ticks p then push ticks (max (p.mlfqData.currPri - 1) 0) (remove p) else p

/-- The scheduler's scan ages a process, or inserts or removes it. -/
def scanSlot (ticks : Uint) (p : Proc) : Proc :=
  if agingDue ticks p then push ticks (max (p.mlfqData.currPri - 1) 0) (remove p)
  else
    let inserted := if p.state = .runnable ∧ p.mlfqData.inQueue = false then
      push ticks p.mlfqData.currPri p else p
    if inserted.state = .zombie ∨ inserted.state = .sleeping then remove inserted else inserted

/-- The trap handlers give each queue its own time slice. -/
def sliceTicks (pri : Int) : Nat :=
  if pri = 1 then mlfqTicks1
  else if pri = 2 then mlfqTicks2
  else if pri = 3 then mlfqTicks3
  else mlfqTicks0

/-- The slice test of both trap handlers. -/
def sliceUsed (p : Proc) : Bool :=
  p.state == .running && decide (sliceTicks p.mlfqData.currPri ≤ p.mlfqData.numTicks.toNat)

/-- A process that used its slice moves down one queue. -/
def demote (ticks : Uint) (p : Proc) : Proc :=
  push ticks (min (p.mlfqData.currPri + 1) (mlfqNumQueues - 1)) (remove p)

/-- The preemption test looks for a queued process with a smaller queue number. -/
def preemptFlag (proc : Slot → Proc) (pri : Int) : Bool :=
  (List.range pri.toNat).any fun i => (List.finRange nproc).any fun q => queuedAt (proc q) i

/-- `update_time` charges one tick to one process. -/
def updateTime (build : Build) (p : Proc) : Proc :=
  if p.state = .running then
    let charged := { p with rtime := p.rtime + 1 }
    match build with
    | .mlfq => { charged with mlfqData := { p.mlfqData with numTicks := p.mlfqData.numTicks + 1 } }
    | _ => charged
  else
    match build with
    | .mlfq =>
        if p.state = .sleeping ∨ p.state = .runnable then
          { p with mlfqData := { p.mlfqData with wtime := p.mlfqData.wtime + 1 } }
        else p
    | _ => p

/-- `wakeup` makes one sleeper on its channel runnable. -/
def wakeupSlot (chan : Chan) (p : Proc) : Proc :=
  if p.state = .sleeping ∧ p.chan = some chan then { p with state := .runnable } else p

/-- `kill` marks the process with the given pid and ends its sleep. -/
def killSlot (p : Proc) : Proc :=
  if p.state = .sleeping then { p with killed := true, state := .runnable }
  else { p with killed := true }

section Frames

variable (ticks : Uint) (qnum : Int) (p : Proc)

@[simp] theorem push_state : (push ticks qnum p).state = p.state := rfl

@[simp] theorem push_chan : (push ticks qnum p).chan = p.chan := rfl

@[simp] theorem push_currPri : (push ticks qnum p).mlfqData.currPri = qnum := rfl

@[simp] theorem push_inQueue : (push ticks qnum p).mlfqData.inQueue = true := rfl

@[simp] theorem remove_state : (remove p).state = p.state := rfl

@[simp] theorem remove_chan : (remove p).chan = p.chan := rfl

@[simp] theorem remove_currPri : (remove p).mlfqData.currPri = p.mlfqData.currPri := rfl

@[simp] theorem aging_state : (aging ticks p).state = p.state := by
  unfold aging
  split <;> rfl

@[simp] theorem aging_chan : (aging ticks p).chan = p.chan := by
  unfold aging
  split <;> rfl

@[simp] theorem scanSlot_state : (scanSlot ticks p).state = p.state := by
  unfold scanSlot
  dsimp only
  split_ifs <;> rfl

@[simp] theorem scanSlot_chan : (scanSlot ticks p).chan = p.chan := by
  unfold scanSlot
  dsimp only
  split_ifs <;> rfl

@[simp] theorem updateTime_state (build : Build) : (updateTime build p).state = p.state := by
  unfold updateTime
  cases build <;> dsimp only <;> split_ifs <;> rfl

@[simp] theorem updateTime_chan (build : Build) : (updateTime build p).chan = p.chan := by
  unfold updateTime
  cases build <;> dsimp only <;> split_ifs <;> rfl

@[simp] theorem updateTime_inQueue (build : Build) :
    (updateTime build p).mlfqData.inQueue = p.mlfqData.inQueue := by
  unfold updateTime
  cases build <;> dsimp only <;> split_ifs <;> rfl

@[simp] theorem updateTime_intime (build : Build) :
    (updateTime build p).mlfqData.intime = p.mlfqData.intime := by
  unfold updateTime
  cases build <;> dsimp only <;> split_ifs <;> rfl

@[simp] theorem wakeupSlot_mlfqData (chan : Chan) : (wakeupSlot chan p).mlfqData = p.mlfqData := by
  unfold wakeupSlot
  split_ifs <;> rfl

/-- `wakeup` makes no process running. -/
@[simp] theorem wakeupSlot_running (chan : Chan) :
    (wakeupSlot chan p).state = .running ↔ p.state = .running := by
  unfold wakeupSlot
  split_ifs with asleep
  · simp [asleep.1]
  · rfl

@[simp] theorem killSlot_running : (killSlot p).state = .running ↔ p.state = .running := by
  unfold killSlot
  split_ifs with asleep
  · simp [asleep]
  · rfl

@[simp] theorem killSlot_mlfqData : (killSlot p).mlfqData = p.mlfqData := by
  unfold killSlot
  split_ifs <;> rfl

@[simp] theorem demote_state : (demote ticks p).state = p.state := rfl

@[simp] theorem demote_chan : (demote ticks p).chan = p.chan := rfl

/-- The aging loops pass over a process that is not due. -/
theorem aging_of_not_due {p : Proc} {ticks : Uint} (early : agingDue ticks p = false) :
    aging ticks p = p := by
  simp [aging, early]

theorem agingDue_iff {p : Proc} {ticks : Uint} :
    agingDue ticks p = true ↔ agingTime ≤ (ticks - p.mlfqData.intime).toNat ∧
      p.mlfqData.inQueue = true ∧ p.state = .runnable := by
  simp [agingDue, and_assoc]

theorem agingDue_of_state {p : Proc} {ticks : Uint} (busy : p.state ≠ .runnable) :
    agingDue ticks p = false := by
  simp [agingDue, busy]

end Frames

end Xv6
