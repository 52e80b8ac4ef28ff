import Xv6.Proof.Alarm.Monitor

namespace Xv6.Alarm
open TransitionSystem

/-- The record keeps its saved frame and its alarm settings. -/
structure AlarmKept (p q : Proc) : Prop where
  backup : q.trapBackup = p.trapBackup
  running : q.sigalarmRunning = p.sigalarmRunning
  nticks : q.sigalarmNticks = p.sigalarmNticks
  elapsed : q.ticksElapsed = p.ticksElapsed

theorem AlarmKept.refl (p : Proc) : AlarmKept p p := ⟨rfl, rfl, rfl, rfl⟩

/-- The record keeps its state and the presence of its trapframe. -/
structure FrameKept (p q : Proc) : Prop where
  state : q.state = p.state
  frame : q.trapframe.isSome = p.trapframe.isSome

theorem FrameKept.refl (p : Proc) : FrameKept p p := ⟨rfl, rfl⟩

/-- Everything that one step can do to one slot and to its history. The proposition says that the
step is a timer interrupt of this slot. -/
inductive Change (timer : Prop) (user : UserRegs) (p q : Proc) (active : Option UserRegs)
    (armed : Option (Int × Nat)) : Option UserRegs → Option (Int × Nat) → Prop where
  | keep : AlarmKept p q → FrameKept p q → Change timer user p q active armed active armed
  | die : AlarmKept p q → q.state = .zombie → Change timer user p q active armed active armed
  | divert {frame : Trapframe} : timer → Live p → diverts p → FrameKept p q →
      q.trapBackup = some frame → userret frame = user → q.sigalarmRunning = true →
      Change timer user p q active armed (some user) none
  | count : timer → ¬ diverts p → FrameKept p q →
      AlarmKept { p with ticksElapsed := p.ticksElapsed + 1 } q →
      Change timer user p q active armed active (armed.map fun count => (count.1, count.2 + 1))
  | arm : accepted user → FrameKept p q → q.trapBackup = p.trapBackup →
      q.sigalarmNticks = interval user → q.sigalarmRunning = false → q.ticksElapsed = 0 →
      Change timer user p q active armed active
        (if active.isSome then some ((interval user).toInt, 0) else armed)
  | restore : FrameKept p q → q.trapBackup = none → Change timer user p q active armed none none
  | born : p.state = .unused → Live q → q.trapframe.isSome → q.trapBackup = p.trapBackup →
      Change timer user p q active armed active armed
  | unborn : p.state = .unused → q.state = .unused → q.trapBackup = none →
      Change timer user p q active armed active armed
  | free : q.state = .unused → q.trapBackup = none → Change timer user p q active armed none none

/-- The end of a trap changes nothing that the alarm code looks at. -/
theorem leave_kept (entry : KernelEntry) (p : Proc) :
    AlarmKept p (leave entry p) ∧ FrameKept p (leave entry p) :=
  ⟨⟨rfl, rfl, rfl, rfl⟩, ⟨rfl, by simp [leave]⟩⟩

/-- A trap that ends with a system-call result changes nothing that the alarm code looks at. -/
theorem stored_kept (entry : KernelEntry) (value : Uint64) (p : Proc) :
    AlarmKept p (leave entry (storeResult (value, p))) ∧
      FrameKept p (leave entry (storeResult (value, p))) :=
  ⟨⟨rfl, rfl, rfl, rfl⟩, ⟨rfl, by simp [leave, storeResult]⟩⟩

theorem ecall_kept (s : AlarmState) (i : Slot) :
    AlarmKept (s.proc i) (s.ecall i) ∧ FrameKept (s.proc i) (s.ecall i) :=
  ⟨⟨rfl, rfl, rfl, rfl⟩, ⟨rfl, by simp [AlarmState.ecall, AlarmState.enter]⟩⟩

theorem AlarmKept.trans {p q r : Proc} (first : AlarmKept p q) (second : AlarmKept q r) :
    AlarmKept p r :=
  ⟨second.backup.trans first.backup, second.running.trans first.running,
    second.nticks.trans first.nticks, second.elapsed.trans first.elapsed⟩

theorem FrameKept.trans {p q r : Proc} (first : FrameKept p q) (second : FrameKept q r) :
    FrameKept p r :=
  ⟨second.state.trans first.state, second.frame.trans first.frame⟩

/-- A live process is not unused. -/
theorem Live.ne_unused {p : Proc} (live : Live p) : p.state ≠ .unused := by
  rcases live with state | state | state <;> simp [state]

/-- Every live process has a trapframe. -/
def Framed (s : AlarmState) : Prop := ∀ i, Live (s.proc i) → (s.proc i).trapframe.isSome

section Events

variable {build : Build} {w v : Watched} {i : Slot} {entry : KernelEntry}

/-- The change of one slot in one step. -/
abbrev SlotChange (event : AlarmEvent) (w v : Watched) (j : Slot) : Prop :=
  Change (∃ page entry, event = .tick j page entry) (w.sys.user j) (w.sys.proc j) (v.sys.proc j)
    (w.mon.active j) (w.mon.armed j) (v.mon.active j) (v.mon.armed j)

/-- A slot that the step does not touch keeps everything. -/
theorem slotChange_same {event : AlarmEvent} {j : Slot} (proc : v.sys.proc j = w.sys.proc j)
    (active : v.mon.active j = w.mon.active j) (armed : v.mon.armed j = w.mon.armed j) :
    SlotChange event w v j := by
  simp only [SlotChange, proc, active, armed]
  exact .keep (.refl _) (.refl _)

/-- A timer interrupt diverts its process or counts one tick. -/
theorem slotChange_tick {page : Option Trapframe} (framed : Framed w.sys)
    (stepped : w.Step build (.tick i page entry) v) (j : Slot) :
    SlotChange (.tick i page entry) w v j := by
  obtain ⟨⟨live, moved⟩, history⟩ := stepped
  obtain ⟨frame, present⟩ := Option.isSome_iff_exists.mp (framed i live)
  simp only [AlarmState.next, Option.map_eq_some_iff] at moved
  obtain ⟨after, ticked, result⟩ := moved
  by_cases same : j = i
  · subst same
    by_cases due : diverts (w.sys.proc j)
    · rw [alarmTick_divert (by simpa using due) (enter_frame present)] at ticked
      cases page with
      | none => simp at ticked
      | some page =>
          simp only [Option.map_some, Option.some.injEq] at ticked
          simp only [SlotChange, history, Monitor.observe, if_pos due, Function.update_self,
            ← result, resume_self, ← ticked]
          exact .divert ⟨_, _, rfl⟩ live due ⟨rfl, by simp [leave, present]⟩ rfl rfl rfl
    · rw [alarmTick_quiet (by simpa using due), Option.some.injEq] at ticked
      simp only [SlotChange, history, Monitor.observe, if_neg due, Function.update_self,
        ← result, resume_self, ← ticked]
      exact .count ⟨_, _, rfl⟩ due ⟨rfl, by simp [leave, AlarmState.enter]⟩ ⟨rfl, rfl, rfl, rfl⟩
  · refine slotChange_same (by simp [← result, same]) ?_ ?_ <;>
      simp only [history, Monitor.observe] <;> split_ifs <;> simp [same]

/-- `sigalarm` sets the alarm of the caller or changes nothing. -/
theorem slotChange_sigalarm (framed : Framed w.sys) (stepped : w.Step build (.sigalarm i entry) v)
    (j : Slot) : SlotChange (.sigalarm i entry) w v j := by
  obtain ⟨⟨⟨live, _⟩, moved⟩, history⟩ := stepped
  obtain ⟨frame, present⟩ := Option.isSome_iff_exists.mp (framed i live)
  obtain ⟨value, after, result, state, framed', backup, accept, reject⟩ := sysSigalarm_spec present
  simp only [AlarmState.next, result, Option.map_some, Option.some.injEq] at moved
  obtain ⟨kept, frames⟩ := stored_kept entry value after
  by_cases same : j = i
  · subst same
    have framesAll : FrameKept (w.sys.proc j) (leave entry (storeResult (value, after))) :=
      ⟨state, by rw [frames.frame, framed', present]; rfl⟩
    by_cases ok : accepted (w.sys.user j)
    · obtain ⟨nticks, running, elapsed⟩ := accept ok
      have change : Change (∃ page entry', AlarmEvent.sigalarm j entry = .tick j page entry')
          (w.sys.user j) (w.sys.proc j) (leave entry (storeResult (value, after)))
          (w.mon.active j) (w.mon.armed j) (w.mon.active j)
          (if (w.mon.active j).isSome then some ((interval (w.sys.user j)).toInt, 0)
            else w.mon.armed j) :=
        .arm ok framesAll backup nticks running elapsed
      simp only [SlotChange, history, Monitor.observe, ← moved, resume_self]
      split_ifs with counted
      · simpa [counted.2] using change
      · simpa [show ¬ (w.mon.active j).isSome = true from fun held => counted ⟨ok, held⟩] using change
    · have unchanged := ecall_kept w.sys j
      rw [← reject ok] at unchanged
      simp only [SlotChange, history, Monitor.observe, ← moved, resume_self]
      rw [if_neg fun counted => ok counted.1]
      exact .keep (unchanged.1.trans kept) framesAll
  · refine slotChange_same (by simp [← moved, same]) ?_ ?_ <;>
      simp only [history, Monitor.observe] <;> split_ifs <;> simp [same]

/-- `sigreturn` clears the saved frame of the caller. -/
theorem slotChange_sigreturn (framed : Framed w.sys)
    (stepped : w.Step build (.sigreturn i entry) v) (j : Slot) :
    SlotChange (.sigreturn i entry) w v j := by
  obtain ⟨⟨⟨live, _⟩, moved⟩, history⟩ := stepped
  have framed' := framed i live
  simp only [AlarmState.next, Option.map_eq_some_iff] at moved
  obtain ⟨result, called, moved⟩ := moved
  obtain ⟨saved, present⟩ : ∃ saved, (w.sys.proc i).trapBackup = some saved := by
    cases present : (w.sys.proc i).trapBackup with
    | none => simp [sysSigreturn_none.mpr present] at called
    | some saved => exact ⟨saved, rfl⟩
  obtain ⟨after, value, state, frame, backup, _⟩ := sysSigreturn_spec present
  obtain rfl : (saved.regs .a0, after) = result := Option.some.inj (value.symm.trans called)
  obtain ⟨kept, frames⟩ := stored_kept entry (saved.regs .a0) after
  by_cases same : j = i
  · subst same
    simp only [SlotChange, history, Monitor.observe, Function.update_self, ← moved, resume_self]
    exact .restore ⟨state, by rw [frames.frame, frame, framed']; rfl⟩ backup
  · exact slotChange_same (by simp [← moved, same]) (by simp [history, Monitor.observe, same])
      (by simp [history, Monitor.observe, same])

/-- A call that writes the record of one other slot and returns a value. -/
theorem slotChange_call {event : AlarmEvent} {child : Slot} {base : AlarmState} {value : Uint64} {record : Proc}
    (moved : base.resume i entry (storeResult (value, w.sys.ecall i)) = v.sys)
    (records : base.proc = Function.update w.sys.proc child record)
    (history : ∀ j, j = i ∨ j ≠ child → v.mon.active j = w.mon.active j ∧ v.mon.armed j = w.mon.armed j)
    (written : v.sys.proc child = record → SlotChange event w v child) (j : Slot) : SlotChange event w v j := by
  have ecall := ecall_kept w.sys i
  have stored := stored_kept entry value (w.sys.ecall i)
  by_cases same : j = i
  · subst same
    obtain ⟨active, armed⟩ := history j (.inl rfl)
    simp only [SlotChange, active, armed, ← moved, resume_self]
    exact .keep (ecall.1.trans stored.1) (ecall.2.trans stored.2)
  · by_cases isChild : j = child
    · subst isChild
      exact written (by simp [← moved, records, same])
    · obtain ⟨active, armed⟩ := history j (.inr isChild)
      exact slotChange_same (by simp [← moved, records, same, isChild]) active armed

/-- `fork` fills one unused slot and returns in the parent. -/
theorem slotChange_fork {child : Slot} {table : Uint64} (framed : Framed w.sys)
    (stepped : w.Step build (.fork i child table entry) v) (j : Slot) :
    SlotChange (.fork i child table entry) w v j := by
  obtain ⟨⟨⟨live, _, free⟩, moved⟩, history⟩ := stepped
  obtain ⟨frame, present⟩ := Option.isSome_iff_exists.mp (framed i live)
  simp only [AlarmState.next, Option.some.injEq] at moved
  refine slotChange_call moved rfl (fun j _ => by simp [history, Monitor.observe]) (fun written => ?_) j
  simp only [SlotChange, history, Monitor.observe, written]
  refine .born free ?_ ?_ ?_
  · simp [Live, AlarmState.forked]
  · cases build <;>
      simp [AlarmState.forked, forkReady, forkParent, forkCopy, push, ecall_frame present]
  · cases build <;>
      simp [AlarmState.forked, forkReady, forkParent, forkCopy, push, allocproc]

/-- A failed `fork` leaves its slot unused. -/
theorem slotChange_forkFail {child : Slot} {page : Option Trapframe} {table : Option Uint64}
    (stepped : w.Step build (.forkFail i child page table entry) v) (j : Slot) :
    SlotChange (.forkFail i child page table entry) w v j := by
  obtain ⟨⟨⟨_, _, free⟩, moved⟩, history⟩ := stepped
  simp only [AlarmState.next, Option.some.injEq] at moved
  refine slotChange_call moved rfl (fun j _ => by simp [history, Monitor.observe]) (fun written => ?_) j
  simp only [SlotChange, history, Monitor.observe, written]
  obtain ⟨unused, backup⟩ :=
    forkFailed_free build w.sys.nextpid w.sys.ticks page table (w.sys.proc child)
  exact .unborn free unused backup

/-- `wait` frees one zombie and returns in the parent. -/
theorem slotChange_reap {child : Slot} (stepped : w.Step build (.reap i child entry) v) (j : Slot) :
    SlotChange (.reap i child entry) w v j := by
  obtain ⟨⟨⟨live, _, dead, _⟩, moved⟩, history⟩ := stepped
  have different : i ≠ child := by
    rintro rfl
    rcases live with state | state | state <;> simp [state] at dead
  simp only [AlarmState.next, Option.some.injEq] at moved
  refine slotChange_call moved rfl (fun j other => ?_) (fun written => ?_) j
  · have apart : j ≠ child := other.elim (fun same => same ▸ different) id
    simp [history, Monitor.observe, apart]
  · simp only [SlotChange, history, Monitor.observe, written, Function.update_self]
    exact .free rfl rfl

/-- A trap that only returns keeps every slot. -/
theorem slotChange_return {event : AlarmEvent} {p : Proc} (moved : v.sys = w.sys.resume i entry p)
    (history : v.mon = w.mon) (kept : AlarmKept (w.sys.proc i) p) (frames : FrameKept (w.sys.proc i) p)
    (j : Slot) : SlotChange event w v j := by
  obtain ⟨keptLeave, framesLeave⟩ := leave_kept entry p
  by_cases same : j = i
  · subst same
    simp only [SlotChange, history, moved, resume_self]
    exact .keep (kept.trans keptLeave) (frames.trans framesLeave)
  · exact slotChange_same (by simp [moved, same]) (by rw [history]) (by rw [history])

/-- Every step changes every slot in one of the listed ways. -/
theorem slotChange_step {event : AlarmEvent} (framed : Framed w.sys)
    (stepped : w.Step build event v) (j : Slot) : SlotChange event w v j := by
  cases event with
  | tick i page entry => exact slotChange_tick framed stepped j
  | sigalarm i entry => exact slotChange_sigalarm framed stepped j
  | sigreturn i entry => exact slotChange_sigreturn framed stepped j
  | fork i child table entry => exact slotChange_fork framed stepped j
  | forkFail i child page table entry => exact slotChange_forkFail stepped j
  | reap i child entry => exact slotChange_reap stepped j
  | user i regs | clock =>
      obtain ⟨⟨_, moved⟩, history⟩ := stepped
      simp only [AlarmState.next, Option.some.injEq] at moved
      exact slotChange_same (by rw [← moved]) (by rw [history]; rfl) (by rw [history]; rfl)
  | intr i entry =>
      obtain ⟨⟨_, moved⟩, history⟩ := stepped
      simp only [AlarmState.next, Option.some.injEq] at moved
      exact slotChange_return moved.symm history ⟨rfl, rfl, rfl, rfl⟩
        ⟨rfl, by simp [AlarmState.enter]⟩ j
  | exec i table start sp size argc name entry =>
      obtain ⟨⟨_, moved⟩, history⟩ := stepped
      simp only [AlarmState.next, Option.some.injEq] at moved
      exact slotChange_return moved.symm history ⟨rfl, rfl, rfl, rfl⟩
        ⟨rfl, by simp [storeResult, execCommit, AlarmState.ecall, AlarmState.enter]⟩ j
  | exit i status =>
      obtain ⟨⟨_, moved⟩, history⟩ := stepped
      simp only [AlarmState.next, Option.some.injEq] at moved
      by_cases same : j = i
      · subst same
        simp only [SlotChange, history, Monitor.observe, ← moved, Function.update_self]
        exact .die ⟨rfl, rfl, rfl, rfl⟩ rfl
      · exact slotChange_same (by simp [← moved, same]) (by rw [history]; rfl) (by rw [history]; rfl)
  | other i result entry =>
      obtain ⟨⟨_, moved⟩, history⟩ := stepped
      simp only [AlarmState.next, Option.some.injEq] at moved
      exact slotChange_return moved.symm history ⟨rfl, rfl, rfl, rfl⟩
        ⟨rfl, by simp [storeResult, AlarmState.ecall, AlarmState.enter]⟩ j

end Events

end Xv6.Alarm
