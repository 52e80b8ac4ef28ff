import Xv6.Kernel.AlarmSystem

namespace Xv6.Alarm
open TransitionSystem

/-- The history that the alarm properties speak about. A diversion makes a handler active with the
user state that it interrupted, until `sigreturn`. A `sigalarm` call inside a handler starts a
count of the later user-mode ticks against its interval. -/
structure Monitor where
  active : Slot → Option UserRegs
  armed : Slot → Option (Int × Nat)

/-- The interval argument of a `sigalarm` call. -/
def interval (user : UserRegs) : CInt := (user.regs .a0).truncate 32

/-- `sigalarm` accepts its arguments unless one of them is minus one. -/
def accepted (user : UserRegs) : Prop := ¬ (interval user = -1 ∨ user.regs .a1 = -1)

instance (user : UserRegs) : Decidable (accepted user) := inferInstanceAs (Decidable (¬ _))

/-- The history after one event. -/
def Monitor.observe (m : Monitor) (s : AlarmState) : AlarmEvent → Monitor
  | .tick i _ _ =>
      if diverts (s.proc i) then
        ⟨Function.update m.active i (some (s.user i)), Function.update m.armed i none⟩
      else { m with
        armed := Function.update m.armed i ((m.armed i).map fun count => (count.1, count.2 + 1)) }
  | .sigalarm i _ =>
      if accepted (s.user i) ∧ (m.active i).isSome then
        { m with armed := Function.update m.armed i (some ((interval (s.user i)).toInt, 0)) }
      else m
  | .sigreturn i _ => ⟨Function.update m.active i none, Function.update m.armed i none⟩
  | .reap _ child _ => ⟨Function.update m.active child none, Function.update m.armed child none⟩
  | _ => m

/-- The machine together with its history. -/
abbrev Watched := Monitored AlarmState Monitor

def Watched.Step (build : Build) : Watched → AlarmEvent → Watched → Prop :=
  Monitored.Step (fun s => s.Step build) fun m s event _ => m.observe s event

def Watched.boot (build : Build) (table cwd : Uint64) : Watched :=
  ⟨AlarmState.boot build table cwd, ⟨fun _ => none, fun _ => none⟩⟩

/-- The event can be taken and does not fault. -/
def legal (build : Build) (s : AlarmState) (event : AlarmEvent) : Bool :=
  decide (s.Enabled event) && (s.next build event).isSome

theorem legal_step (build : Build) (s : AlarmState) (event : AlarmEvent) (fits : legal build s event = true) :
    s.Step build event (computed (fun s => s.next build) s event) := by
  obtain ⟨enabled, sound⟩ := Bool.and_eq_true_iff.mp fits
  exact ⟨of_decide_eq_true enabled, next_computed s event sound⟩

/-- The watched machine after an event that does not fault. -/
def Watched.after (build : Build) : Watched → AlarmEvent → Watched :=
  Monitored.after (computed fun s => s.next build) fun m s event _ => m.observe s event

section Resume

variable (s : AlarmState) (i j : Slot) (entry : KernelEntry) (p : Proc)

@[simp] theorem enter_trapBackup : (s.enter i).trapBackup = (s.proc i).trapBackup := rfl

@[simp] theorem ecall_trapBackup : (s.ecall i).trapBackup = (s.proc i).trapBackup := rfl

@[simp] theorem diverts_enter : diverts (s.enter i) ↔ diverts (s.proc i) := Iff.rfl

@[simp] theorem resume_self :
    (s.resume i entry p).proc i = leave entry p := by
  simp [AlarmState.resume]

@[simp] theorem resume_other (different : j ≠ i) : (s.resume i entry p).proc j = s.proc j := by
  simp [AlarmState.resume, different]

@[simp] theorem resume_user {frame : Trapframe} (present : p.trapframe = some frame) :
    (s.resume i entry p).user i = userret frame := by
  simp [AlarmState.resume, present, userret, usertrapret]

end Resume

/-- A frame that is present stays present on the way into a system call. -/
theorem ecall_frame {s : AlarmState} {i : Slot} {frame : Trapframe}
    (present : (s.proc i).trapframe = some frame) :
    (s.ecall i).trapframe = some { saveUser (s.user i) frame with epc := (s.user i).pc + 4 } := by
  simp [AlarmState.ecall, AlarmState.enter, present, saveUser]

/-- A trap saves the user registers of the trapping process. -/
theorem enter_frame {s : AlarmState} {i : Slot} {frame : Trapframe}
    (present : (s.proc i).trapframe = some frame) :
    (s.enter i).trapframe = some (saveUser (s.user i) frame) := by
  simp [AlarmState.enter, present]

/-- `sigalarm` changes only the alarm settings, and only when it accepts its arguments. -/
theorem sysSigalarm_spec {s : AlarmState} {i : Slot} {frame : Trapframe}
    (present : (s.proc i).trapframe = some frame) :
    ∃ value after, sysSigalarm (s.ecall i) = some (value, after) ∧
      after.state = (s.proc i).state ∧ after.trapframe.isSome ∧
      after.trapBackup = (s.proc i).trapBackup ∧
      (accepted (s.user i) → after.sigalarmNticks = interval (s.user i) ∧
        after.sigalarmRunning = false ∧ after.ticksElapsed = 0) ∧
      (¬ accepted (s.user i) → after = s.ecall i) := by
  have entered := ecall_frame present
  have some : (s.ecall i).trapframe.isSome := by simp [entered]
  by_cases ok : accepted (s.user i)
  · exact ⟨_, _, sysSigalarm_accept entered ok, rfl, some, rfl, fun _ => ⟨rfl, rfl, rfl⟩,
      fun refused => absurd ok refused⟩
  · exact ⟨_, _, sysSigalarm_reject entered (not_not.mp ok), rfl, some, rfl,
      fun granted => absurd granted ok, fun _ => rfl⟩

/-- `sigreturn` loads the saved frame and leaves no saved frame behind. -/
theorem sysSigreturn_spec {s : AlarmState} {i : Slot} {saved : Trapframe}
    (present : (s.proc i).trapBackup = some saved) :
    ∃ after, sysSigreturn (s.ecall i) = some (saved.regs .a0, after) ∧
      after.state = (s.proc i).state ∧ after.trapframe = some saved ∧ after.trapBackup = none ∧
      after.sigalarmRunning = false := by
  simp only [sysSigreturn, ecall_trapBackup, present, Option.map_some]
  exact ⟨_, rfl, rfl, rfl, rfl, rfl⟩

/-- A call of `sigreturn` with no saved frame is an access through a null pointer. -/
theorem sysSigreturn_none {s : AlarmState} {i : Slot} :
    sysSigreturn (s.ecall i) = none ↔ (s.proc i).trapBackup = none := by
  simp [sysSigreturn]

/-- Storing the saved value of `a0` into the saved frame changes nothing. -/
theorem set_self (frame : Trapframe) (reg : Reg) : frame.set reg (frame.regs reg) = frame := by
  simp [Trapframe.set]

end Xv6.Alarm
