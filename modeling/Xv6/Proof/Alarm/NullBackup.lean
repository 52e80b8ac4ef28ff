import Xv6.Proof.Alarm.Change

namespace Xv6.Alarm
open TransitionSystem

/-- The saved frame of a process agrees with its history. -/
structure Saved (p : Proc) (active : Option UserRegs) (armed : Option (Int × Nat)) : Prop where
  frame : Live p → p.trapframe.isSome
  unused : p.state = .unused → active = none
  saved : ∀ regs, active = some regs → ∃ frame, p.trapBackup = some frame ∧ userret frame = regs
  idle : active = none → p.trapBackup = none ∧ armed = none

/-- Every slot agrees with its history. -/
def SavedInv (w : Watched) : Prop :=
  ∀ i, Saved (w.sys.proc i) (w.mon.active i) (w.mon.armed i)

theorem SavedInv.framed {w : Watched} (inv : SavedInv w) : Framed w.sys :=
  fun i live => (inv i).frame live

/-- A slot that keeps its state keeps its presence in the table. -/
theorem FrameKept.live {p q : Proc} (kept : FrameKept p q) : Live q ↔ Live p := by
  simp only [Live, kept.state]

/-- Each listed change keeps the agreement. -/
theorem Change.saved {timer : Prop} {user : UserRegs} {p q : Proc}
    {active active' : Option UserRegs} {armed armed' : Option (Int × Nat)}
    (change : Change timer user p q active armed active' armed')
    (agrees : Saved p active armed) : Saved q active' armed' := by
  have frame (kept : FrameKept p q) (live : Live q) : q.trapframe.isSome := by
    rw [kept.frame]
    exact agrees.frame (kept.live.mp live)
  cases change with
  | keep alarm kept =>
      exact ⟨frame kept, fun free => agrees.unused (kept.state ▸ free),
        by simpa only [alarm.backup] using agrees.saved,
        by simpa only [alarm.backup] using agrees.idle⟩
  | die alarm dead =>
      exact ⟨fun live => by simp [Live, dead] at live, fun free => by simp [dead] at free,
        by simpa only [alarm.backup] using agrees.saved,
        by simpa only [alarm.backup] using agrees.idle⟩
  | divert _ live _ kept backup same _ =>
      refine ⟨frame kept, fun free => ?_, fun regs current => ?_, fun missing => by simp at missing⟩
      · exact absurd (kept.state ▸ free) (Live.ne_unused live)
      · exact ⟨_, backup, same.trans (Option.some.inj current)⟩
  | count _ _ kept alarm =>
      refine ⟨frame kept, fun free => agrees.unused (kept.state ▸ free),
        by simpa only [alarm.backup] using agrees.saved, fun missing => ?_⟩
      obtain ⟨empty, none⟩ := agrees.idle missing
      exact ⟨alarm.backup.trans empty, by simp [none]⟩
  | arm _ kept backup _ _ _ =>
      refine ⟨frame kept, fun free => agrees.unused (kept.state ▸ free),
        by simpa only [backup] using agrees.saved, fun missing => ?_⟩
      obtain ⟨empty, none⟩ := agrees.idle missing
      exact ⟨backup.trans empty, by simp [missing, none]⟩
  | restore kept backup =>
      exact ⟨frame kept, fun _ => rfl, fun _ current => by simp at current, fun _ => ⟨backup, rfl⟩⟩
  | born free _ some backup =>
      exact ⟨fun _ => some, fun _ => agrees.unused free,
        by simpa only [backup] using agrees.saved, by simpa only [backup] using agrees.idle⟩
  | unborn free unused backup =>
      have missing := agrees.unused free
      exact ⟨fun live => absurd unused (Live.ne_unused live), fun _ => missing,
        fun _ current => by simp [missing] at current, fun _ => ⟨backup, (agrees.idle missing).2⟩⟩
  | free unused backup =>
      exact ⟨fun live => absurd unused (Live.ne_unused live), fun _ => rfl,
        fun _ current => by simp at current, fun _ => ⟨backup, rfl⟩⟩

/-- Every step keeps the agreement. -/
theorem savedInv_step {build : Build} {w v : Watched} {event : AlarmEvent} (inv : SavedInv w)
    (stepped : w.Step build event v) : SavedInv v :=
  fun i => (slotChange_step inv.framed stepped i).saved (inv i)

/-- The agreement holds after `userinit`. -/
theorem savedInv_boot (build : Build) (table cwd : Uint64) :
    SavedInv (Watched.boot build table cwd) := by
  intro i
  by_cases first : i = 0
  · subst first
    refine ⟨fun _ => ?_, fun _ => rfl, fun _ current => (nomatch current), fun _ => ⟨?_, rfl⟩⟩
    · cases build <;> rfl
    · cases build <;> rfl
  · have zero : (Watched.boot build table cwd).sys.proc i = Proc.zero := by
      simp [Watched.boot, AlarmState.boot, bootTable, first]
    rw [zero]
    exact ⟨fun alive => by simp [Live, Proc.zero] at alive, fun _ => rfl,
      fun _ current => (nomatch current), fun _ => ⟨rfl, rfl⟩⟩

theorem savedInv_reachable {build : Build} {table cwd : Uint64} {w : Watched}
    (reached : Reachable (Watched.Step build) (Watched.boot build table cwd) w) : SavedInv w :=
  reached.invariant (fun _ _ _ inv stepped => savedInv_step inv stepped)
    (savedInv_boot build table cwd)

/-- A diversion gets a page, and `sigreturn` follows a diversion that no other `sigreturn` used. -/
def BackupReady (w : Watched) : AlarmEvent → Prop
  | .tick i page _ => diverts (w.sys.proc i) → page.isSome
  | .sigreturn i _ => (w.mon.active i).isSome
  | _ => True

/-- In every reachable state an enabled event stays clear of null pointers exactly when each
diversion gets a page and each `sigreturn` follows its own diversion. -/
theorem alarm_access_iff (build : Build) (table cwd : Uint64) (w : Watched) (event : AlarmEvent)
    (reached : Reachable (Watched.Step build) (Watched.boot build table cwd) w)
    (enabled : w.sys.Enabled event) :
    ¬ w.sys.Fault build event ↔ BackupReady w event := by
  have inv := savedInv_reachable reached
  have fault : w.sys.Fault build event ↔ w.sys.next build event = none :=
    ⟨fun fault => fault.2, fun none => ⟨enabled, none⟩⟩
  rw [fault]
  cases event with
  | tick i page entry =>
      obtain ⟨frame, present⟩ := Option.isSome_iff_exists.mp ((inv i).frame enabled)
      simp only [AlarmState.next, BackupReady, Option.map_eq_none_iff]
      by_cases due : diverts (w.sys.proc i)
      · rw [alarmTick_divert (by simpa using due) (enter_frame present)]
        cases page <;> simp [due]
      · rw [alarmTick_quiet (by simpa using due)]
        simp [due]
  | sigreturn i entry =>
      simp only [AlarmState.next, BackupReady, Option.map_eq_none_iff, sysSigreturn_none]
      constructor
      · intro saved
        by_contra missing
        exact saved ((inv i).idle (by simpa using missing)).1
      · intro current
        obtain ⟨regs, active⟩ := Option.isSome_iff_exists.mp current
        obtain ⟨frame, saved, _⟩ := (inv i).saved regs active
        simp [saved]
  | sigalarm i entry =>
      obtain ⟨frame, present⟩ := Option.isSome_iff_exists.mp ((inv i).frame enabled.1)
      obtain ⟨value, after, result, _⟩ := sysSigalarm_spec present
      simp [AlarmState.next, BackupReady, result]
  | user | clock | intr | fork | forkFail | exec | exit | reap | other =>
      simp [AlarmState.next, BackupReady]

/-- A process that is about to call `sigalarm(ticks, 24)`. -/
def alarmUser (ticks : Uint64) : UserRegs :=
  ⟨0, fun reg => match reg with
    | .a0 => ticks
    | _ => 24⟩

/-- A process that is about to call `sigreturn`. -/
def sigreturnUser : UserRegs := ⟨0, fun _ => 25⟩

def anyEntry : KernelEntry := ⟨0, 0, 0, 0⟩

/-- A program sets a one-tick alarm. -/
def alarmSet : List AlarmEvent := [.user 0 (alarmUser 1), .sigalarm 0 anyEntry]

/-- The program is diverted, and its handler is about to return. -/
def alarmTaken : List AlarmEvent := alarmSet ++ [.tick 0 (some junkFrame) anyEntry, .user 0 sigreturnUser]

def Watched.play (events : List AlarmEvent) : Watched := events.foldl (Watched.after .rr) (Watched.boot .rr 0 0)

/-- A diversion with a page and the `sigreturn` after it do not fault, and a diversion without a page does. -/
theorem alarm_access_handler :
    ¬ (Watched.play alarmSet).sys.Fault .rr (.tick 0 (some junkFrame) anyEntry) ∧
      ¬ (Watched.play alarmTaken).sys.Fault .rr (.sigreturn 0 anyEntry) ∧
      (Watched.play alarmSet).sys.Fault .rr (.tick 0 none anyEntry) := by
  have reaches (events : List AlarmEvent) (played : plays (fun w => legal .rr w.sys) (Watched.after .rr)
      (Watched.boot .rr 0 0) events = true) : Reachable (Watched.Step .rr) (Watched.boot .rr 0 0) (.play events) :=
    Monitored.reachable_of_plays (legal_step .rr) played
  refine ⟨?_, ?_, ?_⟩
  · exact (alarm_access_iff .rr 0 0 _ _ (reaches alarmSet (by decide)) (by decide)).mpr fun _ => rfl
  · exact (alarm_access_iff .rr 0 0 _ _ (reaches alarmTaken (by decide)) (by decide)).mpr rfl
  · by_contra clear
    have page := (alarm_access_iff .rr 0 0 _ _ (reaches alarmSet (by decide)) (by decide)).mp clear (by decide)
    cases page

/-- A process that calls `sigreturn` with no handler active makes the kernel load through null. -/
theorem sigreturn_without_handler :
    ∃ w, Reachable (Watched.Step .rr) (Watched.boot .rr 0 0) w ∧ w.sys.Fault .rr (.sigreturn 0 anyEntry) :=
  ⟨.play [.user 0 sigreturnUser], Monitored.reachable_of_plays (legal_step .rr) (by decide), by decide, rfl⟩

end Xv6.Alarm
