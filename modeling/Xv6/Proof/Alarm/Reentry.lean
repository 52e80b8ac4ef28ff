import Xv6.Proof.Alarm.NullBackup

namespace Xv6.Alarm
open TransitionSystem

/-- Inside a handler the running flag is set, or the count of ticks since the last `sigalarm` call
in the handler is below its interval. -/
structure Armed (p : Proc) (active : Option UserRegs) (armed : Option (Int × Nat)) : Prop where
  running : active.isSome → armed = none → p.sigalarmRunning = true
  counts : ∀ n k, armed = some (n, k) → p.sigalarmNticks.toInt = n ∧ p.sigalarmRunning = false ∧
    p.ticksElapsed = BitVec.ofNat 32 k ∧ (0 < n → (k : Int) < n)

/-- A process with no active handler has nothing to count. -/
theorem Armed.idle {p : Proc} {active : Option UserRegs} {armed : Option (Int × Nat)}
    (missing : active = none) (empty : armed = none) : Armed p active armed :=
  ⟨fun held => by simp [missing] at held, fun _ _ counted => by simp [empty] at counted⟩

def ArmedInv (w : Watched) : Prop :=
  ∀ i, Armed (w.sys.proc i) (w.mon.active i) (w.mon.armed i)

/-- A `sigalarm` call inside a handler leaves time for `sigreturn`: the handler takes fewer
user-mode ticks than a positive interval that it set itself. -/
def Timely (w : Watched) : AlarmEvent → Prop
  | .tick i _ _ => ∀ n k, w.mon.armed i = some (n, k) → 0 < n → (k : Int) + 1 < n
  | _ => True

/-- A tick of a process with an active handler does not divert, and `sigreturn` gives back the
user state of the diversion. -/
def Intact (build : Build) (w : Watched) (event : AlarmEvent) : Prop :=
  (∀ i page entry, event = .tick i page entry → diverts (w.sys.proc i) → w.mon.active i = none) ∧
    ∀ i entry regs v, event = .sigreturn i entry → w.mon.active i = some regs →
      w.Step build event v → v.sys.user i = regs

/-- A tick count below the largest `int` does not wrap. -/
theorem ofNat_succ_toInt {k : Nat} (small : (k : Int) + 1 < 2 ^ 31) :
    (BitVec.ofNat 32 k + 1).toInt = (k : Int) + 1 := by
  have bound : k + 1 < 2 ^ 31 := by omega
  have value : (BitVec.ofNat 32 k + 1).toNat = k + 1 := by
    rw [BitVec.toNat_add, BitVec.toNat_ofNat, show (1 : CInt).toNat = 1 from rfl]
    omega
  rw [BitVec.toInt_eq_toNat_of_lt (by rw [value]; omega), value]
  simp

theorem toInt_lt (x : CInt) : x.toInt < 2 ^ 31 := by
  have bound := @BitVec.toInt_lt 32 x
  simpa using bound

/-- The next tick of an armed handler diverts exactly when it completes a positive interval. -/
theorem diverts_armed {p : Proc} {active : Option UserRegs} {n : Int} {k : Nat}
    (inv : Armed p active (some (n, k))) : diverts p ↔ 0 < n ∧ n ≤ (k : Int) + 1 := by
  obtain ⟨nticks, idle, elapsed, below⟩ := inv.counts n k rfl
  have bound : n < 2 ^ 31 := nticks ▸ toInt_lt p.sigalarmNticks
  simp only [diverts, nticks, idle, true_and, elapsed]
  constructor
  · rintro ⟨positive, due⟩
    have less := below positive
    rw [ofNat_succ_toInt (by omega)] at due
    exact ⟨positive, due⟩
  · rintro ⟨positive, due⟩
    have less := below positive
    rw [ofNat_succ_toInt (by omega)]
    exact ⟨positive, due⟩

/-- Each listed change keeps the count, if a counted tick does not complete the interval. -/
theorem Change.armed {timer : Prop} {user : UserRegs} {p q : Proc}
    {active active' : Option UserRegs} {armed armed' : Option (Int × Nat)}
    (change : Change timer user p q active armed active' armed')
    (agrees : Saved p active armed) (inv : Armed p active armed)
    (timely : timer → ∀ n k, armed = some (n, k) → 0 < n → (k : Int) + 1 < n) :
    Armed q active' armed' := by
  cases change with
  | keep alarm _ | die alarm _ =>
      exact ⟨by simpa only [alarm.running] using inv.running,
        by simpa only [alarm.nticks, alarm.running, alarm.elapsed] using inv.counts⟩
  | divert _ _ _ _ _ _ running =>
      exact ⟨fun _ _ => running, fun _ _ counted => by simp at counted⟩
  | count ticked _ _ alarm =>
      refine ⟨fun current missing => ?_, fun n k counted => ?_⟩
      · rw [alarm.running]
        exact inv.running current (by simpa using missing)
      · obtain ⟨⟨m, l⟩, counting, same⟩ := Option.map_eq_some_iff.mp counted
        obtain ⟨rfl, rfl⟩ := Prod.mk.inj same
        obtain ⟨nticks, idle, elapsed, _⟩ := inv.counts m l counting
        refine ⟨by rw [alarm.nticks]; exact nticks, alarm.running.trans idle, ?_, fun positive => ?_⟩
        · rw [alarm.elapsed]
          change p.ticksElapsed + 1 = _
          rw [elapsed, BitVec.ofNat_add]
          rfl
        · simpa using timely ticked m l counting positive
  | arm _ _ _ nticks idle elapsed =>
      by_cases current : active.isSome
      · rw [if_pos current]
        refine ⟨fun _ missing => by simp at missing, fun n k counted => ?_⟩
        obtain ⟨rfl, rfl⟩ := Prod.mk.inj (Option.some.inj counted)
        exact ⟨by rw [nticks], idle, by rw [elapsed]; rfl, fun positive => by simpa using positive⟩
      · rw [if_neg current]
        have missing : active = none := by simpa using current
        exact .idle missing (agrees.idle missing).2
  | restore _ _ => exact .idle rfl rfl
  | born free _ _ _ | unborn free _ _ => exact .idle (agrees.unused free) (agrees.idle (agrees.unused free)).2
  | free _ _ => exact .idle rfl rfl

/-- Every timely step keeps the count. -/
theorem armedInv_step {build : Build} {w v : Watched} {event : AlarmEvent} (saved : SavedInv w)
    (inv : ArmedInv w) (timely : Timely w event) (stepped : w.Step build event v) : ArmedInv v := by
  intro i
  refine (slotChange_step saved.framed stepped i).armed (saved i) (inv i) ?_
  rintro ⟨page, entry, rfl⟩
  exact timely

theorem armedInv_boot (build : Build) (table cwd : Uint64) :
    ArmedInv (Watched.boot build table cwd) :=
  fun _ => .idle rfl rfl

/-- The count is in force after every run of timely steps. -/
theorem armedInv_run {build : Build} {table cwd : Uint64} {trace : List (Watched × AlarmEvent)}
    {w : Watched} (run : Run (Watched.Step build) (Watched.boot build table cwd) trace w)
    (timely : ∀ entry ∈ trace, Timely entry.1 entry.2) : SavedInv w ∧ ArmedInv w := by
  have keeps (w : Watched) (event : AlarmEvent) (v : Watched) (timely : Timely w event)
      (inv : SavedInv w ∧ ArmedInv w) (stepped : w.Step build event v) :
      SavedInv v ∧ ArmedInv v :=
    ⟨savedInv_step inv.1 stepped, armedInv_step inv.1 inv.2 timely stepped⟩
  exact run.invariant Timely keeps timely
    ⟨savedInv_boot build table cwd, armedInv_boot build table cwd⟩

/-- `sigreturn` restores every register and the program counter of the last diversion. -/
theorem sigreturn_restores {build : Build} {w v : Watched} {i : Slot} {entry : KernelEntry}
    {regs : UserRegs} (saved : SavedInv w) (current : w.mon.active i = some regs)
    (stepped : w.Step build (.sigreturn i entry) v) : v.sys.user i = regs := by
  obtain ⟨⟨_, moved⟩, _⟩ := stepped
  obtain ⟨frame, present, same⟩ := (saved i).saved regs current
  obtain ⟨after, result, _, restored, _⟩ := sysSigreturn_spec present
  simp only [AlarmState.next, result, Option.map_some, Option.some.injEq] at moved
  have stored : (storeResult (frame.regs .a0, after)).trapframe = some frame := by
    simp [storeResult, restored, set_self]
  rw [← moved, resume_user _ _ _ _ stored, same]

/-- With the count in force, an event is intact exactly when it is timely. -/
theorem intact_iff_timely {build : Build} {w : Watched} {event : AlarmEvent} (saved : SavedInv w)
    (inv : ArmedInv w) : Intact build w event ↔ Timely w event := by
  constructor
  · intro intact
    cases event with
    | tick i page entry =>
        intro n k counted positive
        by_contra late
        have due : diverts (w.sys.proc i) :=
          (diverts_armed (counted ▸ inv i)).mpr ⟨positive, by omega⟩
        have missing := intact.1 i page entry rfl due
        simp [((saved i).idle missing).2] at counted
    | _ => trivial
  · intro timely
    refine ⟨?_, ?_⟩
    · rintro i page entry rfl due
      cases counted : w.mon.armed i with
      | none =>
          by_contra current
          have running := (inv i).running (Option.isSome_iff_ne_none.mpr current) counted
          simp [diverts, running] at due
      | some count =>
          obtain ⟨n, k⟩ := count
          obtain ⟨positive, late⟩ := (diverts_armed (counted ▸ inv i)).mp due
          have early := timely n k counted positive
          omega
    · rintro i entry regs v rfl current stepped
      exact sigreturn_restores saved current stepped

/-- In every run each step keeps its handler intact exactly when each step is timely. -/
theorem alarm_intact_iff (build : Build) (table cwd : Uint64) (trace : List (Watched × AlarmEvent))
    (w : Watched) (run : Run (Watched.Step build) (Watched.boot build table cwd) trace w) :
    (∀ entry ∈ trace, Intact build entry.1 entry.2) ↔ ∀ entry ∈ trace, Timely entry.1 entry.2 := by
  induction run with
  | refl => simp
  | @tail trace w v event run stepped ih =>
      simp only [List.mem_append, List.mem_singleton, or_imp, forall_and, forall_eq]
      rw [ih]
      refine and_congr_right fun timely => ?_
      obtain ⟨saved, inv⟩ := armedInv_run run timely
      exact intact_iff_timely saved inv

/-- A program sets a one-tick alarm and is diverted, and the handler sets another alarm. -/
def rearming (ticks : Uint64) : List AlarmEvent :=
  alarmSet ++ [.tick 0 (some junkFrame) anyEntry, .user 0 (alarmUser ticks), .sigalarm 0 anyEntry]

/-- The handler sets a three-tick alarm, takes one tick and returns, and the program takes two ticks. -/
def handled : List AlarmEvent :=
  rearming 3 ++ [.tick 0 none anyEntry, .user 0 sigreturnUser, .sigreturn 0 anyEntry, .tick 0 none anyEntry,
    .tick 0 (some junkFrame) anyEntry]

/-- The first tick and the last one divert the program, and every step of the run is intact. -/
theorem alarm_intact_handled :
    (diverts ((Watched.play alarmSet).sys.proc 0) ∧ diverts ((Watched.play (handled.take 9)).sys.proc 0)) ∧
      ∀ entry ∈ entries (Watched.after .rr) (Watched.boot .rr 0 0) handled, Intact .rr entry.1 entry.2 := by
  have run : Run (Watched.Step .rr) (Watched.boot .rr 0 0) (entries (Watched.after .rr) _ handled) _ :=
    (run_entries (Monitored.step_after (legal_step .rr)) (fun _ _ _ => trivial) (by decide)).1
  refine ⟨⟨by decide, by decide⟩, (alarm_intact_iff .rr 0 0 _ _ run).mpr ?_⟩
  simp only [handled, rearming, alarmSet, List.cons_append, List.nil_append, entries, List.forall_mem_cons]
  refine ⟨trivial, trivial, ?_, trivial, trivial, ?_, trivial, trivial, ?_, ?_, List.forall_mem_nil _⟩
  -- only the tick inside the handler counts against an interval
  · rintro n k ⟨⟩
  · rintro n k ⟨⟩ _
    decide
  · rintro n k ⟨⟩
  · rintro n k ⟨⟩

/-- The handler sets a one-tick alarm. -/
def rearmed : Watched := .play (rearming 1)

/-- A handler that calls `sigalarm(1, handler)` is entered again at the next tick. -/
theorem handler_reentered :
    ∃ trace w, Run (Watched.Step .rr) (Watched.boot .rr 0 0) trace w ∧
      ¬ ∀ entry ∈ trace, Intact .rr entry.1 entry.2 := by
  obtain ⟨trace, run⟩ : Reachable (Watched.Step .rr) (Watched.boot .rr 0 0) rearmed :=
    Monitored.reachable_of_plays (legal_step .rr) (by decide)
  have tick : rearmed.Step .rr _ _ :=
    Monitored.step_after (legal_step .rr) rearmed (.tick 0 (some junkFrame) anyEntry) (by decide)
  refine ⟨_, _, run.tail tick, fun intact => ?_⟩
  have again : diverts (rearmed.sys.proc 0) := by decide
  have active : (rearmed.mon.active 0).isSome := rfl
  have missing := (intact _ (List.mem_append_right _ (List.mem_singleton_self _))).1 0 _ _ rfl again
  exact Option.isSome_iff_ne_none.mp active missing

end Xv6.Alarm
