/-
This file says what one step of the machine of the process calls does to one process record.
-/

import Xv6.Proof.Tree.Refinement

namespace Xv6.ProcTree
open TransitionSystem

/-- What can happen to a slot, apart from edits of a record that stays in its place. -/
inductive Occurrence where
  | none
  | born (parent : Slot) (memory : Memory)
  | failed
  | hit
  | closed
  | died (status : CInt)
  | freed

/-- What the event does to the slot. -/
def occurrence (s : ProcSystem) (event : ProcEvent) (i : Slot) : Occurrence :=
  match event with
  | .advance p memory => match s.pc p with
      | .fork k =>
          if slotAt k = some i ∧ (s.proc i).state = .unused then
            if memory.page.isSome ∧ memory.table.isSome ∧ memory.copied = true then .born p memory
            else .failed
          else .none
      | .kill pid k => if slotAt k = some i ∧ (s.proc i).pid = pid then .hit else .none
      | .exitClose _ => if i = p then .closed else .none
      | .exitZombie status => if i = p then .died status else .none
      | .waitScan call k _ =>
          if slotAt k = some i ∧ ((s.proc i).parent = some p ∧ (s.proc i).state = .zombie) ∧
              ¬ (call.addr ≠ 0 ∧ memory.copied = false) then .freed
          else .none
      | _ => .none
  | _ => .none

/-- An edit keeps the identity of the process and its trapframe, and only a process in user space
changes its files. -/
structure Edit (build : Build) (user : Prop) (p q : Proc) : Prop where
  unused : q.state = .unused ↔ p.state = .unused
  zombie : q.state = .zombie ↔ p.state = .zombie
  blank : p.state = .unused → q = p
  pid : q.pid = p.pid
  xstate : q.xstate = p.xstate
  killed : q.killed = p.killed
  files : user ∨ (q.ofile = p.ofile ∧ q.cwd = p.cwd)
  frame : p.trapframe.isSome → q.trapframe.isSome
  mlfq : build ≠ .mlfq → q.mlfqData = p.mlfqData

theorem Edit.refl (build : Build) (user : Prop) (p : Proc) : Edit build user p p :=
  ⟨Iff.rfl, Iff.rfl, fun _ => rfl, rfl, rfl, rfl, Or.inr ⟨rfl, rfl⟩, id, fun _ => rfl⟩

/-- The effect of one step on the record in one slot. -/
def Effect (build : Build) (s : ProcSystem) (event : ProcEvent) (t : ProcSystem) (i : Slot) : Prop :=
  match occurrence s event i with
  | .none => Edit build (s.InUser i) (s.proc i) (t.proc i)
  | .born parent memory => ∃ np,
      allocproc build s.nextpid s.ticks memory.page memory.table (s.proc i) = (some np, np) ∧
        t.proc i = forkCopy (s.proc parent) np
  | .failed => ∃ memory : Memory,
      t.proc i = forkFailed build s.nextpid s.ticks memory.page memory.table (s.proc i)
  | .hit => Edit build (s.InUser i) (killSlot (s.proc i)) (t.proc i)
  | .closed => t.proc i = exitClose (s.proc i)
  | .died status => t.proc i = exitZombie s.ticks status (s.proc i)
  | .freed => t.proc i = freeproc build (s.proc i)

section Edits

variable {build : Build} {user : Prop}

/-- A change of other fields of a record in use is an edit. -/
theorem edit_fields {p q : Proc} (started : p.state ≠ .unused) (state : q.state = p.state)
    (pid : q.pid = p.pid) (xstate : q.xstate = p.xstate) (killed : q.killed = p.killed)
    (files : user ∨ (q.ofile = p.ofile ∧ q.cwd = p.cwd)) (frame : p.trapframe.isSome → q.trapframe.isSome)
    (mlfq : build ≠ .mlfq → q.mlfqData = p.mlfqData) : Edit build user p q :=
  ⟨by rw [state], by rw [state], fun free => absurd free started, pid, xstate, killed, files, frame, mlfq⟩

/-- A change among the states of a started process is an edit. -/
theorem edit_state {p : Proc} {state : ProcState} {chan : Option Chan}
    (before : p.state ≠ .unused ∧ p.state ≠ .zombie) (after : state ≠ .unused ∧ state ≠ .zombie) :
    Edit build user p { p with state := state, chan := chan } :=
  ⟨⟨fun free => absurd free after.1, fun free => absurd free before.1⟩,
    ⟨fun dead => absurd dead after.2, fun dead => absurd dead before.2⟩,
    fun free => absurd free before.1, rfl, rfl, rfl, Or.inr ⟨rfl, rfl⟩, id, fun _ => rfl⟩

theorem edit_result {p : Proc} (value : Uint64) (running : p.state = .running) :
    Edit build user p (storeResult (value, p)) :=
  edit_fields (by simp [running]) rfl rfl rfl rfl (Or.inr ⟨rfl, rfl⟩) Option.isSome_map.trans fun _ => rfl

theorem edit_wakeup (chan : Chan) (p : Proc) : Edit build user p (wakeupSlot chan p) := by
  unfold wakeupSlot
  split_ifs with due
  · exact edit_state ⟨by simp [due.1], by simp [due.1]⟩ ⟨by simp, by simp⟩
  · exact .refl build user p

theorem edit_updateTime (p : Proc) : Edit build user p (updateTime build p) := by
  by_cases free : p.state = .unused
  · have same : updateTime build p = p := by cases build <;> simp [updateTime, free]
    rw [same]
    exact .refl _ _ _
  · refine edit_fields free (updateTime_state p build) ?_ ?_ ?_ (Or.inr ?_) ?_ fun other => ?_
    all_goals
      unfold updateTime
      cases build <;> dsimp only <;> split_ifs <;> first | rfl | exact ⟨rfl, rfl⟩ | exact id | exact absurd rfl other

theorem edit_aging (ticks : Uint) (p : Proc) : Edit .mlfq user p (aging ticks p) := by
  unfold aging
  split_ifs with due
  · refine edit_fields ?_ rfl rfl rfl rfl (Or.inr ⟨rfl, rfl⟩) id (by simp)
    intro free
    simp [agingDue, free] at due
  · exact .refl _ _ _

theorem edit_scanSlot (ticks : Uint) (p : Proc) : Edit .mlfq user p (scanSlot ticks p) := by
  by_cases free : p.state = .unused
  · have same : scanSlot ticks p = p := by simp [scanSlot, agingDue, free]
    rw [same]
    exact .refl _ _ _
  · refine edit_fields free (scanSlot_state ticks p) ?_ ?_ ?_ (Or.inr ?_) ?_ (by simp)
    all_goals unfold scanSlot; dsimp only; split_ifs <;> first | rfl | exact ⟨rfl, rfl⟩ | exact id

theorem killSlot_unused (p : Proc) : (killSlot p).state = .unused ↔ p.state = .unused := by
  unfold killSlot
  split_ifs with sleeping <;> simp [*]

theorem killSlot_zombie (p : Proc) : (killSlot p).state = .zombie ↔ p.state = .zombie := by
  unfold killSlot
  split_ifs with sleeping <;> simp [*]

/-- `kill` keeps everything but the mark and the sleep. -/
theorem killSlot_kept (p : Proc) :
    (killSlot p).killed = true ∧ (killSlot p).pid = p.pid ∧ (killSlot p).xstate = p.xstate ∧
      (killSlot p).ofile = p.ofile ∧ (killSlot p).cwd = p.cwd ∧
      (killSlot p).mlfqData = p.mlfqData ∧ (killSlot p).trapframe = p.trapframe := by
  unfold killSlot
  split_ifs <;> exact ⟨rfl, rfl, rfl, rfl, rfl, rfl, rfl⟩

theorem edit_forkReady {p : Proc} (ticks : Uint) (used : p.state = .used) :
    Edit build user p (forkReady build ticks p) := by
  have before : p.state ≠ .unused ∧ p.state ≠ .zombie := ⟨by simp [used], by simp [used]⟩
  refine ⟨by simp [before], by simp [before], fun free => absurd free before.1, ?_, ?_, ?_,
    Or.inr ?_, ?_, fun other => ?_⟩
  all_goals cases build <;> first | rfl | exact ⟨rfl, rfl⟩ | exact id | exact absurd rfl other

theorem edit_sigalarm {p : Proc} {result : Uint64 × Proc} (started : p.state ≠ .unused)
    (called : sysSigalarm p = some result) : Edit build user p (storeResult result) := by
  unfold sysSigalarm at called
  obtain ⟨frame, _, same⟩ := Option.map_eq_some_iff.mp called
  dsimp only at same
  split_ifs at same <;> rw [← same] <;>
    exact edit_fields started rfl rfl rfl rfl (Or.inr ⟨rfl, rfl⟩) Option.isSome_map.trans fun _ => rfl

theorem edit_sigreturn {p : Proc} {result : Uint64 × Proc} (started : p.state ≠ .unused)
    (called : sysSigreturn p = some result) : Edit build user p (storeResult result) := by
  obtain ⟨frame, _, same⟩ := Option.map_eq_some_iff.mp called
  rw [← same]
  exact edit_fields started rfl rfl rfl rfl (Or.inr ⟨rfl, rfl⟩) (fun _ => rfl) fun _ => rfl

theorem edit_alarmTick {p q : Proc} {page : Option Trapframe} (started : p.state ≠ .unused)
    (ticked : alarmTick page p = some q) : Edit build user p q := by
  unfold alarmTick at ticked
  dsimp only at ticked
  split_ifs at ticked with armed due
  · split at ticked
    · rw [← Option.some.inj ticked]
      exact edit_fields started rfl rfl rfl rfl (Or.inr ⟨rfl, rfl⟩) (fun _ => rfl) fun _ => rfl
    · exact (nomatch ticked)
  all_goals
    rw [← Option.some.inj ticked]
    exact edit_fields started rfl rfl rfl rfl (Or.inr ⟨rfl, rfl⟩) id fun _ => rfl

end Edits

section Steps

variable {build : Build} {s t : ProcSystem} {p : Slot}

/-- An edit of one record edits every record. -/
theorem edits_setProc {record : Proc} (edit : Edit build (s.InUser p) (s.proc p) record) (i : Slot) :
    Edit build (s.InUser i) (s.proc i) ((s.setProc p record).proc i) := by
  by_cases same : i = p
  · subst same
    simpa [ProcSystem.setProc] using edit
  · simpa [ProcSystem.setProc, same] using Edit.refl build (s.InUser i) (s.proc i)

/-- A step that is no section of a call edits every record. -/
theorem edits_other {event : ProcEvent} (stepped : s.Step build event t)
    (other : ∀ p memory, event ≠ .advance p memory) (i : Slot) :
    Edit build (s.InUser i) (s.proc i) (t.proc i) := by
  unfold ProcSystem.Step at stepped
  cases event with
  | advance p memory => exact absurd rfl (other p memory)
  | call p call =>
      simp only [ProcSystem.next] at stepped
      split_ifs at stepped with user
      cases call with
      | fork | wait | kill =>
          obtain rfl := Option.some.inj stepped
          exact .refl _ _ _
      | exit status =>
          simp only [ProcSystem.start] at stepped
          split_ifs at stepped
          obtain rfl := Option.some.inj stepped
          exact .refl _ _ _
      | sleep chan =>
          simp only [ProcSystem.start] at stepped
          split at stepped
          · cases stepped
          · obtain rfl := Option.some.inj stepped
            refine edits_setProc ?_ i
            exact edit_state ⟨by simp [user.1], by simp [user.1]⟩ ⟨by simp, by simp⟩
  | run p =>
      simp only [ProcSystem.next] at stepped
      split_ifs at stepped with runnable
      obtain rfl := Option.some.inj stepped
      refine edits_setProc ?_ i
      exact edit_state ⟨by simp [runnable], by simp [runnable]⟩ ⟨by simp, by simp⟩
  | yield p =>
      simp only [ProcSystem.next] at stepped
      split_ifs at stepped with running
      obtain rfl := Option.some.inj stepped
      refine edits_setProc ?_ i
      exact edit_state ⟨by simp [running.1], by simp [running.1]⟩ ⟨by simp, by simp⟩
  | trap p user | exec p table entry sp size name =>
      simp only [ProcSystem.next] at stepped
      split_ifs at stepped with inUser
      obtain rfl := Option.some.inj stepped
      refine edits_setProc ?_ i
      exact edit_fields (by simp [inUser.1]) rfl rfl rfl rfl (Or.inr ⟨rfl, rfl⟩) Option.isSome_map.trans fun _ => rfl
  | files p ofile cwd =>
      simp only [ProcSystem.next] at stepped
      split_ifs at stepped with inUser
      obtain rfl := Option.some.inj stepped
      refine edits_setProc ?_ i
      exact edit_fields (by simp [inUser.1]) rfl rfl rfl rfl (Or.inl inUser) id fun _ => rfl
  | sigalarm p =>
      simp only [ProcSystem.next] at stepped
      split_ifs at stepped with inUser
      obtain ⟨result, called, rfl⟩ := Option.map_eq_some_iff.mp stepped
      exact edits_setProc (edit_sigalarm (by simp [inUser.1]) called) i
  | sigreturn p =>
      simp only [ProcSystem.next] at stepped
      split_ifs at stepped with inUser
      obtain ⟨result, called, rfl⟩ := Option.map_eq_some_iff.mp stepped
      exact edits_setProc (edit_sigreturn (by simp [inUser.1]) called) i
  | alarmTick p page =>
      simp only [ProcSystem.next] at stepped
      split_ifs at stepped with inUser
      obtain ⟨result, ticked, rfl⟩ := Option.map_eq_some_iff.mp stepped
      exact edits_setProc (edit_alarmTick (by simp [inUser.1]) ticked) i
  | clock =>
      obtain rfl := Option.some.inj stepped
      exact .refl _ _ _
  | charge j =>
      obtain rfl := Option.some.inj stepped
      exact edits_setProc (edit_updateTime _) i
  | age j =>
      simp only [ProcSystem.next] at stepped
      split_ifs at stepped with mlfq
      obtain rfl := Option.some.inj stepped
      subst mlfq
      exact edits_setProc (edit_aging _ _) i
  | scan j =>
      simp only [ProcSystem.next] at stepped
      split_ifs at stepped with mlfq
      obtain rfl := Option.some.inj stepped
      subst mlfq
      exact edits_setProc (edit_scanSlot _ _) i
  | demote p =>
      simp only [ProcSystem.next] at stepped
      split_ifs at stepped with due
      obtain rfl := Option.some.inj stepped
      refine edits_setProc ?_ i
      exact edit_fields (by simp [due.2.1]) rfl rfl rfl rfl (Or.inr ⟨rfl, rfl⟩) id
        fun other => absurd due.1 other
  | wake chan j =>
      simp only [ProcSystem.next] at stepped
      split at stepped
      · cases stepped
      · obtain rfl := Option.some.inj stepped
        exact edits_setProc (edit_wakeup _ _) i

/-- The return of a call edits only the caller. -/
theorem edits_ret {value : CInt} (running : (s.proc p).state = .running) (i : Slot) :
    Edit build (s.InUser i) (s.proc i) ((s.ret p value).proc i) := by
  refine edits_setProc ?_ i
  exact edit_result _ running

/-- A change of one record and the return of the call leave the other records edited. -/
theorem edits_setProc_ret {slot : Slot} {record : Proc} {value : CInt}
    (running : (s.proc p).state = .running) {i : Slot} (different : i ≠ slot) :
    Edit build (s.InUser i) (s.proc i) (((s.setProc slot record).ret p value).proc i) := by
  by_cases caller : i = p
  · subst caller
    rw [ProcSystem.ret_self, ProcSystem.setProc_other s record different]
    exact edit_result _ running
  · rw [ProcSystem.ret_other _ _ caller, ProcSystem.setProc_other s record different]
    exact .refl _ _ _

/-- `fork` leaves every record but the new one edited. -/
theorem edits_forkSlot {slot i : Slot} {memory : Memory} (running : (s.proc p).state = .running)
    (different : i ≠ slot) :
    Edit build (s.InUser i) (s.proc i) ((s.forkSlot build p slot memory).proc i) := by
  have failed (record : Proc) : Edit build (s.InUser i) (s.proc i)
      (((({ s with nextpid := s.nextpid + 1 } : ProcSystem).setProc slot record).ret p (-1)).proc i) :=
    edits_setProc_ret (s := { s with nextpid := s.nextpid + 1 }) running different
  unfold ProcSystem.forkSlot
  dsimp only
  split
  · exact failed _
  · split_ifs
    · rw [ProcSystem.goto_proc, ProcSystem.setProc_other _ _ different]
      exact .refl _ _ _
    · exact failed _

/-- The new record after `fork` has filled its slot or failed to. -/
theorem effect_forkSlot {slot : Slot} {memory : Memory} {k : Nat} (position : s.pc p = .fork k)
    (found : slotAt k = some slot) (running : (s.proc p).state = .running)
    (free : (s.proc slot).state = .unused) :
    Effect build s (.advance p memory) (s.forkSlot build p slot memory) slot := by
  have different : slot ≠ p := fun same => by
    rw [same, running] at free
    exact (nomatch free)
  obtain ⟨page, table, copied⟩ := memory
  simp only [Effect, occurrence, position, found, free, and_self, if_true]
  unfold ProcSystem.forkSlot
  dsimp only
  cases page with
  | none =>
      refine ⟨⟨none, table, copied⟩, ?_⟩
      simp [allocproc, forkFailed, different]
  | some page =>
      cases table with
      | none =>
          refine ⟨⟨some page, none, copied⟩, ?_⟩
          simp [allocproc, forkFailed, different]
      | some table =>
          cases copied with
          | false =>
              refine ⟨⟨some page, some table, false⟩, ?_⟩
              simp [allocproc, forkFailed, different]
          | true => exact ⟨_, rfl, by simp [allocproc]⟩

/-- The sections of `fork` have the listed effects. -/
theorem effect_fork {memory : Memory} {k : Nat} (position : s.pc p = .fork k)
    (running : (s.proc p).state = .running) (advanced : s.advance build p memory = some t)
    (i : Slot) : Effect build s (.advance p memory) t i := by
  simp only [ProcSystem.advance, position] at advanced
  split at advanced
  · rename_i slot found
    split_ifs at advanced with free <;> obtain rfl := Option.some.inj advanced
    · by_cases same : i = slot
      · subst same
        exact effect_forkSlot position found running free
      · have missed : slotAt k ≠ some i := fun other =>
          same (Option.some.inj (other.symm.trans found))
        simp only [Effect, occurrence, position, missed, false_and, if_false]
        exact edits_forkSlot running same
    · have missed : ¬ (slotAt k = some i ∧ (s.proc i).state = .unused) := fun both => by
        rw [Option.some.inj (found.symm.trans both.1)] at free
        exact free both.2
      simp only [Effect, occurrence, position, missed, if_false]
      exact .refl _ _ _
  · rename_i ended
    obtain rfl := Option.some.inj advanced
    simp only [Effect, occurrence, position, ended, reduceCtorEq, false_and, if_false]
    exact edits_ret running i

/-- The sections of `kill` have the listed effects. -/
theorem effect_kill {memory : Memory} {pid : CInt} {k : Nat} (position : s.pc p = .kill pid k)
    (running : (s.proc p).state = .running) (advanced : s.advance build p memory = some t)
    (i : Slot) : Effect build s (.advance p memory) t i := by
  simp only [ProcSystem.advance, position] at advanced
  split at advanced
  · rename_i target found
    split_ifs at advanced with hit <;> obtain rfl := Option.some.inj advanced
    · by_cases same : i = target
      · subst same
        simp only [Effect, occurrence, position, found, hit, and_self, if_true]
        by_cases caller : i = p
        · subst caller
          rw [ProcSystem.ret_self, ProcSystem.setProc_self]
          exact edit_result _ (by simp [killSlot, running])
        · rw [ProcSystem.ret_other _ _ caller, ProcSystem.setProc_self]
          exact .refl _ _ _
      · have missed : slotAt k ≠ some i := fun other =>
          same (Option.some.inj (other.symm.trans found))
        simp only [Effect, occurrence, position, missed, false_and, if_false]
        exact edits_setProc_ret running same
    · have missed : ¬ (slotAt k = some i ∧ (s.proc i).pid = pid) := fun both => by
        rw [Option.some.inj (found.symm.trans both.1)] at hit
        exact hit both.2
      simp only [Effect, occurrence, position, missed, if_false]
      exact .refl _ _ _
  · rename_i ended
    obtain rfl := Option.some.inj advanced
    simp only [Effect, occurrence, position, ended, reduceCtorEq, false_and, if_false]
    exact edits_ret running i

/-- The scan of `wait` has the listed effects. -/
theorem effect_waitScan {memory : Memory} {call : WaitCall} {k : Nat} {kids : Bool}
    (position : s.pc p = .waitScan call k kids) (running : (s.proc p).state = .running)
    (advanced : s.advance build p memory = some t) (i : Slot) :
    Effect build s (.advance p memory) t i := by
  simp only [ProcSystem.advance, position] at advanced
  split at advanced
  · rename_i pp found
    have missed (different : i ≠ pp) : slotAt k ≠ some i := fun other =>
      different (Option.some.inj (other.symm.trans found))
    split_ifs at advanced with child dead <;> obtain rfl := Option.some.inj advanced
    · unfold ProcSystem.reap
      by_cases same : i = pp
      · subst same
        have different : i ≠ p := fun equal => by
          rw [← equal, dead] at running
          cases running
        by_cases lost : call.addr ≠ 0 ∧ memory.copied = false
        · have kept : ¬ (slotAt k = some i ∧ ((s.proc i).parent = some p ∧
              (s.proc i).state = .zombie) ∧ ¬ (call.addr ≠ 0 ∧ memory.copied = false)) :=
            fun all => all.2.2 lost
          simp only [Effect, occurrence, position, kept, if_false]
          rw [if_pos lost]
          exact edits_ret (s := { s with waitLock := none }) running i
        · simp only [Effect, occurrence, position, found, child, dead, lost, not_false_eq_true,
            and_self, if_true, if_false]
          rw [ProcSystem.ret_other _ _ different, ProcSystem.setProc_self]
      · simp only [Effect, occurrence, position, missed same, false_and, if_false]
        split_ifs
        · exact edits_ret (s := { s with waitLock := none }) running i
        · exact edits_setProc_ret (s := { s with waitLock := none, told := _ }) running same
    all_goals
      have alive : ¬ (slotAt k = some i ∧ ((s.proc i).parent = some p ∧
          (s.proc i).state = .zombie) ∧ ¬ (call.addr ≠ 0 ∧ memory.copied = false)) := fun all => by
        obtain rfl := Option.some.inj (found.symm.trans all.1)
        first | exact dead all.2.1.2 | exact child all.2.1.1
      simp only [Effect, occurrence, position, alive, if_false]
      exact .refl _ _ _
  · rename_i ended
    split_ifs at advanced <;> obtain rfl := Option.some.inj advanced
    · simp only [Effect, occurrence, position, ended, reduceCtorEq, false_and, if_false]
      exact edits_ret (s := { s with waitLock := none }) running i
    · simp only [Effect, occurrence, position, ended, reduceCtorEq, false_and, if_false]
      exact .refl _ _ _

/-- A section that changes one record in use and no identity. -/
theorem effect_edit {memory : Memory} {slot : Slot} {record : Proc} {pc : CallPc}
    (quiet : ∀ i, occurrence s (.advance p memory) i = .none)
    (edit : Edit build (s.InUser slot) (s.proc slot) record) (i : Slot) :
    Effect build s (.advance p memory) ((s.setProc slot record).goto p pc) i := by
  simp only [Effect, quiet]
  exact edits_setProc edit i

/-- The iterations of `wakeup` in `exit` only edit. -/
theorem effect_wakeupAt {memory : Memory} {target : Slot} {chan : Option Slot} {pc : CallPc}
    (quiet : ∀ i, occurrence s (.advance p memory) i = .none) (i : Slot) :
    Effect build s (.advance p memory) ((s.wakeupAt p target chan).goto p pc) i := by
  unfold ProcSystem.wakeupAt
  split
  · split_ifs
    · simp only [Effect, quiet]
      exact .refl _ _ _
    · exact effect_edit quiet (edit_wakeup _ _) i
  · simp only [Effect, quiet]
    exact .refl _ _ _

/-- Every section of a call has the listed effects. -/
theorem effect_advance {memory : Memory} (inv : TreeInv (tree s))
    (running : (s.proc p).state = .running) (advanced : s.advance build p memory = some t)
    (i : Slot) : Effect build s (.advance p memory) t i := by
  cases position : s.pc p with
  | user =>
      simp only [ProcSystem.advance, position] at advanced
      cases advanced
  | fork k => exact effect_fork position running advanced i
  | kill pid k => exact effect_kill position running advanced i
  | waitScan call k kids => exact effect_waitScan position running advanced i
  | forkParent np =>
      have used : (s.proc np).state = .used := (inv.unborn p np position).1
      simp only [ProcSystem.advance, position] at advanced
      split_ifs at advanced
      obtain rfl := Option.some.inj advanced
      refine effect_edit (fun j => by simp only [occurrence, position]) ?_ i
      exact edit_fields (by simp [used]) rfl rfl rfl rfl (Or.inr ⟨rfl, rfl⟩) id fun _ => rfl
  | forkReady np =>
      have used : (s.proc np).state = .used := (inv.born p np position).1
      simp only [ProcSystem.advance, position] at advanced
      obtain rfl := Option.some.inj advanced
      simp only [Effect, occurrence, position]
      by_cases same : i = np
      · subst same
        have different : i ≠ p := fun equal => by
          rw [equal, running] at used
          cases used
        rw [ProcSystem.ret_other _ _ different, ProcSystem.setProc_self]
        exact edit_forkReady _ used
      · exact edits_setProc_ret running same
  | exitClose status | exitZombie status =>
      simp only [ProcSystem.advance, position] at advanced
      obtain rfl := Option.some.inj advanced
      by_cases same : i = p
      · subst same
        simp [Effect, occurrence, position]
      · simp only [Effect, occurrence, position, same, if_false]
        simpa [same] using Edit.refl build (s.InUser i) (s.proc i)
  | exitLock status | waitLock call =>
      simp only [ProcSystem.advance, position] at advanced
      split_ifs at advanced
      obtain rfl := Option.some.inj advanced
      simp only [Effect, occurrence, position]
      exact .refl _ _ _
  | exitReparent status k =>
      simp only [ProcSystem.advance, position] at advanced
      split at advanced
      · split_ifs at advanced with child <;> obtain rfl := Option.some.inj advanced
        · refine effect_edit (fun j => by simp only [occurrence, position]) ?_ i
          refine edit_fields (fun free => ?_) rfl rfl rfl rfl (Or.inr ⟨rfl, rfl⟩) id fun _ => rfl
          exact absurd (inv.unused _ free) (by rw [show (tree s).parent _ = _ from child]; simp)
        · simp only [Effect, occurrence, position]
          exact .refl _ _ _
      · obtain rfl := Option.some.inj advanced
        simp only [Effect, occurrence, position]
        exact .refl _ _ _
  | exitReparentWake status k j | exitWakeParent status chan j =>
      simp only [ProcSystem.advance, position] at advanced
      split at advanced <;> obtain rfl := Option.some.inj advanced
      · exact effect_wakeupAt (fun j => by simp only [occurrence, position]) i
      · simp only [Effect, occurrence, position]
        exact .refl _ _ _
  | waitSleep call =>
      simp only [ProcSystem.advance, position] at advanced
      obtain rfl := Option.some.inj advanced
      simp only [Effect, occurrence, position]
      refine edits_setProc (s := { s with waitLock := none }) ?_ i
      exact edit_state ⟨by simp [running], by simp [running]⟩ ⟨by simp, by simp⟩
  | waitAsleep call | asleep =>
      simp only [ProcSystem.advance, position] at advanced
      obtain rfl := Option.some.inj advanced
      refine effect_edit (fun j => by simp only [occurrence, position]) ?_ i
      exact edit_fields (by simp [running]) rfl rfl rfl rfl (Or.inr ⟨rfl, rfl⟩) id fun _ => rfl

/-- Every step has the listed effects. -/
theorem effect_step {event : ProcEvent} (inv : TreeInv (tree s)) (stepped : s.Step build event t)
    (i : Slot) : Effect build s event t i := by
  cases event with
  | advance p memory =>
      simp only [ProcSystem.Step, ProcSystem.next] at stepped
      split_ifs at stepped with running
      exact effect_advance inv running stepped i
  | _ => exact edits_other stepped (fun _ _ => by simp) i

/-- Only an unused slot is filled. -/
theorem occurrence_born {event : ProcEvent} {i parent : Slot} {memory : Memory}
    (happened : occurrence s event i = .born parent memory) :
    event = .advance parent memory ∧ (s.proc i).state = .unused ∧
      (memory.page.isSome ∧ memory.table.isSome ∧ memory.copied = true) ∧
      ∃ k, s.pc parent = .fork k ∧ slotAt k = some i := by
  unfold occurrence at happened
  grind

theorem occurrence_failed {event : ProcEvent} {i : Slot} (happened : occurrence s event i = .failed) :
    (s.proc i).state = .unused := by
  unfold occurrence at happened
  grind

/-- Only an exited process is freed, by its parent in `wait`. -/
theorem occurrence_freed {event : ProcEvent} {i : Slot} (happened : occurrence s event i = .freed) :
    (s.proc i).state = .zombie ∧ ∃ p memory call k kids, event = .advance p memory ∧
      s.pc p = .waitScan call k kids ∧ slotAt k = some i ∧ (s.proc i).parent = some p ∧
      ¬ (call.addr ≠ 0 ∧ memory.copied = false) := by
  unfold occurrence at happened
  grind

/-- A process dies in the last section of `exit`. -/
theorem occurrence_died {event : ProcEvent} {i : Slot} {status : CInt}
    (happened : occurrence s event i = .died status) : s.pc i = .exitZombie status := by
  unfold occurrence at happened
  grind

theorem occurrence_closed {event : ProcEvent} {i : Slot} (happened : occurrence s event i = .closed) :
    ∃ status, s.pc i = .exitClose status := by
  unfold occurrence at happened
  grind

end Steps

/-- An event that can happen is a step. -/
theorem possible_step (build : Build) (s : ProcSystem) (event : ProcEvent)
    (possible : (s.next build event).isSome = true) : s.Step build event (computed (fun s => s.next build) s event) :=
  @next_computed ProcSystem ProcEvent (fun s => s.next build) s event possible

/-- Memory is available. -/
def plenty : Memory := ⟨some junkFrame, some 0, true⟩

/-- A process takes several sections of the call that it is in. -/
def advances (p : Slot) (count : Nat) : List ProcEvent := List.replicate count (.advance p plenty)

/-- The first process makes a child. -/
def childBorn : List ProcEvent := [.run 0, .call 0 .fork] ++ advances 0 4

/-- The child exits with the status seven, and the first process waits for it. -/
def childReaped : List ProcEvent :=
  [.run 1, .call 1 (.exit 7)] ++ advances 1 133 ++ [.call 0 (.wait ⟨8, false⟩)] ++ advances 0 3

end Xv6.ProcTree
