/-
This file says what one step of the one CPU does to the queue record of a process.
-/

import Xv6.Proof.Cpu.Solo

namespace Xv6.Cpu

/-- The deed writes the queue record of the process. -/
def Deed.marks (q : Slot) : Deed → Bool
  | .charge r | .push _ r _ => r == q
  | _ => false

/-- The queue record that a step leaves in one slot. Only `push` puts a process into a queue. -/
inductive Fate (k : Core) (q : Slot) : Deed → MlfqProc → Prop where
  | push (cause : Cause) (qnum : Int) : Fate k q (.push cause q qnum) ⟨qnum, 0, 0, true, k.ticks⟩
  | charge :
      (k.proc q).state = .running →
      Fate k q (.charge q) { (k.proc q).mlfqData with numTicks := (k.proc q).mlfqData.numTicks + 1 }
  | wait :
      Fate k q .quiet { (k.proc q).mlfqData with wtime := (k.proc q).mlfqData.wtime + 1 }
  | remove : k.handler = none → Fate k q .quiet (remove (k.proc q)).mlfqData
  | zero : k.handler = none → Fate k q .quiet .zero
  | same (act : Deed) : act.marks q = false → Fate k q act (k.proc q).mlfqData

variable {k l : Core} {act : Deed} {q : Slot}

theorem fate_charge (k : Core) (j : Slot) :
    Fate k j (chargeDeed j (k.proc j)) (updateTime .mlfq (k.proc j)).mlfqData := by
  unfold chargeDeed updateTime
  dsimp only
  split_ifs with running waiting
  · exact .charge running
  · exact .wait
  · exact .same .quiet rfl

theorem fate_age (k : Core) (j : Slot) :
    Fate k j (agingDeed k.ticks j (k.proc j)) (aging k.ticks (k.proc j)).mlfqData := by
  unfold agingDeed aging
  split_ifs with due
  · exact .push .aging _
  · exact .same .quiet rfl

theorem fate_scan (k : Core) (j : Slot) (idle : k.handler = none) :
    Fate k j (scanDeed k.ticks j (k.proc j)) (scanSlot k.ticks (k.proc j)).mlfqData := by
  unfold scanDeed scanSlot
  dsimp only
  split_ifs with due insert resting resting
  · exact .push .aging _
  · simp [insert.1] at resting
  · exact .push .insert _
  · exact .remove idle
  · exact .same .quiet rfl

/-- A process in a queue was pushed by the step, or keeps its place. -/
theorem Fate.queued {data : MlfqProc} (fate : Fate k q act data) (inside : data.inQueue = true) :
    (∃ cause qnum, act = .push cause q qnum ∧ data = ⟨qnum, 0, 0, true, k.ticks⟩) ∨
      (∀ cause qnum, act ≠ .push cause q qnum) ∧ (k.proc q).mlfqData.inQueue = true ∧
        data.currPri = (k.proc q).mlfqData.currPri ∧ data.intime = (k.proc q).mlfqData.intime := by
  cases fate with
  | push cause qnum => exact .inl ⟨cause, qnum, rfl, rfl⟩
  | charge | wait => exact .inr ⟨nofun, inside, rfl, rfl⟩
  | remove | zero => exact (nomatch inside)
  | same act other =>
      refine .inr ⟨fun cause qnum pushed => ?_, inside, rfl, rfl⟩
      simp [pushed, Deed.marks] at other

/-- A step that writes another slot keeps the record of this one. -/
theorem fate_update {j : Slot} {record : Proc} (here : Fate k j act record.mlfqData)
    (others : ∀ r, r ≠ j → act.marks r = false) (q : Slot) :
    Fate k q act (Function.update k.proc j record q).mlfqData := by
  by_cases same : q = j
  · subst same
    rwa [Function.update_self]
  · rw [Function.update_of_ne same]
    exact .same act (others q same)

theorem marks_chargeDeed {j r : Slot} (p : Proc) (other : r ≠ j) : (chargeDeed j p).marks r = false := by
  unfold chargeDeed
  split_ifs <;> simp [Deed.marks, Ne.symm other]

theorem marks_agingDeed {j r : Slot} (ticks : Uint) (p : Proc) (other : r ≠ j) :
    (agingDeed ticks j p).marks r = false := by
  unfold agingDeed
  split_ifs <;> simp [Deed.marks, Ne.symm other]

theorem marks_scanDeed {j r : Slot} (ticks : Uint) (p : Proc) (other : r ≠ j) :
    (scanDeed ticks j p).marks r = false := by
  unfold scanDeed
  split_ifs <;> simp [Deed.marks, Ne.symm other]

/-- Every step leaves each slot with one of the listed queue records. -/
theorem fate_next (stepped : CoreStep k act l) (q : Slot) : Fate k q act (l.proc q).mlfqData := by
  have quiet {j : Slot} {record : Proc} (kept : record.mlfqData = (k.proc j).mlfqData) :
      Fate k q .quiet (Function.update k.proc j record q).mlfqData := by
    refine fate_update ?_ (fun _ _ => rfl) q
    rw [kept]
    exact .same .quiet rfl
  cases stepped with
  | rest | walk | tick | sched => exact .same _ rfl
  | charge trap j => exact fate_update (fate_charge k j) (fun r => marks_chargeDeed _) q
  | wakeCall chan j | wake _ _ chan _ j => exact quiet (wakeupSlot_mlfqData _ chan)
  | age trap timer j => exact fate_update (fate_age k j) (fun r => marks_agingDeed _ _) q
  | demote trap p =>
      exact fate_update (.push .slice _) (fun r other => by simp [Deed.marks, Ne.symm other]) q
  | leave p record after current leaves => exact quiet (by cases leaves <;> rfl)
  | stray p => exact quiet rfl
  | scan j first idle =>
      exact fate_update (fate_scan k j idle) (fun r => marks_scanDeed _ _) q
  | run p =>
      refine fate_update (j := p) ?_ (fun _ _ => rfl) q
      exact .same (.dispatch p) rfl
  | kill j => exact quiet (killSlot_mlfqData _)
  | ready p np =>
      exact fate_update (.push .fork 0) (fun r other => by simp [Deed.marks, Ne.symm other]) q
  | fork np record idle busy unused used kept => exact quiet kept
  | free np record idle busy resting unused zero =>
      refine fate_update ?_ (fun _ _ => rfl) q
      rw [zero]
      exact .zero idle

theorem chargeDeed_ne_tick (j : Slot) (p : Proc) : chargeDeed j p ≠ .tick := by
  unfold chargeDeed
  split_ifs <;> nofun

theorem agingDeed_ne_tick (ticks : Uint) (j : Slot) (p : Proc) : agingDeed ticks j p ≠ .tick := by
  unfold agingDeed
  split_ifs <;> nofun

theorem scanDeed_ne_tick (ticks : Uint) (j : Slot) (p : Proc) : scanDeed ticks j p ≠ .tick := by
  unfold scanDeed
  split_ifs <;> nofun

/-- Only a tick changes the clock. -/
theorem ticks_of_step (stepped : CoreStep k act l) :
    l.ticks = if act = .tick then k.ticks + 1 else k.ticks := by
  cases stepped with
  | tick => rfl
  | charge trap j => rw [if_neg (chargeDeed_ne_tick _ _)]
  | age trap timer j => rw [if_neg (agingDeed_ne_tick _ _ _)]
  | scan j => rw [if_neg (scanDeed_ne_tick _ _ _)]
  | _ => rfl

/-- A push of one process keeps the records of the others. -/
theorem push_others {cause : Cause} {qnum : Int} (stepped : CoreStep k act l)
    (pushed : act = .push cause q qnum) {r : Slot} (other : r ≠ q) : l.proc r = k.proc r := by
  cases stepped with
  | charge trap j =>
      unfold chargeDeed at pushed
      split_ifs at pushed
  | age trap timer j =>
      unfold agingDeed at pushed
      split_ifs at pushed
      obtain ⟨_, rfl, _⟩ := Deed.push.inj pushed
      exact Function.update_of_ne other _ _
  | scan j =>
      unfold scanDeed at pushed
      split_ifs at pushed <;> obtain ⟨_, rfl, _⟩ := Deed.push.inj pushed <;>
        exact Function.update_of_ne other _ _
  | demote | ready =>
      obtain ⟨_, rfl, _⟩ := Deed.push.inj pushed
      exact Function.update_of_ne other _ _
  | _ => exact (nomatch pushed)

/-- The end of a slice pushes a running process that has used its slice. -/
theorem slice_next {qnum : Int} (stepped : CoreStep k act l) (pushed : act = .push .slice q qnum) :
    sliceUsed (k.proc q) = true := by
  cases stepped with
  | demote trap p position used =>
      obtain ⟨_, rfl, _⟩ := Deed.push.inj pushed
      exact used
  | charge trap j =>
      unfold chargeDeed at pushed
      split_ifs at pushed
  | age trap timer j =>
      unfold agingDeed at pushed
      split_ifs at pushed
      exact (nomatch (Deed.push.inj pushed).1)
  | scan j =>
      unfold scanDeed at pushed
      split_ifs at pushed <;> exact (nomatch (Deed.push.inj pushed).1)
  | ready => exact (nomatch (Deed.push.inj pushed).1)
  | _ => exact (nomatch pushed)

/-- A process is charged in the update loop of a tick, while it runs. -/
theorem charge_next (stepped : CoreStep k act l) (charged : act = .charge q) :
    (l.proc q).state = .running ∧ ∃ trap, l.handler = some (.update trap (q.val + 1)) := by
  cases stepped with
  | charge trap j =>
      unfold chargeDeed at charged
      split_ifs at charged with running
      obtain rfl := Deed.charge.inj charged
      exact ⟨by simp [running], trap, rfl⟩
  | age trap timer j =>
      unfold agingDeed at charged
      split_ifs at charged
  | scan j =>
      unfold scanDeed at charged
      split_ifs at charged
  | _ => exact (nomatch charged)

/-- A process is dispatched by the scheduler that has chosen it. -/
theorem dispatch_next (stepped : CoreStep k act l) (dispatched : act = .dispatch q) :
    k.cur = none ∧ k.pc = .lockNext q ∧ (l.proc q).state = .running := by
  cases stepped with
  | charge trap j =>
      unfold chargeDeed at dispatched
      split_ifs at dispatched
  | age trap timer j =>
      unfold agingDeed at dispatched
      split_ifs at dispatched
  | scan j =>
      unfold scanDeed at dispatched
      split_ifs at dispatched
  | run p handler idle current locks =>
      obtain rfl := Deed.dispatch.inj dispatched
      exact ⟨current, locks, by simp⟩
  | _ => exact (nomatch dispatched)

end Xv6.Cpu
