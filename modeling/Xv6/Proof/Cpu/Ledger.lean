/-
This file shows when the times that `waitx` reports are right. A ledger counts the ticks and, for each
process, the ticks that `update_time` charges to it. The reported times agree with the ledger when no
slot is allocated between the start of a tick and its charge.
-/

import Xv6.Proof.Cpu.Control
import Xv6.Proof.Cpu.Table

namespace Xv6.Cpu
open TransitionSystem

variable {n : Nat}

/-- The step counts a tick. -/
def ticked (s : Machine n) : CpuEvent n → Bool
  | .step c => match s.handler c with
      | some (.clock _) => true
      | _ => false
  | _ => false

/-- The process that `update_time` charges in the step. -/
def charged (s : Machine n) : CpuEvent n → Option Slot
  | .step c => match s.handler c with
      | some (.update _ i) => (slotAt i).filter fun j => (s.proc j).state == .running
      | _ => none
  | _ => none

/-- The slot that `allocproc` fills in the step. -/
def allocated : CpuEvent n → Option Slot
  | .call _ (.fork np memory) =>
      if memory.page.isSome && memory.table.isSome then some np else none
  | _ => none

/-- The process that exits in the step. -/
def exited (s : Machine n) : CpuEvent n → Option Slot
  | .call c (.exit _) => s.cur c
  | _ => none

/-- The number of ticks so far, and for each slot the ticks of its last allocation and exit and the
number of ticks charged since that allocation. -/
structure Accounts where
  clock : Nat
  born : Slot → Nat
  died : Slot → Nat
  spent : Slot → Nat

/-- A slot's entry changes when the slot is the one that the step is about. -/
def record (about : Option Slot) (value : Nat) (old : Slot → Nat) : Slot → Nat :=
  fun q => if about = some q then value else old q

/-- The accounts after a step. -/
def Accounts.observe (a : Accounts) (s : Machine n) (event : CpuEvent n) : Accounts where
  clock := if ticked s event then a.clock + 1 else a.clock
  born := record (allocated event) a.clock a.born
  died := record (exited s event) a.clock a.died
  spent := fun q =>
    if allocated event = some q then 0
    else if charged s event = some q then a.spent q + 1 else a.spent q

/-- A machine with its accounts. -/
abbrev Ledger (n : Nat) := Monitored (Machine n) Accounts

def Ledger.after (l : Ledger n) (event : CpuEvent n) (t : Machine n) : Ledger n := ⟨t, l.mon.observe l.sys event⟩

def Ledger.Step (build : Build) : Ledger n → CpuEvent n → Ledger n → Prop :=
  Monitored.Step (fun s => s.Step build) fun a s event _ => a.observe s event

def Ledger.boot (build : Build) (n : Nat) (table cwd : Uint64) : Ledger n :=
  ⟨.boot build n table cwd, 0, fun _ => 0, fun _ => 0, fun _ => 0⟩

/-- The number of ticks from the allocation of a process to its exit. -/
def Ledger.lifetime (l : Ledger n) (q : Slot) : Nat := l.mon.died q - l.mon.born q

/-- An exited process has not run for longer than it lived, and `waitx` reports as its waiting time
the ticks of its life that were not charged. -/
def Accounted (l : Ledger n) : Prop :=
  ∀ q, (l.sys.proc q).state = .zombie → l.lifetime q < 2 ^ 32 →
    (l.sys.proc q).rtime ≤ (l.sys.proc q).etime - (l.sys.proc q).ctime ∧
      (waitxTimes (l.sys.proc q)).1.toNat = l.lifetime q - l.mon.spent q ∧
      (waitxTimes (l.sys.proc q)).2.toNat = l.mon.spent q

/-- The next slot of `update_time`. -/
def updating : Option HandlerPc → Option Nat
  | some (.update _ i) => some i
  | _ => none

/-- The first CPU has counted a tick that it has not yet charged to this slot. -/
def Uncharged (s : Machine n) (q : Slot) : Prop :=
  ∃ z : Fin n, z.val = 0 ∧ ∃ i ∈ updating (s.handler z), i ≤ q.val

instance (s : Machine n) (q : Slot) : Decidable (Uncharged s q) := inferInstanceAs (Decidable (∃ _, _))

/-- No slot is allocated between the start of a tick and its charge. -/
def Prompt (s : Machine n) (event : CpuEvent n) : Prop := ∀ q ∈ allocated event, ¬ Uncharged s q

instance (s : Machine n) (event : CpuEvent n) : Decidable (Prompt s event) :=
  inferInstanceAs (Decidable (∀ _ ∈ _, _))

section Tick

variable {build : Build} {k l : Control n} {c z : Fin n}

/-- The handler is about to count a tick or to charge it. -/
def clocking : Option HandlerPc → Bool
  | some (.clock _) | some (.update _ _) => true
  | _ => false

/-- Only the thread that the first CPU executes counts a tick or charges it. -/
structure Ticking (k : Control n) : Prop where
  idle : ∀ c, clocking (k.idle c) = true → c.val = 0 ∧ k.cur c = none
  hand : ∀ p, clocking (k.hand p) = true → ∃ z : Fin n, z.val = 0 ∧ k.cur z = some p

theorem clocking_flow {first : Bool} {named : Option Slot} {before after : Option HandlerPc}
    (flow : Flow build first named before after) (counts : clocking after = true) :
    clocking before = true ∨ first = true := by
  cases flow with
  | interrupt trap device =>
      cases device with
      | timer =>
          cases first with
          | true => exact .inr rfl
          | false => exact (nomatch counts)
      | other chans => cases chans <;> exact (nomatch counts)
  | wakeupDone trap timer chan rest => cases rest <;> exact (nomatch counts)
  | flagDone trap => cases trap <;> exact (nomatch counts)
  | clock | updateNext => exact .inl rfl
  | _ => exact (nomatch counts)

theorem clocking_resumes {before after : Option HandlerPc} (resumes : Resumes before after) :
    clocking after = false := by
  cases resumes with
  | call => rfl
  | yield trap next => cases next <;> rfl

theorem updating_flow {first : Bool} {named : Option Slot} {before after : Option HandlerPc} {i : Nat}
    (flow : Flow build first named before after) (charges : updating after = some i) :
    (∃ trap, before = some (.clock trap)) ∨ ∃ j, updating before = some j ∧ i = j + 1 := by
  cases flow with
  | interrupt trap device =>
      cases device with
      | timer => cases first <;> exact (nomatch charges)
      | other chans => cases chans <;> exact (nomatch charges)
  | wakeupDone trap timer chan rest => cases rest <;> exact (nomatch charges)
  | flagDone trap => cases trap <;> exact (nomatch charges)
  | clock trap => exact .inl ⟨trap, rfl⟩
  | updateNext trap j => exact .inr ⟨j, rfl, (Option.some.inj charges).symm⟩
  | _ => exact (nomatch charges)

theorem clocking_of_updating {handler : Option HandlerPc} {i : Nat}
    (charges : updating handler = some i) : clocking handler = true := by
  cases handler with
  | none => exact (nomatch charges)
  | some pc => cases pc <;> first | rfl | exact (nomatch charges)

/-- A CPU that counts or charges a tick executes the thread of the first CPU. -/
theorem Ticking.handler_first (ticking : Ticking k) (counts : clocking (k.handler c) = true)
    (first : z.val = 0) : k.handler z = k.handler c := by
  unfold Control.handler at counts ⊢
  cases current : k.cur c with
  | none =>
      rw [current] at counts
      obtain rfl : c = z := Fin.ext ((ticking.idle c counts).1.trans first.symm)
      rw [current]
  | some p =>
      rw [current] at counts
      obtain ⟨y, zero, same⟩ := ticking.hand p counts
      obtain rfl : y = z := Fin.ext (zero.trans first.symm)
      rw [same]

theorem ticking_shift (ticking : Ticking k) (shift : Shift build k c l) : Ticking l := by
  have idle := ticking.idle
  have hand := ticking.hand
  have outside : clocking none = false := rfl
  cases shift with
  | keep | clear => exact ⟨idle, hand⟩
  | idle handler current flow | hand p handler current flow =>
      have flow := @clocking_flow _ _ _ _ _ flow
      constructor <;> grind [Control.handler]
  | run p handler current resumed => constructor <;> grind
  | leave p handler named current resumes =>
      have resumed := clocking_resumes resumes
      constructor <;> grind
  | stray p current => constructor <;> grind
  | fork np idle => constructor <;> grind

/-- The first CPU charges a tick that it has just counted, or it goes on to its next slot. -/
theorem updating_shift (ticking : Ticking k) (shift : Shift build k c l) (first : z.val = 0) {i : Nat}
    (charges : updating (l.handler z) = some i) :
    (∃ trap, k.handler c = some (.clock trap)) ∨
      ∃ j, updating (k.handler z) = some j ∧ j ≤ i ∧ (clocking (k.handler c) = true → j < i) := by
  have counts := clocking_of_updating charges
  have outside : clocking none = false := rfl
  have idleFirst : k.cur c = none → clocking (k.handler c) = true → z = c := fun current counted => by
    rw [Control.handler, current] at counted
    exact Fin.ext (first.trans (ticking.idle c counted).1.symm)
  have handFirst {p : Slot} (counted : clocking (k.hand p) = true) : k.cur z = some p := by
    obtain ⟨y, zero, same⟩ := ticking.hand p counted
    exact (Fin.ext (zero.trans first.symm) : y = z) ▸ same
  have unmoved (same : l.handler z = k.handler z) (apart : clocking (k.handler c) = false) :
      ∃ j, updating (k.handler z) = some j ∧ j ≤ i ∧ (clocking (k.handler c) = true → j < i) :=
    ⟨i, same ▸ charges, le_refl i, fun counted => (nomatch apart.symm.trans counted)⟩
  cases shift with
  | idle handler current flow =>
      by_cases same : z = c
      · subst same
        have here : updating handler = some i := by simpa [Control.handler, current] using charges
        rcases updating_flow flow here with ticked | ⟨j, before, rfl⟩
        · exact .inl ticked
        · exact .inr ⟨j, before, Nat.le_succ j, fun _ => Nat.lt_succ_self j⟩
      · refine .inr (unmoved ?_ (Bool.eq_false_iff.mpr fun counted => same (idleFirst current counted)))
        simp [Control.handler, same]
  | hand p handler current flow =>
      by_cases same : k.cur z = some p
      · have here : updating handler = some i := by simpa [Control.handler, same] using charges
        rcases updating_flow flow here with ticked | ⟨j, before, rfl⟩
        · exact .inl ticked
        · refine .inr ⟨j, ?_, Nat.le_succ j, fun _ => Nat.lt_succ_self j⟩
          simpa [Control.handler, same, current] using before
      · refine .inr (unmoved ?_ (Bool.eq_false_iff.mpr fun counted => same (handFirst ?_)))
        · grind [Control.handler]
        · simpa [Control.handler, current] using counted
  | keep free | clear free => exact .inr (unmoved rfl (free ▸ outside))
  | fork np free => exact .inr (unmoved (by grind [Control.handler]) (free ▸ outside))
  | run p handler current resumed
  | stray p current => exact .inr (unmoved (by grind [Control.handler]) (by grind [Control.handler]))
  | leave p handler named current resumes =>
      have resumed := clocking_resumes resumes
      exact .inr (unmoved (by grind [Control.handler]) (by grind [Control.handler]))

end Tick

/-- The new record has the times of the old one, and it is not newly exited. -/
def SameTimes (old new : Proc) : Prop :=
  new.rtime = old.rtime ∧ new.ctime = old.ctime ∧ new.etime = old.etime ∧
    (new.state = .zombie → old.state = .zombie)

/-- What a step does to the times of one process. -/
inductive Timed (s : Machine n) (event : CpuEvent n) (q : Slot) (new : Proc) : Prop where
  | keep :
      allocated event ≠ some q → exited s event ≠ some q → charged s event ≠ some q →
      SameTimes (s.proc q) new → Timed s event q new
  | charge :
      allocated event = none → exited s event = none → charged s event = some q →
      (s.proc q).state = .running →
      SameTimes { s.proc q with rtime := (s.proc q).rtime + 1 } new → Timed s event q new
  | exit :
      allocated event = none → exited s event = some q → charged s event = none →
      new.rtime = (s.proc q).rtime → new.ctime = (s.proc q).ctime → new.etime = s.ticks →
      Timed s event q new
  | alloc :
      allocated event = some q → exited s event = none → charged s event = none →
      new.rtime = 0 → new.ctime = s.ticks → new.state ≠ .zombie → Timed s event q new

section Times

variable {build : Build} {s t : Machine n} {c : Fin n} {q : Slot}

theorem SameTimes.refl (p : Proc) : SameTimes p p := ⟨rfl, rfl, rfl, id⟩

theorem sameTimes_wakeupSlot (chan : Chan) (p : Proc) : SameTimes p (wakeupSlot chan p) := by
  unfold wakeupSlot
  split_ifs
  · exact ⟨rfl, rfl, rfl, nofun⟩
  · exact .refl p

theorem sameTimes_aging (ticks : Uint) (p : Proc) : SameTimes p (aging ticks p) := by
  unfold aging
  split_ifs <;> exact ⟨rfl, rfl, rfl, id⟩

theorem sameTimes_scanSlot (ticks : Uint) (p : Proc) : SameTimes p (scanSlot ticks p) := by
  unfold scanSlot
  dsimp only
  split_ifs <;> exact ⟨rfl, rfl, rfl, id⟩

theorem sameTimes_killSlot (p : Proc) : SameTimes p (killSlot p) := by
  unfold killSlot
  split_ifs
  · exact ⟨rfl, rfl, rfl, nofun⟩
  · exact ⟨rfl, rfl, rfl, id⟩

theorem sameTimes_forkReady (build : Build) (ticks : Uint) (p : Slot) (child : Proc) :
    SameTimes child (forkReady build ticks (forkParent p child)) := by
  cases build <;> exact ⟨rfl, rfl, rfl, nofun⟩

/-- `update_time` charges a running process and leaves the times of the others. -/
theorem sameTimes_updateTime (build : Build) (p : Proc) :
    SameTimes (if p.state = .running then { p with rtime := p.rtime + 1 } else p)
      (updateTime build p) := by
  unfold updateTime
  cases build <;> dsimp only <;> split_ifs <;> exact ⟨rfl, rfl, rfl, id⟩

/-- A failed `fork` has set the times if `allocproc` succeeded. -/
theorem forkFailed_times (build : Build) (pid : CInt) (ticks : Uint) (memory : Memory) (p : Proc) :
    (forkFailed build pid ticks memory.page memory.table p).state = .unused ∧
      if (memory.page.isSome && memory.table.isSome) = true then
        (forkFailed build pid ticks memory.page memory.table p).rtime = 0 ∧
          (forkFailed build pid ticks memory.page memory.table p).ctime = ticks
      else SameTimes p (forkFailed build pid ticks memory.page memory.table p) := by
  obtain ⟨page, table, copied⟩ := memory
  cases page <;> cases table <;> simp [forkFailed, allocproc, freeproc, SameTimes]

theorem allocproc_times {pid : CInt} {ticks : Uint} {memory : Memory} {p child after : Proc}
    (done : allocproc build pid ticks memory.page memory.table p = (some child, after)) :
    (memory.page.isSome && memory.table.isSome) = true ∧ child.rtime = 0 ∧ child.ctime = ticks ∧
      child.state = .used := by
  obtain ⟨page, table, copied⟩ := memory
  cases page <;> cases table <;> simp [allocproc] at done
  simp [← done.1]

/-- A step outside `update_time` charges nothing. -/
theorem charged_none (free : ∀ trap i, s.handler c = some (.update trap i) → nproc ≤ i) :
    charged s (.step c) = none := by
  cases position : s.handler c with
  | none => simp only [charged, position]
  | some pc =>
      cases pc with
      | update trap i => simp [charged, position, slotAt, Nat.not_lt.mpr (free trap i position)]
      | _ => simp only [charged, position]

theorem charged_update {trap : Trap} {j : Slot} (position : s.handler c = some (.update trap j.val)) :
    charged s (.step c) = if (s.proc j).state = .running then some j else none := by
  by_cases running : (s.proc j).state = .running <;>
    simp [charged, position, slotAt, j.isLt, running]

/-- A step that writes one record keeps the times of the others. -/
theorem timed_write {event : CpuEvent n} {j : Slot} {new : Proc}
    (written : t.proc = Function.update s.proc j new)
    (here : Timed s event j new) (other : q ≠ j → Timed s event q (s.proc q)) :
    Timed s event q (t.proc q) := by
  rw [written]
  by_cases same : q = j
  · subst same
    rwa [Function.update_self]
  · rw [Function.update_of_ne same]
    exact other same

theorem timed_visit {pc after : HandlerPc} {j : Slot} {body : Proc → Proc}
    (position : s.handler c = some pc)
    (visited : Visit build (s.cproc c) s.ticks pc j body after) :
    Timed s (.step c) j (body (s.proc j)) ∧
      (q ≠ j → Timed s (.step c) q (s.proc q)) := by
  have still {r : Slot} {new : Proc} (free : charged s (.step c) ≠ some r)
      (same : SameTimes (s.proc r) new) : Timed s (.step c) r new := .keep nofun nofun free same
  cases visited with
  | update trap =>
      have charges := charged_update position
      have same := sameTimes_updateTime build (s.proc j)
      by_cases running : (s.proc j).state = .running
      · rw [if_pos running] at charges same
        refine ⟨.charge rfl rfl charges running same, fun different => still ?_ (.refl _)⟩
        rw [charges]
        exact fun equal => different (Option.some.inj equal).symm
      · rw [if_neg running] at charges same
        exact ⟨still (charges ▸ nofun) same, fun _ => still (charges ▸ nofun) (.refl _)⟩
  | call chan | wakeup trap timer chan rest =>
      have free : charged s (.step c) = none := charged_none fun _ _ there => (nomatch position.symm.trans there)
      exact ⟨still (free ▸ nofun) (sameTimes_wakeupSlot ..), fun _ => still (free ▸ nofun) (.refl _)⟩
  | aging trap timer =>
      have free : charged s (.step c) = none := charged_none fun _ _ there => (nomatch position.symm.trans there)
      exact ⟨still (free ▸ nofun) (sameTimes_aging ..), fun _ => still (free ▸ nofun) (.refl _)⟩

theorem turn_updating {named : Option Slot} {proc : Slot → Proc} {trap : Trap} {i : Nat}
    {handler : Option HandlerPc} (turned : Turn build named proc (.update trap i) handler) :
    nproc ≤ i := by
  cases turned
  assumption

/-- Every step treats the times of each process in one of the four ways. -/
theorem timed_next {event : CpuEvent n} (stepped : s.Step build event t) (q : Slot) :
    Timed s event q (t.proc q) := by
  have still {c : Fin n} {r : Slot} {new : Proc}
      (free : ∀ trap i, s.handler c = some (.update trap i) → nproc ≤ i)
      (same : SameTimes (s.proc r) new) : Timed s (.step c) r new :=
    .keep nofun nofun (charged_none free ▸ nofun) same
  have busy {c : Fin n} {pc : HandlerPc} (position : s.handler c = some pc)
      (apart : ∀ trap i, pc ≠ .update trap i) (trap : Trap) (i : Nat)
      (there : s.handler c = some (.update trap i)) : nproc ≤ i :=
    absurd (Option.some.inj (position.symm.trans there)) (apart trap i)
  have idle {c : Fin n} (free : s.handler c = none) (trap : Trap) (i : Nat)
      (there : s.handler c = some (.update trap i)) : nproc ≤ i := (nomatch free.symm.trans there)
  cases move_next stepped with
  | interrupt c device trap | wakeup c p mode chan =>
      rw [proc_setHandler]
      exact .keep nofun nofun nofun (.refl _)
  | turn c pc handler position turned =>
      rw [proc_setHandler]
      refine still (fun trap i there => ?_) (.refl _)
      obtain rfl := Option.some.inj (position.symm.trans there)
      exact turn_updating turned
  | tick c trap position =>
      rw [proc_setHandler]
      exact still (busy position nofun) (.refl _)
  | visit c pc after j body position visited =>
      obtain ⟨here, other⟩ := timed_visit (q := q) position visited
      exact timed_write (proc_setHandler _ c _) here other
  | demote c trap p position =>
      have free := busy position nofun
      exact timed_write (proc_setHandler _ c _) (still free ⟨rfl, rfl, rfl, id⟩)
        fun _ => still free (.refl _)
  | yield c p r trap after position =>
      have free := busy position nofun
      exact timed_write ((proc_swtch _ build c false).trans (proc_setHandler _ c _))
        (still free ⟨rfl, rfl, rfl, nofun⟩) fun _ => still free (.refl _)
  | stray c p trap after position =>
      have free := busy position nofun
      exact timed_write (proc_swtch _ build c false) (still free ⟨rfl, rfl, rfl, nofun⟩)
        fun _ => still free (.refl _)
  | dying c p timer position => exact still (busy position nofun) (.refl _)
  | top c free | pass c pc free | clear c pc free | goes c p base free => exact still (idle free) (.refl _)
  | scan c j first only free =>
      exact timed_write rfl (still (idle free) (sameTimes_scanSlot ..))
        fun _ => still (idle free) (.refl _)
  | run c p i free =>
      exact timed_write rfl (still (idle free) ⟨rfl, rfl, rfl, nofun⟩)
        fun _ => still (idle free) (.refl _)
  | calls c p call base free current called =>
      generalize (s.thread p).base = before at called
      cases called <;> exact .keep nofun nofun nofun (.refl _)
  | kill c p j mode free =>
      exact timed_write rfl (still (idle free) (sameTimes_killSlot _))
        fun _ => still (idle free) (.refl _)
  | ready c p np mode free =>
      exact timed_write rfl (still (idle free) (sameTimes_forkReady ..))
        fun _ => still (idle free) (.refl _)
  | sleep c p mode chan free =>
      exact timed_write (proc_swtch _ build c mode.ie) (.keep nofun nofun nofun ⟨rfl, rfl, rfl, nofun⟩)
        fun _ => .keep nofun nofun nofun (.refl _)
  | exit c p mode status free current =>
      refine timed_write (proc_swtch _ build c mode.ie) (.exit rfl current rfl rfl rfl rfl)
        fun different => .keep nofun ?_ nofun (.refl _)
      exact fun same => different (Option.some.inj (same.symm.trans current))
  | fork c p np mode memory child after free current position unused unlocked done =>
      obtain ⟨found, rtime, ctime, state⟩ := allocproc_times done
      have about : allocated (.call c (.fork np memory)) = some np := by simp only [allocated, if_pos found]
      refine timed_write rfl (.alloc about rfl rfl rtime ctime ?_)
        fun different => .keep ?_ nofun nofun (.refl _)
      · rw [forkCopy_state, state]
        nofun
      · exact fun same => different (Option.some.inj (same.symm.trans about))
  | forkFailed c p np memory =>
      obtain ⟨state, times⟩ := forkFailed_times build s.nextpid s.ticks memory (s.proc np)
      by_cases found : (memory.page.isSome && memory.table.isSome) = true
      · rw [if_pos found] at times
        have about : allocated (.call c (.fork np memory)) = some np := by
          simp only [allocated, if_pos found]
        refine timed_write rfl (.alloc about rfl rfl times.1 times.2 (state ▸ nofun))
          fun different => .keep ?_ nofun nofun (.refl _)
        exact fun same => different (Option.some.inj (same.symm.trans about))
      · rw [if_neg found] at times
        have about : allocated (.call c (.fork np memory)) = none := by simp only [allocated, if_neg found]
        exact timed_write rfl (.keep (about ▸ nofun) nofun nofun times)
          fun _ => .keep (about ▸ nofun) nofun nofun (.refl _)
  | wait c p child =>
      exact timed_write rfl (.keep nofun nofun nofun ⟨rfl, rfl, rfl, nofun⟩)
        fun _ => .keep nofun nofun nofun (.refl _)

end Times

/-- A record agrees with the ledger, its process was not charged for longer than it lives, and a tick
that is not yet charged leaves room for its charge. -/
structure Entry (l : Ledger n) (q : Slot) : Prop where
  ctime : (l.sys.proc q).ctime = BitVec.ofNat 32 (l.mon.born q)
  rtime : (l.sys.proc q).rtime = BitVec.ofNat 32 (l.mon.spent q)
  lived : l.mon.born q + l.mon.spent q ≤ l.mon.clock
  owed : Uncharged l.sys q → l.mon.born q + l.mon.spent q < l.mon.clock
  etime : (l.sys.proc q).state = .zombie →
    (l.sys.proc q).etime = BitVec.ofNat 32 (l.mon.died q) ∧ l.mon.born q + l.mon.spent q ≤ l.mon.died q

structure LedgerInv (l : Ledger n) : Prop where
  ticks : l.sys.ticks = BitVec.ofNat 32 l.mon.clock
  entry : ∀ q, Entry l q
  ticking : Ticking (control l.sys)

section Ledger

variable {build : Build} {l : Ledger n} {t : Machine n} {event : CpuEvent n}

theorem ticked_of_clock {s : Machine n} {trap : Trap} (position : s.handler event.cpu = some (.clock trap))
    (stepped : s.Step build event t) : ticked s event = true := by
  rw [event_of_handler position stepped]
  simp only [ticked, position]

theorem updating_of_charged {s : Machine n} {q : Slot} (charges : charged s event = some q) :
    updating (s.handler event.cpu) = some q.val := by
  cases event with
  | step c =>
      cases position : s.handler c with
      | none => simp [charged, position] at charges
      | some pc =>
          cases pc with
          | update trap i =>
              simp only [charged, position, Option.filter_eq_some_iff] at charges
              simp [CpuEvent.cpu, position, updating, slotAt_some charges.1]
          | _ => simp [charged, position] at charges
  | interrupt | call => exact (nomatch charges)

/-- A tick that waits for its charge was counted in this step, or it waited before and this step
charges another slot. -/
theorem uncharged_next {s : Machine n} (ticking : Ticking (control s)) (seated : Seated (board s))
    (stepped : s.Step build event t) {q : Slot} (waits : Uncharged t q) :
    ticked s event = true ∨ (Uncharged s q ∧ charged s event ≠ some q) := by
  obtain ⟨z, first, i, charges, below⟩ := waits
  rcases updating_shift ticking (shift_next seated stepped) first charges with ⟨trap, counts⟩ | ⟨j, before, le, lt⟩
  · exact .inl (ticked_of_clock counts stepped)
  · refine .inr ⟨⟨z, first, j, before, le.trans below⟩, fun same => ?_⟩
    have here : updating ((control s).handler event.cpu) = some q.val := updating_of_charged same
    have counts := clocking_of_updating here
    rw [ticking.handler_first counts first] at before
    have equal : j = q.val := Option.some.inj (before.symm.trans here)
    have passed := lt counts
    omega

theorem clock_after (l : Ledger n) (event : CpuEvent n) (t : Machine n) :
    (l.after event t).mon.clock = l.mon.clock + if ticked l.sys event then 1 else 0 := by
  unfold Ledger.after Accounts.observe
  dsimp only
  split_ifs <;> rfl

theorem born_after (l : Ledger n) (t : Machine n) {q : Slot} (other : allocated event ≠ some q) :
    (l.after event t).mon.born q = l.mon.born q := if_neg other

theorem died_after (l : Ledger n) (t : Machine n) {q : Slot}
    (other : exited l.sys event ≠ some q) : (l.after event t).mon.died q = l.mon.died q := if_neg other

theorem spent_after (l : Ledger n) (t : Machine n) {q : Slot} (other : allocated event ≠ some q) :
    (l.after event t).mon.spent q =
      if charged l.sys event = some q then l.mon.spent q + 1 else l.mon.spent q := if_neg other

@[simp] theorem ticks_setHandler (s : Machine n) (c : Fin n) (handler : Option HandlerPc) :
    (s.setHandler c handler).ticks = s.ticks := by
  unfold Machine.setHandler
  cases s.cur c <;> rfl

@[simp] theorem ticks_swtch (s : Machine n) (build : Build) (c : Fin n) (ie : Bool) :
    (s.swtch build c ie).ticks = s.ticks := by
  unfold Machine.swtch
  split <;> rfl

/-- Only the counting of a tick changes the counter. -/
theorem ticks_next {s : Machine n} (stepped : s.Step build event t) :
    t.ticks = if ticked s event then s.ticks + 1 else s.ticks := by
  have busy {c : Fin n} {pc : HandlerPc} (position : s.handler c = some pc)
      (apart : ∀ trap, pc ≠ .clock trap) {u : Machine n} (same : u.ticks = s.ticks) :
      u.ticks = if ticked s (.step c) then s.ticks + 1 else s.ticks := by
    rw [same, if_neg]
    cases pc with
    | clock trap => exact absurd rfl (apart trap)
    | _ => simp [ticked, position]
  have idle {c : Fin n} (free : s.handler c = none) {u : Machine n} (same : u.ticks = s.ticks) :
      u.ticks = if ticked s (.step c) then s.ticks + 1 else s.ticks := by
    simp [ticked, free, same]
  cases move_next stepped with
  | interrupt c device trap => exact ticks_setHandler s c _
  | turn c pc handler position turned =>
      exact busy position (fun trap same => by subst same; cases turned) (ticks_setHandler s c _)
  | tick c trap position => simp [ticked, position]
  | visit c pc after j body position visited =>
      exact busy position (fun trap same => by subst same; cases visited) (ticks_setHandler _ c _)
  | demote c trap p position => exact busy position nofun (ticks_setHandler _ c _)
  | yield c p q trap after position =>
      exact busy position nofun ((ticks_swtch _ build c false).trans (ticks_setHandler _ c _))
  | stray c p trap after position => exact busy position nofun (ticks_swtch _ build c false)
  | dying c p timer position => exact busy position nofun rfl
  | top c free => exact idle free rfl
  | pass c pc free => exact idle free rfl
  | clear c pc free => exact idle free rfl
  | scan c j first only free => exact idle free rfl
  | run c p i free => exact idle free rfl
  | goes c p base free => exact idle free rfl
  | kill c p j mode free => exact idle free rfl
  | ready c p np mode free => exact idle free rfl
  | sleep c p mode chan | exit c p mode status => exact ticks_swtch _ build c mode.ie
  | wakeup c p mode chan => exact ticks_setHandler s c _
  | calls | fork | forkFailed | wait => rfl

/-- A process is charged only for a tick that waits for its charge. -/
theorem uncharged_of_charged {s : Machine n} (ticking : Ticking (control s)) {q : Slot}
    (charges : charged s event = some q) : Uncharged s q := by
  have here := updating_of_charged charges
  have counts : clocking ((control s).handler event.cpu) = true := clocking_of_updating here
  have first : ∃ z : Fin n, z.val = 0 := by
    unfold Control.handler at counts
    cases current : (control s).cur event.cpu with
    | none =>
        rw [current] at counts
        exact ⟨_, (ticking.idle _ counts).1⟩
    | some p =>
        rw [current] at counts
        exact (ticking.hand p counts).imp fun _ found => found.1
  obtain ⟨z, zero⟩ := first
  have same : s.handler z = s.handler event.cpu := ticking.handler_first counts zero
  exact ⟨z, zero, q.val, same ▸ here, le_refl _⟩

theorem not_ticked_of_charged {s : Machine n} {q : Slot} (charges : charged s event = some q) :
    ticked s event = false := by
  have here := updating_of_charged charges
  cases event with
  | step c =>
      cases position : s.handler c with
      | none => simp [charged, position] at charges
      | some pc =>
          cases pc with
          | clock trap => simp [CpuEvent.cpu, position, updating] at here
          | _ => simp [ticked, position]
  | interrupt | call => rfl

/-- A tick that waits after the step leaves room for its charge. -/
theorem owed_after {q : Slot} (inv : LedgerInv l) (seated : Seated (board l.sys))
    (stepped : l.sys.Step build event t) (waits : Uncharged t q) :
    l.mon.born q + l.mon.spent q < (l.after event t).mon.clock := by
  rw [clock_after]
  rcases uncharged_next inv.ticking seated stepped waits with counted | ⟨before, _⟩
  · rw [if_pos counted]
    exact Nat.lt_succ_of_le (inv.entry q).lived
  · exact Nat.lt_add_right _ ((inv.entry q).owed before)

theorem entry_step {q : Slot} (inv : LedgerInv l) (seated : Seated (board l.sys))
    (prompt : Prompt l.sys event) (stepped : l.sys.Step build event t) :
    Entry (l.after event t) q := by
  have entry := inv.entry q
  have later : l.mon.clock ≤ (l.after event t).mon.clock := by
    rw [clock_after]
    exact Nat.le_add_right _ _
  cases timed_next stepped q with
  | keep unborn alive uncharged same =>
      obtain ⟨rtime, ctime, etime, zombie⟩ := same
      have spent : (l.after event t).mon.spent q = l.mon.spent q :=
        (spent_after l t unborn).trans (if_neg uncharged)
      have born := born_after l t unborn
      refine ⟨?_, ?_, ?_, fun waits => ?_, fun dead => ?_⟩
      · rw [born]
        exact ctime.trans entry.ctime
      · rw [spent]
        exact rtime.trans entry.rtime
      · rw [born, spent]
        exact entry.lived.trans later
      · rw [born, spent]
        exact owed_after inv seated stepped waits
      · rw [born, spent, died_after l t alive]
        exact ⟨etime.trans (entry.etime (zombie dead)).1, (entry.etime (zombie dead)).2⟩
  | charge unborn alive charges running same =>
      obtain ⟨rtime, ctime, etime, zombie⟩ := same
      have other : allocated event ≠ some q := unborn ▸ nofun
      have spent : (l.after event t).mon.spent q = l.mon.spent q + 1 :=
        (spent_after l t other).trans (if_pos charges)
      have born := born_after l t other
      have room := entry.owed (uncharged_of_charged inv.ticking charges)
      refine ⟨?_, ?_, ?_, fun waits => ?_, fun dead => ?_⟩
      · rw [born]
        exact ctime.trans entry.ctime
      · rw [spent, BitVec.ofNat_add]
        exact rtime.trans (congrArg (· + 1) entry.rtime)
      · rw [born, spent]
        omega
      · rcases uncharged_next inv.ticking seated stepped waits with counted | ⟨_, apart⟩
        · exact (nomatch (not_ticked_of_charged charges).symm.trans counted)
        · exact absurd charges apart
      · exact (nomatch running.symm.trans (zombie dead))
  | exit unborn dies uncharged rtime ctime etime =>
      have other : allocated event ≠ some q := unborn ▸ nofun
      have spent : (l.after event t).mon.spent q = l.mon.spent q :=
        (spent_after l t other).trans (if_neg (uncharged ▸ nofun))
      have born := born_after l t other
      have died : (l.after event t).mon.died q = l.mon.clock := if_pos dies
      refine ⟨?_, ?_, ?_, fun waits => ?_, fun _ => ?_⟩
      · rw [born]
        exact ctime.trans entry.ctime
      · rw [spent]
        exact rtime.trans entry.rtime
      · rw [born, spent]
        exact entry.lived.trans later
      · rw [born, spent]
        exact owed_after inv seated stepped waits
      · rw [born, spent, died]
        exact ⟨etime.trans inv.ticks, entry.lived⟩
  | alloc about alive uncharged rtime ctime state =>
      have spent : (l.after event t).mon.spent q = 0 := if_pos about
      have born : (l.after event t).mon.born q = l.mon.clock := if_pos about
      refine ⟨?_, ?_, ?_, fun waits => ?_, fun dead => absurd dead state⟩
      · rw [born]
        exact ctime.trans inv.ticks
      · rw [spent]
        exact rtime
      · rw [born, spent]
        exact later
      · rcases uncharged_next inv.ticking seated stepped waits with counted | ⟨before, _⟩
        · cases event with
          | call c call => exact (nomatch counted)
          | _ => exact (nomatch about)
        · exact absurd before (prompt q about)

theorem ledgerInv_step (inv : LedgerInv l) (seated : Seated (board l.sys))
    (prompt : Prompt l.sys event) (stepped : l.sys.Step build event t) :
    LedgerInv (l.after event t) where
  ticks := by
    rw [clock_after]
    refine (ticks_next stepped).trans ?_
    split_ifs
    · rw [BitVec.ofNat_add, inv.ticks]
      rfl
    · exact inv.ticks
  entry := fun q => entry_step inv seated prompt stepped
  ticking := ticking_shift inv.ticking (shift_next seated stepped)

theorem ledgerInv_boot (build : Build) (n : Nat) (table cwd : Uint64) :
    LedgerInv (Ledger.boot build n table cwd) where
  ticks := rfl
  entry := fun q => by
    have times : ((Machine.boot build n table cwd).proc q).ctime = 0 ∧
        ((Machine.boot build n table cwd).proc q).rtime = 0 ∧
        ((Machine.boot build n table cwd).proc q).state ≠ .zombie := by
      by_cases first : q = 0
      · subst first
        cases build <;> exact ⟨rfl, rfl, by rintro ⟨⟩⟩
      · have zero : (Machine.boot build n table cwd).proc q = Proc.zero := by
          simp [Machine.boot, bootTable, first]
        rw [zero]
        exact ⟨rfl, rfl, by rintro ⟨⟩⟩
    refine ⟨times.1, times.2.1, le_refl 0, fun waits => ?_, fun dead => absurd dead times.2.2⟩
    obtain ⟨z, _, i, charges, _⟩ := waits
    cases charges
  ticking := ⟨fun _ counts => (by cases counts), fun p counts => by simp [control, Ledger.boot, Machine.boot, clocking] at counts⟩

/-- The entry of an exited process gives the times that `waitx` reports. -/
theorem accounted_of_entry {q : Slot} (entry : Entry l q)
    (dead : (l.sys.proc q).state = .zombie) (short : l.lifetime q < 2 ^ 32) :
    (l.sys.proc q).rtime ≤ (l.sys.proc q).etime - (l.sys.proc q).ctime ∧
      (waitxTimes (l.sys.proc q)).1.toNat = l.lifetime q - l.mon.spent q ∧
      (waitxTimes (l.sys.proc q)).2.toNat = l.mon.spent q := by
  obtain ⟨etime, spent⟩ := entry.etime dead
  have lived : BitVec.ofNat 32 (l.mon.died q) - BitVec.ofNat 32 (l.mon.born q) =
      BitVec.ofNat 32 (l.lifetime q) := by
    have sum : l.mon.died q = l.lifetime q + l.mon.born q := by unfold Ledger.lifetime; omega
    rw [sum, BitVec.ofNat_add, BitVec.add_sub_cancel]
  have bound : l.mon.spent q ≤ l.lifetime q := by unfold Ledger.lifetime; omega
  have rest : BitVec.ofNat 32 (l.lifetime q) - BitVec.ofNat 32 (l.mon.spent q) =
      BitVec.ofNat 32 (l.lifetime q - l.mon.spent q) := by
    have sum : l.lifetime q = (l.lifetime q - l.mon.spent q) + l.mon.spent q := by omega
    conv_lhs => rw [sum]
    rw [BitVec.ofNat_add, BitVec.add_sub_cancel]
  rw [waitxTimes, etime, entry.ctime, entry.rtime, lived, rest]
  refine ⟨?_, ?_, ?_⟩
  · rw [BitVec.le_def, BitVec.toNat_ofNat, BitVec.toNat_ofNat]
    omega
  · rw [BitVec.toNat_ofNat]
    omega
  · rw [BitVec.toNat_ofNat]
    omega

end Ledger

/-- On any number of CPUs, in every run that allocates no slot between the start of a tick and its
charge, every exited process that lived for less than the range of the counter is accounted for. -/
theorem run_time_accounted {build : Build} {table cwd : Uint64} {l : Ledger n}
    {trace : List (Ledger n × CpuEvent n)}
    (run : Run (Ledger.Step build) (Ledger.boot build n table cwd) trace l)
    (prompt : ∀ entry ∈ trace, Prompt entry.1.sys entry.2) : Accounted l := by
  have keeps : ∀ (l : Ledger n) (event : CpuEvent n) (m : Ledger n), Prompt l.sys event →
      Wired build l.sys ∧ LedgerInv l → l.Step build event m →
      Wired build m.sys ∧ LedgerInv m := fun l event m prompt before stepped => by
    obtain ⟨t, accounts⟩ := m
    obtain ⟨moved, after⟩ := stepped
    obtain rfl : accounts = l.mon.observe l.sys event := after
    refine ⟨wired_step before.1 moved, ?_⟩
    exact ledgerInv_step before.2 before.1.seated prompt moved
  have inv := (run.invariant (fun l event => Prompt l.sys event) keeps prompt
    ⟨wired_boot build n table cwd, ledgerInv_boot build n table cwd⟩).2
  intro q dead short
  exact accounted_of_entry (inv.entry q) dead short

section Replay

def Ledger.next (build : Build) : Ledger n → CpuEvent n → Ledger n :=
  Monitored.after (Machine.after build) fun a s event _ => a.observe s event

/-- The state after some events that follow the boot. -/
def Ledger.play (build : Build) (events : List (CpuEvent n)) : Ledger n :=
  events.foldl (Ledger.next build) (Ledger.boot build n 0 0)

/-- The second CPU runs the first process, and the first CPU is about to scan the table. -/
def twoCpus : List (CpuEvent 2) := [.step 1, .step 1, .step 0]

/-- The first process makes a child and waits for it, and the child starts to run. -/
def childRuns : List (CpuEvent 2) :=
  [.call 1 (.fork 1 ⟨some junkFrame, some 0, true⟩), .step 1, .call 1 (.sleep (.proc 0)), .step 1]

/-- The child wakes its parent and exits, and the parent runs again. -/
def childExits : List (CpuEvent 2) :=
  [.call 1 (.wakeup (.proc 0))] ++ Machine.steps 1 65 ++ [.call 1 (.exit 0)] ++ Machine.steps 1 65

/-- The tick begins after the allocation of the child and is charged to it. -/
def tickAfterFork : List (CpuEvent 2) :=
  twoCpus ++ childRuns ++ [.interrupt 0 .timer] ++ Machine.steps 0 3 ++ childExits

/-- The child is allocated after the first CPU has counted a tick and before it charges the tick. -/
def forkInTick : List (CpuEvent 2) :=
  twoCpus ++ [.interrupt 0 .timer] ++ Machine.steps 0 2 ++ childRuns ++ Machine.steps 0 1 ++ childExits

/-- The child lived for one tick and was charged for it. -/
theorem run_time_accounted_child :
    ((Ledger.play .rr tickAfterFork).sys.proc 1).state = .zombie ∧
      waitxTimes ((Ledger.play .rr tickAfterFork).sys.proc 1) = (0, 1) ∧
      Accounted (Ledger.play .rr tickAfterFork) := by
  have played : plays (fun l event => Machine.legal .rr l.sys event &&
      decide (Prompt l.sys event)) (Ledger.next .rr) (Ledger.boot .rr 2 0 0)
      tickAfterFork = true := by decide +kernel
  obtain ⟨run, prompt⟩ := Monitored.run_entries Machine.legal_step played
  exact ⟨by decide +kernel, by decide +kernel, run_time_accounted run prompt⟩

/-- The child lived for no tick and was charged for one. Its parent is about to reap it, and `waitx`
reports the largest number as its waiting time. -/
theorem child_charged_too_much : ∃ l : Ledger 2,
    Reachable (Ledger.Step .rr) (Ledger.boot .rr 2 0 0) l ∧
      l.sys.cur 1 = (l.sys.proc 1).parent ∧
      Machine.legal .rr l.sys (.call 1 (.wait 1)) = true ∧
      (waitxTimes (l.sys.proc 1)).1.toNat = 2 ^ 32 - 1 ∧ ¬ Accounted l := by
  have facts : (Ledger.play .rr forkInTick).sys.cur 1 =
        ((Ledger.play .rr forkInTick).sys.proc 1).parent ∧
      Machine.legal .rr (Ledger.play .rr forkInTick).sys (.call 1 (.wait 1)) = true ∧
      (waitxTimes ((Ledger.play .rr forkInTick).sys.proc 1)).1.toNat = 2 ^ 32 - 1 ∧
      ((Ledger.play .rr forkInTick).sys.proc 1).state = .zombie ∧
      (Ledger.play .rr forkInTick).lifetime 1 = 0 := by decide +kernel
  refine ⟨Ledger.play .rr forkInTick, Monitored.reachable_of_plays Machine.legal_step (by decide +kernel), ?_⟩
  generalize Ledger.play .rr forkInTick = l at facts
  obtain ⟨parent, reaps, wtime, dead, lifetime⟩ := facts
  refine ⟨parent, reaps, wtime, fun accounted => ?_⟩
  have reported := (accounted 1 dead (by omega)).2.1
  omega

end Replay

end Xv6.Cpu
