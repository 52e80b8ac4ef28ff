/-
This file shows when a failing `waitx` leaves all children in the table, and when what it writes does not depend on
the old contents of its stack.
-/

import Xv6.Kernel.ProcSystem
import Xv6.Kernel.Wait
import Xv6.Proof.Vm.Permissions

namespace Xv6.Wait
open Copyout

section Scan

variable {build : Build} {p : Slot} {pagetable : Page} {addr : Uint64}

/-- The process has an exited child. -/
def HasZombie (p : Slot) (table : Slot → Proc) : Prop :=
  ∃ np, (table np).parent = some p ∧ (table np).state = .zombie

/-- The process has a child. -/
def HasChild (p : Slot) (table : Slot → Proc) : Prop := ∃ np, (table np).parent = some p

/-- The call returns after a scan of this table. -/
def Returns (p : Slot) (table : Slot → Proc) : Prop :=
  HasZombie p table ∨ ¬ HasChild p table ∨ (table p).killed = true

instance (p : Slot) (table : Slot → Proc) : Decidable (Returns p table) :=
  inferInstanceAs (Decidable ((∃ _, _) ∨ ¬ (∃ _, _) ∨ _))

/-- The table of the scan after which the call returns. -/
def lastScan (p : Slot) (tables : List (Slot → Proc)) : Option (Slot → Proc) := tables.find? fun table => Returns p table

/-- A scan ends with an exited child of the process, or changes nothing. -/
theorem scanChildren_spec (build : Build) (p : Slot) (pagetable : Page) (addr : Uint64) (slots : List Slot)
    (havekids : Bool) (s : WaitState) :
    (∃ np, (s.proc np).parent = some p ∧ (s.proc np).state = .zombie ∧
      scanChildren build p pagetable addr slots havekids s = reapChild build pagetable addr np s) ∨
    (∀ np ∈ slots, (s.proc np).parent = some p → (s.proc np).state ≠ .zombie) ∧
      ∃ kids, scanChildren build p pagetable addr slots havekids s = (.nothing kids, s) ∧
        (kids = true ↔ havekids = true ∨ ∃ np ∈ slots, (s.proc np).parent = some p) := by
  induction slots generalizing havekids with
  | nil => exact .inr ⟨nofun, havekids, rfl, by simp⟩
  | cons np rest ih =>
      unfold scanChildren
      split_ifs with mine exited
      · exact .inl ⟨np, mine, exited, rfl⟩
      · rcases ih true with found | ⟨none, kids, scan, any⟩
        · exact .inl found
        · refine .inr ⟨fun other inside own => ?_, kids, scan, ?_⟩
          · rcases List.mem_cons.mp inside with rfl | later
            · exact exited
            · exact none other later own
          · simp [any, mine]
      · rcases ih havekids with found | ⟨none, kids, scan, any⟩
        · exact .inl found
        · refine .inr ⟨fun other inside own => ?_, kids, scan, ?_⟩
          · rcases List.mem_cons.mp inside with rfl | later
            · exact absurd own mine
            · exact none other later own
          · simp [any, mine]

/-- A scan of the whole table reaps an exited child if there is one. -/
theorem scan_spec (build : Build) (p : Slot) (pagetable : Page) (addr : Uint64) (table : Slot → Proc) (ram : Ram) :
    (∃ np, (table np).parent = some p ∧ (table np).state = .zombie ∧
      scanChildren build p pagetable addr (List.finRange nproc) false ⟨table, ram⟩ =
        reapChild build pagetable addr np ⟨table, ram⟩) ∨
    ¬ HasZombie p table ∧ ∃ kids,
      scanChildren build p pagetable addr (List.finRange nproc) false ⟨table, ram⟩ = (.nothing kids, ⟨table, ram⟩) ∧
        (kids = true ↔ HasChild p table) := by
  refine (scanChildren_spec build p pagetable addr (List.finRange nproc) false ⟨table, ram⟩).imp_right ?_
  rintro ⟨none, kids, scan, any⟩
  refine ⟨?_, kids, scan, any.trans ?_⟩
  · rintro ⟨np, mine, exited⟩
    exact none np (List.mem_finRange np) mine exited
  · simp [HasChild]

/-- The machine of the process calls reaps a child as `wait` does. -/
theorem reap_eq_reapChild (build : Build) (s : ProcSystem) (p np : Slot) (call : WaitCall) (pagetable : Page) (ram : Ram)
    {memory : Memory} (copied : memory.copied = (copyout pagetable call.addr (intBytes (s.proc np).xstate) ram).1) :
    ∃ result t, reapChild build pagetable call.addr np ⟨s.proc, ram⟩ = (.child np result, t) ∧
      (s.reap build p np call memory).proc = ({ s with proc := t.proc }.ret p result).proc := by
  unfold reapChild ProcSystem.reap
  rw [copied]
  by_cases absent : call.addr = 0
  · simp only [if_pos absent, if_neg fun both : _ ≠ _ ∧ _ => both.1 absent]
    exact ⟨_, _, rfl, rfl⟩
  · simp only [if_neg absent]
    cases (copyout pagetable call.addr (intBytes (s.proc np).xstate) ram).1 with
    | true => exact ⟨_, _, rfl, by rw [if_neg (by simp)]; rfl⟩
    | false => exact ⟨_, _, rfl, by rw [if_pos ⟨absent, rfl⟩]; rfl⟩

/-- What `waitx` returns after its last scan, with the times that it has stored. -/
def ending (table : Slot → Proc) (times : WaitTimes) : WaitScan × WaitState → CInt × WaitTimes × WaitState
  | (.child np result, s) => (result, ⟨(waitxTimes (table np)).1, (waitxTimes (table np)).2⟩, s)
  | (.nothing _, s) => (-1, times, s)

/-- `waitx` sleeps until its last scan, and the earlier scans change nothing. -/
theorem waitx_eq (tables : List (Slot → Proc)) (ram : Ram) (times : WaitTimes) :
    waitx build p pagetable addr tables ram times = (lastScan p tables).map fun table =>
      ending table times (scanChildren build p pagetable addr (List.finRange nproc) false ⟨table, ram⟩) := by
  induction tables with
  | nil => rfl
  | cons table later ih =>
      unfold waitx lastScan
      rcases scan_spec build p pagetable addr table ram with ⟨np, mine, exited, scan⟩ | ⟨none, kids, scan, any⟩
      · have returns : Returns p table := .inl ⟨np, mine, exited⟩
        rw [List.find?_cons_of_pos (by simpa using returns), Option.map_some, scan]
        unfold reapChild
        dsimp only
        split_ifs <;> rfl
      · rw [scan]
        dsimp only
        by_cases returns : Returns p table
        · have ends : kids = false ∨ (table p).killed = true := by
            rcases returns with zombie | alone | killed
            · exact absurd zombie none
            · exact .inl (by simpa using any.not.mpr alone)
            · exact .inr killed
          rw [if_pos ends, List.find?_cons_of_pos (by simpa using returns), Option.map_some, scan]
          rfl
        · have stays : ¬ (kids = false ∨ (table p).killed = true) := by
            rintro (alone | killed)
            · exact returns (.inr (.inl (any.not.mp (by simp [alone]))))
            · exact returns (.inr (.inr killed))
          rw [if_neg stays, List.find?_cons_of_neg (by simpa using returns)]
          exact ih

/-- `waitx` does what `wait` does, and stores the times. -/
theorem waitx_wait (tables : List (Slot → Proc)) (ram : Ram) (times : WaitTimes) :
    (waitx build p pagetable addr tables ram times).map (fun (ret, _, s) => (ret, s)) =
      wait build p pagetable addr tables ram := by
  induction tables generalizing ram with
  | nil => rfl
  | cons table later ih =>
      unfold waitx wait
      rcases scanChildren build p pagetable addr (List.finRange nproc) false ⟨table, ram⟩ with ⟨np | havekids, s⟩
      · rfl
      · dsimp only
        split_ifs
        · rfl
        · exact ih s.ram

/-- The status of a child is copied if its address is null or can be written. -/
def Copyable (pagetable : Page) (ram : Ram) (addr : Uint64) : Prop := addr = 0 ∨ Accessible pagetable ram addr 4

/-- A child whose status is copied leaves the table, and another one stays. -/
theorem reapChild_spec (build : Build) (addr : Uint64) (table : Slot → Proc) (np : Slot) {ram : Ram}
    (separate : Separate pagetable ram) : ∃ after, SameTable pagetable ram after ∧
      (Copyable pagetable ram addr ∧ reapChild build pagetable addr np ⟨table, ram⟩ =
          (.child np (table np).pid, ⟨Function.update table np (freeproc build (table np)), after⟩) ∨
        ¬ Copyable pagetable ram addr ∧
          reapChild build pagetable addr np ⟨table, ram⟩ = (.child np (-1), ⟨table, after⟩)) := by
  unfold reapChild
  by_cases zero : addr = 0
  · simp only [if_pos zero]
    exact ⟨_, .refl, .inl ⟨.inl zero, rfl⟩⟩
  · simp only [if_neg zero]
    have stored := @copyout_accessible _ _ addr separate (intBytes (table np).xstate)
    refine ⟨_, (copyout_frame separate addr (intBytes (table np).xstate)).1, ?_⟩
    split_ifs with copied
    · exact .inl ⟨.inr (stored.mp copied), rfl⟩
    · refine .inr ⟨?_, rfl⟩
      rintro (null | accessible)
      · exact zero null
      · exact copied (stored.mpr accessible)

/-- The last scan of `waitx` has reaped an exited child, or has left the table as it was. -/
theorem waitx_ends (build : Build) (addr : Uint64) {tables : List (Slot → Proc)} {table : Slot → Proc} {ram : Ram}
    (separate : Separate pagetable ram) (last : lastScan p tables = some table) (times : WaitTimes) : ∃ ret times' s,
      waitx build p pagetable addr tables ram times = some (ret, times', s) ∧ SameTable pagetable ram s.ram ∧
        ((HasZombie p table ∧ Copyable pagetable ram addr ∧ ∃ np, (table np).parent = some p ∧
            (table np).state = .zombie ∧ ret = (table np).pid ∧ (s.proc np).state = .unused) ∨
          ¬ (HasZombie p table ∧ Copyable pagetable ram addr) ∧ ret = -1 ∧ s.proc = table) := by
  rw [waitx_eq, last, Option.map_some]
  rcases scan_spec build p pagetable addr table ram with ⟨np, mine, exited, scan⟩ | ⟨none, kids, scan, _⟩
  · have zombie : HasZombie p table := ⟨np, mine, exited⟩
    rw [scan]
    obtain ⟨after, same, ⟨copied, reaped⟩ | ⟨failed, reaped⟩⟩ := reapChild_spec build addr table np separate
    · rw [reaped]
      exact ⟨_, _, _, rfl, same, .inl ⟨zombie, copied, np, mine, exited, rfl, by simp [freeproc]⟩⟩
    · rw [reaped]
      exact ⟨_, _, _, rfl, same, .inr ⟨fun both => failed both.2, rfl, rfl⟩⟩
  · rw [scan]
    exact ⟨_, _, _, rfl, .refl, .inr ⟨fun both => none both.1, rfl, rfl⟩⟩

/-- The pids of the children, as long as `allocpid` has not come to the value minus one. -/
def ProperPids (p : Slot) (table : Slot → Proc) : Prop := ∀ np, (table np).parent = some p → (table np).pid ≠ -1

/-- The two copies of `sys_waitx` succeed exactly when both addresses can be written. -/
theorem sysWaitx_eq (addr1 addr2 : Uint64) {tables : List (Slot → Proc)} {ram : Ram} {stack times : WaitTimes}
    {ret : CInt} {s : WaitState} (separate : Separate pagetable ram) (same : SameTable pagetable ram s.ram)
    (waited : waitx build p pagetable addr tables ram stack = some (ret, times, s)) : ∃ after,
      sysWaitx build p pagetable addr addr1 addr2 tables ram stack = some after ∧ after.2.proc = s.proc ∧
        (Accessible pagetable ram addr1 4 ∧ Accessible pagetable ram addr2 4 → after.1 = ret) ∧
        (¬ (Accessible pagetable ram addr1 4 ∧ Accessible pagetable ram addr2 4) → after.1 = -1) := by
  have separate' := same.separate separate
  have first := @copyout_accessible _ _ addr1 separate' (intBytes times.wtime)
  have same' := (copyout_frame separate' addr1 (intBytes times.wtime)).1
  have second := @copyout_accessible _ _ addr2 (same'.separate separate') (intBytes times.rtime)
  rw [same'.accessible, same.accessible] at second
  rw [same.accessible] at first
  unfold sysWaitx
  rw [waited, Option.map_some]
  rcases copied : copyout pagetable addr1 (intBytes times.wtime) s.ram with ⟨ok, middle⟩
  rw [copied] at first second
  rcases copied' : copyout pagetable addr2 (intBytes times.rtime) middle with ⟨ok', final⟩
  rw [copied'] at second
  have bytes (value : CInt) : (intBytes value).length = 4 := rfl
  rw [bytes] at first second
  dsimp only at first second ⊢
  simp only [copied]
  cases ok with
  | false => exact ⟨_, rfl, rfl, fun both => absurd (first.mpr both.1) Bool.false_ne_true, fun _ => rfl⟩
  | true =>
      simp only [copied']
      cases ok' with
      | false => exact ⟨_, rfl, rfl, fun both => absurd (second.mpr both.2) Bool.false_ne_true, fun _ => rfl⟩
      | true => exact ⟨_, rfl, rfl, fun _ => rfl, fun neither => absurd ⟨first.mp rfl, second.mp rfl⟩ neither⟩

end Scan

/-- A failing `wait` leaves the table as it was at the last scan. A failing `waitx` does so exactly when its second and
third address can be written in case that it reaps a child. -/
theorem waitx_failure_keeps_children {build : Build} {p : Slot} {pagetable : Page} {addr addr1 addr2 : Uint64}
    {tables : List (Slot → Proc)} {ram : Ram} {stack : WaitTimes} (separate : Separate pagetable ram)
    (proper : ∀ table, lastScan p tables = some table → ProperPids p table) :
    (∀ s, wait build p pagetable addr tables ram = some (-1, s) → lastScan p tables = some s.proc) ∧
    ((∀ s, sysWaitx build p pagetable addr addr1 addr2 tables ram stack = some (-1, s) →
        lastScan p tables = some s.proc) ↔
      ∀ table, lastScan p tables = some table → HasZombie p table → Copyable pagetable ram addr →
        Accessible pagetable ram addr1 4 ∧ Accessible pagetable ram addr2 4) := by
  rw [← waitx_wait tables ram stack]
  cases last : lastScan p tables with
  | none =>
      have asleep : waitx build p pagetable addr tables ram stack = none := by rw [waitx_eq, last, Option.map_none]
      unfold sysWaitx
      rw [asleep]
      exact ⟨nofun, iff_of_true nofun nofun⟩
  | some table =>
      obtain ⟨ret, times, s, waited, same, outcome⟩ := waitx_ends build addr separate last stack
      obtain ⟨⟨result, after⟩, called, table', kept, lost⟩ := sysWaitx_eq addr1 addr2 separate same waited
      dsimp only at table' kept lost
      rw [waited, called, Option.map_some]
      have forall_table (holds : (Slot → Proc) → Prop) : (∀ other, some table = some other → holds other) ↔ holds table := by
        simp
      rw [forall_table]
      rcases outcome with ⟨zombie, copied, np, mine, exited, rfl, gone⟩ | ⟨neither, rfl, unchanged⟩
      · have pid := proper table last np mine
        constructor
        · intro s' failed
          exact absurd (Prod.mk.inj (Option.some.inj failed)).1 pid
        · constructor
          · intro atomic _ _
            by_contra missing
            have reaped := atomic after (by rw [← lost missing])
            rw [Option.some.inj reaped, table', gone] at exited
            cases exited
          · rintro accessible s' failed
            obtain ⟨rfl, rfl⟩ := Prod.mk.inj (Option.some.inj failed)
            exact absurd (kept (accessible zombie copied)).symm pid
      · constructor
        · intro s' failed
          rw [← (Prod.mk.inj (Option.some.inj failed)).2, unchanged]
        · refine iff_of_true ?_ fun zombie copied => absurd ⟨zombie, copied⟩ neither
          intro s' failed
          rw [← (Prod.mk.inj (Option.some.inj failed)).2, table', unchanged]

/-- A variable on the stack whose bytes are equal shows at the second address, if the call has found no exited child. -/
theorem stack_disclosed (build : Build) {p : Slot} {pagetable : Page} (addr : Uint64) {addr1 : Uint64} (addr2 : Uint64)
    {tables : List (Slot → Proc)} {table : Slot → Proc} {ram : Ram} {word : Uint} {x : Byte}
    (separate : Separate pagetable ram) (distinct : Distinct pagetable ram) (last : lastScan p tables = some table)
    (none : ¬ HasZombie p table) (accessible : Accessible pagetable ram addr1 1) (bytes : intBytes word = List.replicate 4 x) :
    ∃ after, sysWaitx build p pagetable addr addr1 addr2 tables ram ⟨word, word⟩ = some after ∧
      userByte pagetable after.2.ram addr1 = some x := by
  have waited : waitx build p pagetable addr tables ram ⟨word, word⟩ = some (-1, ⟨word, word⟩, ⟨table, ram⟩) := by
    rw [waitx_eq, last, Option.map_some]
    rcases scan_spec build p pagetable addr table ram with ⟨np, mine, exited, _⟩ | ⟨_, kids, scan, _⟩
    · exact absurd ⟨np, mine, exited⟩ none
    · rw [scan]
      rfl
  have first := copyout_replicate separate distinct (by decide : 4 < 2 ^ 64) addr1 addr1 x
    (.inr ⟨0, by decide, (BitVec.add_zero addr1).symm, accessible⟩)
  have same := (copyout_frame separate addr1 (List.replicate 4 x)).1
  have second := copyout_replicate (same.separate separate) (distinct.kept same) (by decide : 4 < 2 ^ 64) addr2 addr1 x
    (.inl first)
  unfold sysWaitx
  rw [waited, Option.map_some]
  dsimp only
  rw [bytes]
  refine ⟨_, rfl, ?_⟩
  rcases copied : copyout pagetable addr1 (List.replicate 4 x) ram with ⟨_ | _, middle⟩
  · rw [copied] at first
    exact first
  · rw [copied] at second
    dsimp only
    rcases copied' : copyout pagetable addr2 (List.replicate 4 x) middle with ⟨_ | _, final⟩
    · rw [copied'] at second
      exact second
    · rw [copied'] at second
      exact second

/-- A call that reaps a child has overwritten its two variables. -/
theorem waitx_zombie {build : Build} {p : Slot} {pagetable : Page} {addr : Uint64} {tables : List (Slot → Proc)}
    {table : Slot → Proc} {ram : Ram} (last : lastScan p tables = some table) (zombie : HasZombie p table)
    (stack stack' : WaitTimes) :
    waitx build p pagetable addr tables ram stack = waitx build p pagetable addr tables ram stack' := by
  rw [waitx_eq, waitx_eq, last, Option.map_some, Option.map_some]
  rcases scan_spec build p pagetable addr table ram with ⟨np, _, _, scan⟩ | ⟨none, _⟩
  · rw [scan]
    unfold reapChild
    dsimp only
    split_ifs <;> rfl
  · exact absurd zombie none

/-- The outcome of `waitx` does not depend on the old contents of its stack exactly when the user memory after it does
not, and exactly when its last scan finds an exited child or the first byte at its second address cannot be written. -/
theorem waitx_discloses_nothing {build : Build} {p : Slot} {pagetable : Page} {addr addr1 addr2 : Uint64}
    {tables : List (Slot → Proc)} {ram : Ram} (separate : Separate pagetable ram) (distinct : Distinct pagetable ram) :
    List.TFAE [∀ stack stack', sysWaitx build p pagetable addr addr1 addr2 tables ram stack =
        sysWaitx build p pagetable addr addr1 addr2 tables ram stack',
      ∀ stack stack', (sysWaitx build p pagetable addr addr1 addr2 tables ram stack).map
          (fun result => userByte pagetable result.2.ram) =
        (sysWaitx build p pagetable addr addr1 addr2 tables ram stack').map fun result => userByte pagetable result.2.ram,
      (∀ table, lastScan p tables = some table → HasZombie p table) ∨ ¬ Accessible pagetable ram addr1 1] := by
  tfae_have 1 → 2 := fun same stack stack' => by rw [same stack stack']
  tfae_have 2 → 3 := by
    intro same
    by_contra leaks
    push Not at leaks
    obtain ⟨⟨table, last, none⟩, accessible⟩ := leaks
    obtain ⟨r, called, zero⟩ := stack_disclosed build addr addr2 separate distinct last none accessible
      (by decide : intBytes 0 = List.replicate 4 0)
    obtain ⟨r', called', one⟩ := stack_disclosed build addr addr2 separate distinct last none accessible
      (by decide : intBytes 0x01010101 = List.replicate 4 1)
    have equal := same ⟨0, 0⟩ ⟨0x01010101, 0x01010101⟩
    rw [called, called', Option.map_some, Option.map_some] at equal
    have bytes := congrFun (Option.some.inj equal) addr1
    rw [zero, one] at bytes
    exact absurd bytes (by decide)
  tfae_have 3 → 1 := by
    intro closed stack stack'
    cases last : lastScan p tables with
    | none =>
        unfold sysWaitx
        rw [waitx_eq, waitx_eq, last]
        rfl
    | some table =>
        rcases closed with reaps | unmapped
        · unfold sysWaitx
          rw [waitx_zombie last (reaps table last) stack stack']
        · obtain ⟨ret, times, s, waited, same, _⟩ := waitx_ends build addr separate last stack
          obtain ⟨ret', times', s', waited', _⟩ := waitx_ends build addr separate last stack'
          have plain := @waitx_wait build p pagetable addr tables ram stack
          rw [← waitx_wait tables ram stack', waited, waited'] at plain
          obtain rfl : s = s' := (Prod.mk.inj (Option.some.inj plain)).2
          rw [← same.accessible] at unmapped
          unfold sysWaitx
          rw [waited, waited', Option.map_some, Option.map_some]
          dsimp only
          rw [copyout_unmapped unmapped (by simp [intBytes]), copyout_unmapped unmapped (by simp [intBytes])]
  tfae_finish

section Examples

/-- A process that has nothing but a parent and a state. -/
def bareProc (state : ProcState) (parent : Option Slot) (pid : CInt) : Proc :=
  { Proc.zero with state := state, parent := parent, pid := pid }

/-- The first process, with or without an exited child. -/
def familyTable (child : Bool) : Slot → Proc := fun i =>
  if i = 0 then bareProc .running none 1
  else if i = 1 ∧ child = true then bareProc .zombie (some 0) 2
  else Proc.zero

theorem lastScan_family (child : Bool) : lastScan 0 [familyTable child] = some (familyTable child) := by
  have returns : Returns 0 (familyTable child) := by
    cases child <;> decide +kernel
  rw [lastScan, List.find?_cons_of_pos (by simpa using returns)]

/-- The status cannot be written, and the child is still there. -/
theorem waitx_failure_keeps_child :
    ∃ s, sysWaitx .rr 0 1 8192 4096 4096 [familyTable true] smallRam ⟨0, 0⟩ = some (-1, s) ∧
      (s.proc 1).state = .zombie ∧ (s.proc 1).pid = 2 := by
  have ran : (sysWaitx .rr 0 1 8192 4096 4096 [familyTable true] smallRam ⟨0, 0⟩).map
      (fun result => result.1) = some (-1) := by
    decide +kernel
  obtain ⟨⟨ret, s⟩, result, rfl⟩ := Option.map_eq_some_iff.mp ran
  have proper : ∀ table, lastScan 0 [familyTable true] = some table → ProperPids 0 table := by
    intro table last
    rw [← Option.some.inj ((lastScan_family true).symm.trans last)]
    unfold ProperPids
    decide +kernel
  have accessible : Accessible 1 smallRam 4096 4 := by
    unfold Accessible
    decide +kernel
  have last := (waitx_failure_keeps_children small_separate proper).2.mpr (fun _ _ _ _ => ⟨accessible, accessible⟩) s result
  refine ⟨s, result, ?_⟩
  rw [← Option.some.inj ((lastScan_family true).symm.trans last)]
  decide +kernel

/-- The waiting time cannot be written, and the child is gone. -/
theorem waitx_failure_loses_child :
    ∃ s, sysWaitx .rr 0 1 0 8192 4096 [familyTable true] smallRam ⟨0, 0⟩ = some (-1, s) ∧
      (familyTable true 1).state = .zombie ∧ (s.proc 1).state = .unused ∧ (s.proc 1).pid = 0 := by
  have ran : (sysWaitx .rr 0 1 0 8192 4096 [familyTable true] smallRam ⟨0, 0⟩).map
      (fun result => (result.1, (result.2.proc 1).state, (result.2.proc 1).pid)) = some (-1, .unused, 0) := by
    decide +kernel
  obtain ⟨⟨ret, s⟩, result, values⟩ := Option.map_eq_some_iff.mp ran
  simp only [Prod.mk.injEq] at values
  obtain ⟨rfl, state, pid⟩ := values
  exact ⟨s, result, by decide +kernel, state, pid⟩

/-- A process with an exited child gets its times whatever is on the stack. -/
theorem waitx_discloses_no_stack :
    sysWaitx .rr 0 1 0 4096 4100 [familyTable true] smallRam ⟨0x0A0B0C0D, 7⟩ =
      sysWaitx .rr 0 1 0 4096 4100 [familyTable true] smallRam ⟨0, 0⟩ := by
  have outcomes := @waitx_discloses_nothing .rr 0 1 0 4096 4100 [familyTable true] smallRam small_separate small_distinct
  have closes := outcomes.out 2 0
  refine closes.mp (.inl fun table last => ?_) _ _
  rw [← Option.some.inj ((lastScan_family true).symm.trans last)]
  exact ⟨1, by decide +kernel⟩

/-- A process without children gets the bytes that were on the kernel stack. -/
theorem waitx_discloses_stack :
    (sysWaitx .rr 0 1 0 4096 4100 [familyTable false] smallRam ⟨0x0A0B0C0D, 7⟩).map
        (fun result => (result.1, result.2.ram.read 5 0 8)) = some (-1, [0x0D, 0x0C, 0x0B, 0x0A, 7, 0, 0, 0]) ∧
      (sysWaitx .rr 0 1 0 4096 4100 [familyTable false] smallRam ⟨0, 0⟩).map
        (fun result => (result.1, result.2.ram.read 5 0 8)) = some (-1, [0, 0, 0, 0, 0, 0, 0, 0]) := by
  decide +kernel

end Examples

end Xv6.Wait
