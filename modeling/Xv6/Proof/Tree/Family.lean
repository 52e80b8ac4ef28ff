import Xv6.Proof.Tree.Records

namespace Xv6.ProcTree
open TransitionSystem

/-- What a successful `wait` or `waitx` leaves with its caller about a process: the register of the
result, and the status in the memory of the caller if it gave an address for it. -/
structure Report where
  serial : Nat
  returned : Option Uint64
  status : Option CInt
  deriving DecidableEq

/-- The report that the process which takes the step finds after it. -/
def Report.of (serial : Nat) (t : ProcSystem) : ProcEvent → Report
  | .advance p _ => ⟨serial, (t.proc p).trapframe.map fun frame => frame.regs .a0, t.told p⟩
  | _ => ⟨serial, none, none⟩

/-- The history numbers the processes in the order of their creation and remembers their pids,
their exits and the reports of them. -/
structure History where
  serial : Slot → Nat
  births : List CInt
  exits : List (Nat × CInt)
  reports : List Report

/-- The history after something has happened to one slot. -/
def History.record (h : History) (s : ProcSystem) (event : ProcEvent) (t : ProcSystem) (i : Slot) : History :=
  match occurrence s event i with
  | .born _ _ =>
      { h with serial := Function.update h.serial i h.births.length, births := h.births ++ [s.nextpid] }
  | .died status => { h with exits := h.exits ++ [(h.serial i, status)] }
  | .freed => { h with reports := h.reports ++ [.of (h.serial i) t event] }
  | _ => h

/-- The slot whose process the event creates, ends or reports, if there is one. -/
def subject (s : ProcSystem) : ProcEvent → Option Slot
  | .advance p _ => match s.pc p with
      | .fork k => slotAt k
      | .exitZombie _ => some p
      | .waitScan _ k _ => slotAt k
      | _ => none
  | _ => none

/-- The history after one event. -/
def History.observe (h : History) (s : ProcSystem) (event : ProcEvent) (t : ProcSystem) : History :=
  match subject s event with
  | some i => h.record s event t i
  | none => h

/-- The machine together with its history. -/
abbrev Recorded := Monitored ProcSystem History

def Recorded.Step (build : Build) : Recorded → ProcEvent → Recorded → Prop :=
  Monitored.Step (fun s => s.Step build) History.observe

/-- The first process has the number zero and the pid one. -/
def Recorded.boot (build : Build) (table cwd : Uint64) : Recorded :=
  ⟨ProcSystem.boot build table cwd, ⟨fun _ => 0, [1], [], []⟩⟩

/-- A record in use after the step belongs to the process that it belonged to before. -/
def Keeps (p q : Proc) : Prop :=
  q.state ≠ .unused → p.state ≠ .unused ∧ q.pid = p.pid ∧ q.xstate = p.xstate ∧
    (q.state = .zombie ↔ p.state = .zombie)

section Slots

variable {build : Build} {s t : ProcSystem} {event : ProcEvent} {i : Slot}

end Slots

section Histories

variable {s t : ProcSystem} {h : History} {i : Slot}

end Histories

/-- Every process in use has a trapframe. -/
def Framed (s : ProcSystem) : Prop := ∀ i, (s.proc i).state ≠ .unused → (s.proc i).trapframe.isSome

section Frames

variable {build : Build} {s t : ProcSystem} {event : ProcEvent} {i : Slot}

end Frames

section Runs

variable {build : Build} {w v : Recorded} {event : ProcEvent}

end Runs

def Recorded.after (build : Build) : Recorded → ProcEvent → Recorded :=
  Monitored.after (computed fun s => s.next build) History.observe

end Xv6.ProcTree
