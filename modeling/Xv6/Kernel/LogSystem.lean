/-
This file gives the machine of file-system operations over the redo log. Each locked section of an
operation is one step, each disk write of a commit or of recovery is one step, and a crash may come
between any two steps.
-/

import Xv6.Kernel.Log

namespace Xv6

/-- One block that one operation has logged. -/
structure Update where
  op : Nat
  blockno : Nat
  data : Block

/-- The log with its operations and its history. The current transaction collects the updates since
the last commit, and the committed transactions are those whose header write has completed. -/
structure LogSystem where
  log : LogState
  active : List Nat
  fresh : Nat
  current : List Update
  committed : List (List Update)

inductive LogEvent where
  | beginOp
  | logWrite (op b : Nat) (data : Block)
  | endOp (op : Nat)
  | advance
  | load (b : Nat)
  | evict (b : Nat)
  | crash

/-- The current transaction is committed by the write of its header. -/
def LogSystem.advance (sb : Superblock) (w : LogSystem) : LogSystem :=
  if w.log.pc = .writeHead then
    { w with log := w.log.advance sb, current := [], committed := w.committed ++ [w.current] }
  else { w with log := w.log.advance sb }

/-- One step of the machine. Operations get fresh numbers and log only home blocks. -/
inductive LogSystem.Step (sb : Superblock) : LogSystem → LogEvent → LogSystem → Prop where
  | beginOp {w : LogSystem} {next : LogState} :
      w.log.Ready → w.log.beginOp = some next →
      Step sb w .beginOp
        { w with log := next, active := w.fresh :: w.active, fresh := w.fresh + 1 }
  | logWrite {w : LogSystem} {next : LogState} {op b : Nat} {data : Block} :
      op ∈ w.active → sb.Home b → w.log.logWrite sb b data = .ok next →
      Step sb w (.logWrite op b data)
        { w with log := next, current := w.current ++ [⟨op, b, data⟩] }
  | endOp {w : LogSystem} {next : LogState} {op : Nat} :
      op ∈ w.active → w.log.endOp = .ok next →
      Step sb w (.endOp op) { w with log := next, active := w.active.erase op }
  | advance {w : LogSystem} : w.log.pc ≠ .idle → Step sb w .advance (w.advance sb)
  | load {w : LogSystem} {b : Nat} : w.log.pc ≠ .down →
      Step sb w (.load b) { w with log := { w.log with store := w.log.store.fetch b } }
  | evict {w : LogSystem} {b : Nat} : w.log.store.pins b = 0 →
      Step sb w (.evict b) { w with log := { w.log with
        store := { w.log.store with cache := Function.update w.log.store.cache b none } } }
  | crash {w : LogSystem} :
      Step sb w .crash { w with log := w.log.crash, active := [], current := [] }

/-- The machine starts before its first boot. -/
def LogSystem.start (disk : Nat → Block) : LogSystem :=
  ⟨⟨⟨disk, fun _ => none, fun _ => 0⟩, 0, false, [], .down⟩, [], 0, [], []⟩

/-- The state after a legal event. -/
def LogSystem.after (sb : Superblock) (w : LogSystem) : LogEvent → LogSystem
  | .beginOp => match w.log.beginOp with
      | some next => { w with log := next, active := w.fresh :: w.active, fresh := w.fresh + 1 }
      | none => w
  | .logWrite op b data => match w.log.logWrite sb b data with
      | .ok next => { w with log := next, current := w.current ++ [⟨op, b, data⟩] }
      | .error _ => w
  | .endOp op => match w.log.endOp with
      | .ok next => { w with log := next, active := w.active.erase op }
      | .error _ => w
  | .advance => w.advance sb
  | .load b => { w with log := { w.log with store := w.log.store.fetch b } }
  | .evict b => { w with log := { w.log with
      store := { w.log.store with cache := Function.update w.log.store.cache b none } } }
  | .crash => { w with log := w.log.crash, active := [], current := [] }

/-- The event is a step of the machine. -/
def LogSystem.legal (sb : Superblock) (w : LogSystem) : LogEvent → Bool
  | .beginOp => decide w.log.Ready && w.log.beginOp.isSome
  | .logWrite op b data =>
      (decide (op ∈ w.active) && decide (sb.Home b)) && (w.log.logWrite sb b data).isOk
  | .endOp op => decide (op ∈ w.active) && w.log.endOp.isOk
  | .advance => decide (w.log.pc ≠ .idle)
  | .load _ => decide (w.log.pc ≠ .down)
  | .evict b => decide (w.log.store.pins b = 0)
  | .crash => true

/-- A legal event leads to the state that `after` computes. -/
theorem LogSystem.legal_step (sb : Superblock) (w : LogSystem) (event : LogEvent)
    (legal : w.legal sb event = true) : LogSystem.Step sb w event (w.after sb event) := by
  cases event with
  | beginOp =>
      simp only [LogSystem.legal, Bool.and_eq_true, decide_eq_true_eq] at legal
      obtain ⟨next, begun⟩ := Option.isSome_iff_exists.mp legal.2
      simp only [LogSystem.after, begun]
      exact .beginOp legal.1 begun
  | logWrite op b data =>
      simp only [LogSystem.legal, Bool.and_eq_true, decide_eq_true_eq] at legal
      cases written : w.log.logWrite sb b data with
      | error panic => simp [written, Except.isOk, Except.toBool] at legal
      | ok next =>
          simp only [LogSystem.after, written]
          exact .logWrite legal.1.1 legal.1.2 written
  | endOp op =>
      simp only [LogSystem.legal, Bool.and_eq_true, decide_eq_true_eq] at legal
      cases ended : w.log.endOp with
      | error panic => simp [ended, Except.isOk, Except.toBool] at legal
      | ok next =>
          simp only [LogSystem.after, ended]
          exact .endOp legal.1 ended
  | advance => exact .advance (of_decide_eq_true legal)
  | load b => exact .load (of_decide_eq_true legal)
  | evict b => exact .evict (of_decide_eq_true legal)
  | crash => exact .crash

end Xv6
