import Xv6.Proof.Log.Phase

namespace Xv6.Log
open RedoLog TransitionSystem

section Calls

variable {sb : Superblock} {s next : LogState}

/-- `begin_op` returns only while no commit runs, and counts the operation. -/
theorem beginOp_spec (begun : s.beginOp = some next) :
    s.committing = false ∧ next = { s with outstanding := s.outstanding + 1 } := by
  unfold LogState.beginOp at begun
  split_ifs at begun with committing full
  exact ⟨by simpa using committing, (Option.some.inj begun).symm⟩

/-- `log_write` changes only the header in memory and the cache. -/
theorem logWrite_frame {b : Nat} {data : Block} (written : s.logWrite sb b data = .ok next) :
    next.pc = s.pc ∧ next.outstanding = s.outstanding ∧ next.committing = s.committing := by
  unfold LogState.logWrite at written
  dsimp only at written
  split_ifs at written <;> obtain rfl := Except.ok.inj written <;> exact ⟨rfl, rfl, rfl⟩

/-- `end_op` commits exactly when it ends the last operation. -/
theorem endOp_frame (ended : s.endOp = .ok next) :
    next.outstanding = s.outstanding - 1 ∧
      (next.pc ≠ s.pc → next.outstanding = 0 ∧ next.committing = true) := by
  unfold LogState.endOp at ended
  dsimp only at ended
  split_ifs at ended with committing last logged <;> obtain rfl := Except.ok.inj ended
  · exact ⟨rfl, fun _ => ⟨last, rfl⟩⟩
  · exact ⟨rfl, fun _ => ⟨last, rfl⟩⟩
  · exact ⟨rfl, fun moved => absurd rfl moved⟩

end Calls

section Agreement

variable {sb : Superblock} {s : LogState} {state : Nat → Block} {current : List Update}

/-- An operation that fills a buffer keeps the transaction open. -/
theorem agrees_logWrite {b : Nat} {data : Block} {next : LogState} {op : Nat}
    (idle : s.pc = .idle) (home : sb.Home b) (written : s.logWrite sb b data = .ok next)
    (agrees : Agrees sb s state current) :
    Agrees sb next state (current ++ [⟨op, b, data⟩]) := by
  obtain ⟨addrs, stable, phase⟩ := agrees
  simp only [Phase, idle] at phase
  obtain ⟨rfl, opened⟩ := phase
  have view : applyAll state (writes (current ++ [⟨op, b, data⟩])) =
      Function.update (applyAll state (writes current)) b data := by
    simp [writes, applyAll]
  have members (a : Nat) : (∃ update ∈ current ++ [⟨op, b, data⟩], update.blockno = a) ↔
      a ∈ s.lh ∨ a = b := by
    simp [opened.members, or_and_right, exists_or, eq_comm]
  unfold LogState.logWrite at written
  dsimp only at written
  split_ifs at written with big outside logged
  · obtain rfl := Except.ok.inj written
    refine ⟨[], stable, ?_⟩
    simp only [Phase, idle]
    refine ⟨trivial, opened.nodup, fun a => ?_, opened.home, opened.fits, ?_⟩
    · rw [members]
      exact ⟨Or.inl, fun either => either.elim id fun same => same ▸ logged⟩
    · rw [view]
      exact opened.coherent.absorb (home_area home) data logged
  · obtain rfl := Except.ok.inj written
    refine ⟨[], stable, ?_⟩
    simp only [Phase, idle]
    refine ⟨trivial, ?_, fun a => ?_, fun a member => ?_, ?_, ?_⟩
    · exact List.nodup_append_comm.mp (List.nodup_cons.mpr ⟨logged, opened.nodup⟩)
    · rw [members]
      simp
    · rcases List.mem_append.mp member with old | new
      · exact opened.home a old
      · exact List.mem_singleton.mp new ▸ home_area home
    · simp only [redoArea, List.length_append, List.length_singleton]
      omega
    · rw [view]
      exact opened.coherent.log_new (home_area home) data logged

/-- The last operation to end starts the commit of the open transaction. -/
theorem agrees_endOp {next : LogState} (idle : s.pc = .idle) (ended : s.endOp = .ok next)
    (agrees : Agrees sb s state current) : Agrees sb next state current := by
  obtain ⟨addrs, stable, phase⟩ := agrees
  simp only [Phase, idle] at phase
  unfold LogState.endOp at ended
  dsimp only at ended
  split_ifs at ended with committing last logged
  · obtain rfl := Except.ok.inj ended
    exact ⟨addrs, stable, phase.1, phase.2,
      fun _ _ impossible => absurd impossible (Nat.not_lt_zero _)⟩
  · obtain rfl := Except.ok.inj ended
    exact ⟨addrs, stable, phase⟩
  · obtain rfl := Except.ok.inj ended
    refine ⟨addrs, stable, ?_⟩
    simp only [Phase, idle]
    exact phase

/-- A change of the cache alone keeps the agreement if it keeps the store coherent and clean. -/
theorem agrees_cache {store : Store} (disk : store.disk = s.store.disk)
    (coherent : ∀ {state pinned}, Coherent sb s.store state pinned → Coherent sb store state pinned)
    (clean : Clean s.store → Clean store) (agrees : Agrees sb s state current) :
    Agrees sb { s with store := store } state current := by
  obtain ⟨addrs, stable, phase⟩ := agrees
  have opened (before : Open sb s.store s.lh state current) : Open sb store s.lh state current :=
    ⟨before.nodup, before.members, before.home, before.fits, coherent before.coherent⟩
  refine ⟨addrs, by simpa only [disk] using stable, ?_⟩
  cases position : s.pc with
  | install recovering tail =>
      cases recovering <;> simp only [Phase, position, disk] at phase ⊢
      · exact ⟨phase.1, phase.2.1, phase.2.2.1, coherent phase.2.2.2.1, phase.2.2.2.2⟩
      · exact ⟨phase.1, phase.2.1, clean phase.2.2.1, phase.2.2.2⟩
  | erase recovering =>
      cases recovering <;> simp only [Phase, position, disk] at phase ⊢
      · exact ⟨phase.1, phase.2.1, coherent phase.2.2.1, phase.2.2.2⟩
      · exact ⟨phase.1, phase.2.1, clean phase.2.2.1, phase.2.2.2⟩
  | idle | finish =>
      simp only [Phase, position] at phase ⊢
      exact ⟨phase.1, opened phase.2⟩
  | writeLog | writeHead =>
      simp only [Phase, position, Copied, disk] at phase ⊢
      exact ⟨phase.1, opened phase.2.1, phase.2.2⟩
  | down =>
      simp only [Phase, position] at phase ⊢
      exact ⟨phase.1, phase.2.1, clean phase.2.2⟩

end Agreement

/-- No operation has updates in both transactions. -/
def Apart (first second : List Update) : Prop := ∀ x ∈ first, ∀ y ∈ second, x.op ≠ y.op

/-- The operations and the history agree. Every operation keeps to one transaction. -/
structure Ops (w : LogSystem) : Prop where
  count : w.log.outstanding = w.active.length
  busy : w.log.pc ≠ .idle → w.active = []
  committing : w.log.Ready → w.log.pc ≠ .idle → w.log.committing = true
  started : ∀ op ∈ w.active, op < w.fresh
  known : ∀ update ∈ w.current, update.op < w.fresh
  ended : ∀ updates ∈ w.committed, ∀ update ∈ updates, update.op < w.fresh ∧ update.op ∉ w.active
  apart : w.committed.Pairwise Apart
  separate : ∀ updates ∈ w.committed, Apart updates w.current

/-- An active operation runs only while no commit runs. -/
theorem Ops.idle {w : LogSystem} (ops : Ops w) {op : Nat} (active : op ∈ w.active) :
    w.log.pc = .idle := by
  by_contra running
  simp [ops.busy running] at active

/-- A commit that is under way stays marked until its last step. -/
theorem advance_committing {sb : Superblock} {s : LogState}
    (marked : s.Ready → s.pc ≠ .idle → s.committing = true) (running : s.pc ≠ .idle)
    (ready : (s.advance sb).Ready) (busy : (s.advance sb).pc ≠ .idle) :
    (s.advance sb).committing = true := by
  cases position : s.pc with
  | idle => exact absurd position running
  | writeLog tail =>
      have held := marked (by simp [LogState.Ready, position, LogPc.recovering]) running
      simp only [LogState.advance, position]
      split_ifs <;> exact held
  | writeHead =>
      have held := marked (by simp [LogState.Ready, position, LogPc.recovering]) running
      simpa only [LogState.advance, position] using held
  | install recovering tail =>
      cases recovering with
      | false =>
          have held := marked (by simp [LogState.Ready, position, LogPc.recovering]) running
          simp only [LogState.advance, position]
          split_ifs <;> exact held
      | true =>
          simp only [LogState.Ready, LogState.advance, position] at ready
          split_ifs at ready <;> simp [LogPc.recovering] at ready
  | erase recovering =>
      cases recovering with
      | false =>
          have held := marked (by simp [LogState.Ready, position, LogPc.recovering]) running
          simpa only [LogState.advance, position] using held
      | true => simp [LogState.advance, position] at busy
  | finish => simp [LogState.advance, position] at busy
  | down => simp [LogState.Ready, LogState.advance, position, LogPc.recovering] at ready

/-- The commit thread keeps the operations as they are, up to the move of the current
transaction. -/
theorem ops_advance {sb : Superblock} {w : LogSystem} (ops : Ops w) (running : w.log.pc ≠ .idle) :
    Ops (w.advance sb) := by
  have none := ops.busy running
  have count : (w.log.advance sb).outstanding = w.log.outstanding := by
    unfold LogState.advance
    split <;> first | rfl | (split_ifs <;> rfl)
  unfold LogSystem.advance
  split_ifs with header
  · refine ⟨count.trans ops.count, fun _ => none, advance_committing ops.committing running,
      ops.started, by simp, ?_, ?_, fun _ _ _ _ _ impossible => absurd impossible List.not_mem_nil⟩
    · intro updates member update inside
      rcases List.mem_append.mp member with old | new
      · exact ops.ended updates old update inside
      · obtain rfl := List.mem_singleton.mp new
        exact ⟨ops.known update inside, by simp [none]⟩
    · refine List.pairwise_append.mpr ⟨ops.apart, List.pairwise_singleton _ _, ?_⟩
      intro updates member last same
      exact List.mem_singleton.mp same ▸ ops.separate updates member
  · exact ⟨count.trans ops.count, fun _ => none, advance_committing ops.committing running,
      ops.started, ops.known, ops.ended, ops.apart, ops.separate⟩

/-- Every step keeps the operations and the history in agreement. -/
theorem ops_step {sb : Superblock} {w v : LogSystem} {event : LogEvent} (ops : Ops w)
    (stepped : LogSystem.Step sb w event v) : Ops v := by
  cases stepped with
  | @beginOp next ready begun =>
      obtain ⟨idle, rfl⟩ := beginOp_spec begun
      have quiet : w.log.pc = .idle := by
        by_contra busy
        simp [ops.committing ready busy] at idle
      refine ⟨by simp [ops.count], fun busy => absurd quiet busy, fun _ busy => absurd quiet busy,
        fun op member => ?_, fun update inside => Nat.lt_succ_of_lt (ops.known update inside),
        fun updates member update inside => ?_, ops.apart, ops.separate⟩
      · rcases List.mem_cons.mp member with rfl | old
        · exact Nat.lt_succ_self _
        · exact Nat.lt_succ_of_lt (ops.started op old)
      · obtain ⟨known, absent⟩ := ops.ended updates member update inside
        exact ⟨Nat.lt_succ_of_lt known, by simp [absent, Nat.ne_of_lt known]⟩
  | @logWrite next op b data active home written =>
      obtain ⟨pc, count, _⟩ := logWrite_frame written
      have idle : next.pc = .idle := pc.trans (ops.idle active)
      refine ⟨count.trans ops.count, fun busy => absurd idle busy, fun _ busy => absurd idle busy,
        ops.started, fun update inside => ?_, ops.ended, ops.apart,
        fun updates member x inside y last => ?_⟩
      · rcases List.mem_append.mp inside with old | new
        · exact ops.known update old
        · obtain rfl := List.mem_singleton.mp new
          exact ops.started op active
      · rcases List.mem_append.mp last with old | new
        · exact ops.separate updates member x inside y old
        · obtain rfl := List.mem_singleton.mp new
          exact fun same => (ops.ended updates member x inside).2 (same ▸ active)
  | @endOp next op active ended =>
      have quiet := ops.idle active
      obtain ⟨count, commits⟩ := endOp_frame ended
      have length : next.outstanding = (w.active.erase op).length := by
        rw [count, ops.count, List.length_erase_of_mem active]
      have subset (other : Nat) (member : other ∈ w.active.erase op) : other ∈ w.active :=
        List.mem_of_mem_erase member
      refine ⟨length, fun busy => ?_, fun _ busy => (commits (quiet ▸ busy)).2,
        fun other member => ops.started other (subset other member), ops.known,
        fun updates member update inside => ?_, ops.apart, ops.separate⟩
      · rw [(commits (quiet ▸ busy)).1] at length
        exact List.eq_nil_of_length_eq_zero length.symm
      · obtain ⟨known, absent⟩ := ops.ended updates member update inside
        exact ⟨known, fun still => absent (subset _ still)⟩
  | advance running => exact ops_advance ops running
  | load _ | evict _ =>
      exact ⟨ops.count, ops.busy, ops.committing, ops.started, ops.known, ops.ended, ops.apart,
        ops.separate⟩
  | crash =>
      refine ⟨rfl, fun _ => rfl, fun ready => (nomatch ready), by simp, by simp,
        fun updates member update inside => ?_, ops.apart,
        fun _ _ _ _ _ impossible => absurd impossible List.not_mem_nil⟩
      exact ⟨(ops.ended updates member update inside).1, List.not_mem_nil⟩

/-- The history starts empty. -/
theorem ops_start (disk : Nat → Block) : Ops (LogSystem.start disk) where
  count := rfl
  busy := fun _ => rfl
  committing := fun ready => (nomatch ready)
  started := by simp [LogSystem.start]
  known := by simp [LogSystem.start]
  ended := by simp [LogSystem.start]
  apart := List.Pairwise.nil
  separate := by simp [LogSystem.start]

section Runs

variable {sb : Superblock} {disk : Nat → Block}

/-- The disk stands for the committed transactions, and the operations keep to one transaction. -/
structure LogInv (sb : Superblock) (disk : Nat → Block) (w : LogSystem) : Prop where
  agrees : Agrees sb w.log (committedState disk w.committed) w.current
  ops : Ops w

theorem logInv_start (clear : readHead (disk sb.logstart) = []) :
    LogInv sb disk (LogSystem.start disk) where
  agrees := by
    refine ⟨[], ⟨clear, Nat.zero_le _, by simp, fun _ _ _ => rfl, ?_⟩, rfl, rfl,
      clean_crash ⟨disk, fun _ => none, fun _ => 0⟩⟩
    exact fun _ impossible => absurd impossible (Nat.not_lt_zero _)
  ops := ops_start disk

/-- Every step keeps the invariant. -/
theorem logInv_step {w v : LogSystem} {event : LogEvent} (inv : LogInv sb disk w)
    (stepped : LogSystem.Step sb w event v) : LogInv sb disk v := by
  refine ⟨?_, ops_step inv.ops stepped⟩
  cases stepped with
  | beginOp _ begun =>
      obtain ⟨_, rfl⟩ := beginOp_spec begun
      exact inv.agrees
  | logWrite active home written =>
      exact agrees_logWrite (inv.ops.idle active) home written inv.agrees
  | endOp active ended => exact agrees_endOp (inv.ops.idle active) ended inv.agrees
  | advance _ =>
      unfold LogSystem.advance
      split_ifs with header
      · rw [committedState_append]
        exact agrees_writeHead header inv.agrees
      · exact agrees_advance header inv.agrees
  | load _ =>
      exact agrees_cache rfl (fun coherent => coherent.fetch _) (fun clean => clean.fetch _)
        inv.agrees
  | evict free =>
      exact agrees_cache rfl (fun coherent => coherent.evict free) (fun clean => clean.evict _)
        inv.agrees
  | crash =>
      obtain ⟨addrs, stable, _⟩ := inv.agrees
      exact ⟨addrs, stable, rfl, rfl, clean_crash _⟩

theorem logInv_reachable {w : LogSystem} (clear : readHead (disk sb.logstart) = [])
    (reached : Reachable (LogSystem.Step sb) (LogSystem.start disk) w) : LogInv sb disk w :=
  reached.invariant (fun _ _ _ inv stepped => logInv_step inv stepped) (logInv_start clear)

end Runs

/-- The recovery loop installs the blocks in order. -/
theorem recover_loop {sb : Superblock} {s : Store} {state : Nat → Block} {lh : List Nat}
    (clean : Clean s) (stable : Stable (redoArea sb) s.disk lh state) (count : Nat)
    (bound : count ≤ lh.length) :
    let after := (List.range count).foldl (fun store tail => installTrans sb lh true tail store) s
    Clean after ∧ Stable (redoArea sb) after.disk lh state ∧ RedoLog.Installed after.disk lh state count := by
  induction count with
  | zero => exact ⟨clean, stable, fun _ _ impossible => absurd impossible (Nat.not_lt_zero _)⟩
  | succ count ih =>
      obtain ⟨before, stands, installed⟩ := ih (by omega)
      have inside : count < lh.length := by omega
      obtain ⟨after, disk⟩ := before.installTrans sb inside
      simp only [List.range_succ, List.foldl_append, List.foldl_cons, List.foldl_nil]
      refine ⟨after, ?_, ?_⟩
      · rw [disk]
        exact stands.install inside
      · rw [disk]
        exact stands.installed_succ inside installed

/-- Recovery gives every home block the contents that the disk stands for. -/
theorem recoverFromLog_home {sb : Superblock} {s : Store} {state : Nat → Block} {addrs : List Nat}
    (clean : Clean s) (stable : Stable (redoArea sb) s.disk addrs state) {b : Nat}
    (home : sb.Home b) : (recoverFromLog sb s).disk b = state b := by
  have fetched := clean.fetch sb.logstart
  have head : readHead ((s.fetch sb.logstart).bread sb.logstart) = addrs := by
    rw [fetched.bread]
    exact stable.header
  obtain ⟨after, stands, installed⟩ := recover_loop fetched stable addrs.length (Nat.le_refl _)
  have outside : b ≠ sb.logstart := (home_area home).1
  simp only [recoverFromLog, head, writeHead_disk, Function.update_of_ne outside]
  exact stands.home_eq installed (home_area home)

/-- After a crash at any point of any run, recovery gives the home blocks exactly the contents after
the committed transactions, and no operation has updates in two transactions. -/
theorem crash_recovers_committed (sb : Superblock) (disk : Nat → Block)
    (clear : readHead (disk sb.logstart) = []) (w : LogSystem)
    (reached : Reachable (LogSystem.Step sb) (LogSystem.start disk) w) :
    (∀ b, sb.Home b →
      (recoverFromLog sb w.log.store.crash).disk b = committedState disk w.committed b) ∧
    (w.committed ++ [w.current]).Pairwise Apart := by
  have inv := logInv_reachable clear reached
  obtain ⟨addrs, stable, _⟩ := inv.agrees
  refine ⟨fun b home => recoverFromLog_home (clean_crash _) stable home, ?_⟩
  refine List.pairwise_append.mpr ⟨inv.ops.apart, List.pairwise_singleton _ _, ?_⟩
  intro updates member last same
  exact List.mem_singleton.mp same ▸ inv.ops.separate updates member

/-- A boot, one operation that logs one block, and the first steps of its commit. -/
def oneCommit : List LogEvent :=
  [.advance, .advance, .advance, .beginOp, .logWrite 0 100 (fun _ => 7), .endOp 0, .advance,
    .advance, .advance]

/-- A crash right after the header write keeps the block that the operation logged. -/
theorem crash_keeps_one_commit :
    (∀ b, mkfsSuperblock.Home b →
      (recoverFromLog mkfsSuperblock
        (oneCommit.foldl (LogSystem.after mkfsSuperblock)
          (LogSystem.start fun _ _ => 0)).log.store.crash).disk b =
        committedState (fun _ _ => 0) [[⟨0, 100, fun _ => 7⟩]] b) ∧
    [[⟨0, 100, fun _ => 7⟩], []].Pairwise Apart :=
  crash_recovers_committed mkfsSuperblock (fun _ _ => 0) (by decide) _
    (reachable_of_plays (LogSystem.legal_step mkfsSuperblock) (by decide))

/-- Outside recovery every home block reads as the open transaction leaves it. -/
theorem Agrees.bread {sb : Superblock} {s : LogState} {state : Nat → Block} {current : List Update}
    (agrees : Agrees sb s state current) (ready : s.Ready) {b : Nat} (home : (redoArea sb).Home b) :
    s.store.bread b = applyAll state (writes current) b := by
  obtain ⟨addrs, _, phase⟩ := agrees
  unfold Phase at phase
  unfold LogState.Ready at ready
  split at phase <;> rename_i position <;> rw [position] at ready
  case h_1 | h_2 => exact phase.2.coherent.bread_home home
  case h_3 | h_4 => exact phase.2.1.coherent.bread_home home
  case h_5 =>
    obtain ⟨_, rfl, _, coherent, _⟩ := phase
    exact coherent.bread_home home
  case h_6 =>
    obtain ⟨_, rfl, coherent, _⟩ := phase
    exact coherent.bread_home home
  all_goals cases ready

/-- In every reachable state outside recovery `bread` shows the last logged contents of a home block, committed or
not. The disk has no contents that are not committed while its header is empty. -/
theorem log_reads_latest (sb : Superblock) (disk : Nat → Block) (clear : readHead (disk sb.logstart) = [])
    (w : LogSystem) (reached : Reachable (LogSystem.Step sb) (LogSystem.start disk) w) (b : Nat) (home : sb.Home b) :
    (w.log.Ready → w.log.store.bread b = committedState disk (w.committed ++ [w.current]) b) ∧
      (readHead (w.log.store.disk sb.logstart) = [] → w.log.store.disk b = committedState disk w.committed b) := by
  have inv := logInv_reachable clear reached
  obtain ⟨addrs, stable, _⟩ := inv.agrees
  refine ⟨fun ready => ?_, fun empty => ?_⟩
  · rw [committedState_append]
    exact inv.agrees.bread ready (home_area home)
  · obtain rfl : addrs = [] := stable.header.symm.trans empty
    exact stable.kept b (home_area home) List.not_mem_nil

/-- During the commit `bread` shows the block that the operation logged. -/
theorem log_reads_one_commit :
    (oneCommit.foldl (LogSystem.after mkfsSuperblock) (LogSystem.start fun _ _ => 0)).log.store.bread 100 =
      committedState (fun _ _ => 0) [[⟨0, 100, fun _ => 7⟩], []] 100 :=
  (log_reads_latest mkfsSuperblock (fun _ _ => 0) (by decide) _
    (reachable_of_plays (LogSystem.legal_step mkfsSuperblock) (by decide)) 100 (by decide)).1 (by decide)

end Xv6.Log
