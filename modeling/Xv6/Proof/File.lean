/-
This file shows that threads that share an open file read and write consecutive parts of it.
-/

import Xv6.Kernel.File

namespace Xv6.Files
open TransitionSystem Contents

section Transfer

variable (user : UserRange) (n off : Nat)

theorem roundSize_le {tot : Nat} (more : tot < n) : tot + roundSize n off tot ≤ n := by
  unfold roundSize
  omega

/-- What a round of `writei` leaves: the bytes before its start, and its own bytes where it is done. -/
structure Written (byte : Nat → Byte) (before after : Contents) (start stop : Nat) : Prop where
  size : after.size = before.size
  kept : ∀ i < start, after.data i = before.data i
  safe : ∀ i < start, before.logged i = before.data i → after.logged i = before.data i
  data : ∀ i, start ≤ i → i < stop → after.data i = byte i
  logged : ∀ i, start ≤ i → i < stop → after.logged i = byte i

theorem written_fault (byte : Nat → Byte) (c : Contents) (start m : Nat) (source : Nat → Byte) :
    Written byte c (c.fill start m source) start start where
  size := rfl
  kept := by
    intro i before
    simp only [fill]
    rw [if_neg (by omega)]
  safe := fun _ _ same => same
  data := by
    intro i low high
    omega
  logged := by
    intro i low high
    omega

/-- A round stays in one block, so `log_write` records all its bytes. -/
theorem written_round (byte : Nat → Byte) (c : Contents) (start m : Nat) (fits : m ≤ bsize - start % bsize) :
    Written byte c ((c.fill start m fun i => byte (start + i)).logWrite start) start (start + m) where
  size := rfl
  kept := by
    intro i before
    simp only [fill, logWrite]
    rw [if_neg (by omega)]
  safe := by
    intro i before same
    simp only [fill, logWrite]
    rw [if_neg (by omega : ¬ (start ≤ i ∧ i < start + m)), same, ite_self]
  data := by
    intro i low high
    simp only [fill, logWrite]
    rw [if_pos ⟨low, high⟩, Nat.add_sub_cancel' low]
  logged := by
    intro i low high
    have block : i / bsize = start / bsize := by
      simp only [bsize] at fits ⊢
      omega
    simp only [fill, logWrite]
    rw [if_pos block, if_pos ⟨low, high⟩, Nat.add_sub_cancel' low]

theorem Written.trans {byte : Nat → Byte} {c d e : Contents} {start middle stop : Nat}
    (first : Written byte c d start middle) (second : Written byte d e middle stop) (forward : start ≤ middle) :
    Written byte c e start stop where
  size := second.size.trans first.size
  kept := fun i before => (second.kept i (by omega)).trans (first.kept i before)
  safe := by
    intro i before same
    have once := first.safe i before same
    have kept := first.kept i before
    rw [second.safe i (by omega) (once.trans kept.symm), kept]
  data := by
    intro i low high
    by_cases early : i < middle
    · rw [second.kept i early, first.data i low early]
    · exact second.data i (by omega) high
  logged := by
    intro i low high
    by_cases early : i < middle
    · have same := (first.logged i low early).trans (first.data i low early).symm
      rw [second.safe i early same, first.data i low early]
    · exact second.logged i (by omega) high

/-- `writei` changes nothing before its offset, and writes the bytes that it reports. -/
theorem writeLoop_written (fuel tot : Nat) (c : Contents) (inside : tot ≤ n) :
    tot ≤ (writeLoop user n off fuel tot c).2 ∧ (writeLoop user n off fuel tot c).2 ≤ n ∧
      Written (fun i => user.byte (i - off)) c (writeLoop user n off fuel tot c).1 (off + tot)
        (off + (writeLoop user n off fuel tot c).2) := by
  have nothing (c : Contents) (tot : Nat) :
      Written (fun i => user.byte (i - off)) c c (off + tot) (off + tot) :=
    ⟨rfl, fun _ _ => rfl, fun _ _ same => same, by intros; omega, by intros; omega⟩
  induction fuel generalizing tot c with
  | zero => exact ⟨Nat.le_refl _, inside, nothing c tot⟩
  | succ fuel ih =>
      unfold writeLoop
      split_ifs with more
      · dsimp only
        cases copy : user.copy tot with
        | noBlock => exact ⟨Nat.le_refl _, inside, nothing c tot⟩
        | fault copied =>
            dsimp only
            exact ⟨Nat.le_refl _, inside, written_fault _ c (off + tot) _ _⟩
        | done =>
            dsimp only
            have bound := roundSize_le n off more
            obtain ⟨forward, within, rest⟩ :=
              ih (tot + roundSize n off tot)
                ((c.fill (off + tot) (roundSize n off tot) fun i => user.byte (tot + i)).logWrite (off + tot)) bound
            have round := written_round (fun i => user.byte (i - off)) c (off + tot) (roundSize n off tot)
              (Nat.min_le_right _ _)
            have shift : (fun i => user.byte (off + tot + i - off)) = fun i => user.byte (tot + i) := by
              funext i
              congr 1
              omega
            rw [shift] at round
            refine ⟨by omega, within, round.trans ?_ (by omega)⟩
            rw [Nat.add_assoc]
            exact rest
      · exact ⟨Nat.le_refl _, inside, nothing c tot⟩

theorem readLoop_le (fuel tot : Nat) (inside : tot ≤ n) : readLoop user n off fuel tot ≤ n := by
  induction fuel generalizing tot with
  | zero =>
      unfold readLoop
      omega
  | succ fuel ih =>
      unfold readLoop
      split_ifs with more
      · cases user.copy tot with
        | noBlock =>
            dsimp only
            omega
        | fault copied =>
            dsimp only
            omega
        | done => exact ih _ (roundSize_le n off more)
      · omega

end Transfer

section Offset

variable (c : Contents) (user : UserRange) (off n : Uint)

/-- A positive result of `readi` stays inside the file. -/
theorem readi_bound (positive : 0 < c.readi user off n) : off.toNat + (c.readi user off n).toNat < 2 ^ 32 := by
  have fits (m : Uint) (room : off.toNat + m.toNat < 2 ^ 32) :
      off.toNat + (readLoop user m.toNat off.toNat m.toNat 0).toNat < 2 ^ 32 := by
    have bound := readLoop_le user m.toNat off.toNat m.toNat 0 (Nat.zero_le _)
    omega
  unfold Contents.readi at positive ⊢
  split_ifs at positive ⊢ with outside clipped
  · omega
  · apply fits
    bv_omega
  · apply fits
    bv_omega

/-- A result of `writei` other than an error comes from the loop, which stays below the largest file. -/
theorem writei_cases :
    (c.writei user off n).1 = c ∧ (c.writei user off n).2 = -1 ∨
      ∃ tot : Nat, (c.writei user off n).2 = tot ∧ tot ≤ n.toNat ∧ off.toNat + tot < 2 ^ 32 ∧
        (∀ i < off.toNat, (c.writei user off n).1.data i = c.data i) ∧
        (∀ i < off.toNat, c.logged i = c.data i → (c.writei user off n).1.logged i = c.data i) ∧
        ∀ i < tot, (c.writei user off n).1.data (off.toNat + i) = user.byte i ∧
          (c.writei user off n).1.logged (off.toNat + i) = user.byte i := by
  unfold writei
  split_ifs with outside large
  · exact .inl ⟨rfl, rfl⟩
  · exact .inl ⟨rfl, rfl⟩
  · right
    obtain ⟨_, bound, written⟩ :=
      writeLoop_written user n.toNat off.toNat n.toNat 0 c (Nat.zero_le _)
    refine ⟨(writeLoop user n.toNat off.toNat n.toNat 0 c).2, rfl, bound, ?_, ?_, ?_, ?_⟩
    · bv_omega
    · exact written.kept
    · exact written.safe
    · intro i inside
      have own := written.data (off.toNat + i) (by omega) (by omega)
      have recorded := written.logged (off.toNat + i) (by omega) (by omega)
      simp only [Nat.add_sub_cancel_left] at own recorded
      exact ⟨own, recorded⟩

end Offset

section Machine

variable {Thread : Type} {f g : FileMachine Thread} {event : FileEvent Thread}

/-- The result of `readi` or `writei` in a section. -/
def result (f : FileMachine Thread) : FileEvent Thread → Int
  | .turn t user =>
      match f.pc t with
      | .read n => f.ip.readi user f.off n
      | .write n i => (f.ip.writei user f.off (BitVec.ofNat 32 (FileMachine.chunk n i))).2
      | _ => 0
  | _ => 0

/-- The part of the file that a section with a positive result reads or writes: its offset and its size. -/
def span (entry : FileMachine Thread × FileEvent Thread) : Option (Nat × Nat) :=
  if 0 < result entry.1 entry.2 then some (entry.1.off.toNat, (result entry.1 entry.2).toNat) else none

/-- The chunk that a section with a positive result writes: its offset and its bytes. -/
def chunkOf : FileMachine Thread × FileEvent Thread → Option (Nat × List Byte)
  | (f, .turn t user) =>
      match f.pc t with
      | .write _ _ =>
          if 0 < result f (.turn t user) then
            some (f.off.toNat, (List.range (result f (.turn t user)).toNat).map user.byte)
          else none
      | _ => none
  | _ => none

def spans (trace : List (FileMachine Thread × FileEvent Thread)) : List (Nat × Nat) := trace.filterMap span

def chunks (trace : List (FileMachine Thread × FileEvent Thread)) : List (Nat × List Byte) :=
  trace.filterMap chunkOf

/-- Each part begins where the part before it ends. -/
def Consecutive : Nat → List (Nat × Nat) → Prop
  | _, [] => True
  | start, (off, size) :: rest => off = start ∧ Consecutive (start + size) rest

/-- The bytes of a chunk are in the file. -/
def Present (data : Nat → Byte) (chunk : Nat × List Byte) : Prop :=
  ∀ i (inside : i < chunk.2.length), data (chunk.1 + i) = chunk.2[i]

/-- The event is a call through another open file. -/
def Foreign : FileEvent Thread → Prop
  | .other _ => True
  | _ => False

theorem consecutive_append {start off size : Nat} {parts : List (Nat × Nat)} (before : Consecutive start parts)
    (next : off = start + (parts.map Prod.snd).sum) : Consecutive start (parts ++ [(off, size)]) := by
  induction parts generalizing start with
  | nil => exact ⟨by simpa using next, trivial⟩
  | cons part parts ih =>
      refine ⟨before.1, ih before.2 ?_⟩
      simp only [List.map_cons, List.sum_cons] at next
      omega

theorem advance_off (r : Int) (fits : 0 < r → f.off.toNat + r.toNat < 2 ^ 32) :
    (f.advance r).off.toNat = f.off.toNat + r.toNat := by
  unfold FileMachine.advance
  split_ifs with positive
  · have small := fits positive
    have value : (BitVec.ofInt 32 r).toNat = r.toNat := by
      rw [BitVec.toNat_ofInt]
      omega
    rw [BitVec.toNat_add, value, Nat.mod_eq_of_lt small]
  · omega

theorem advance_ip (r : Int) : (f.advance r).ip = f.ip := by
  unfold FileMachine.advance
  split_ifs <;> rfl

theorem spans_append (trace : List (FileMachine Thread × FileEvent Thread)) :
    spans (trace ++ [(f, event)]) = spans trace ++ (span (f, event)).toList := by
  unfold spans
  rw [List.filterMap_append]
  cases found : span (f, event) <;> simp [found]

theorem mem_chunks_append {trace : List (FileMachine Thread × FileEvent Thread)} {chunk : Nat × List Byte}
    (inside : chunk ∈ chunks (trace ++ [(f, event)])) : chunk ∈ chunks trace ∨ chunkOf (f, event) = some chunk := by
  unfold chunks at inside ⊢
  rw [List.filterMap_append, List.mem_append] at inside
  refine inside.imp_right fun last => ?_
  simpa using last

variable [DecidableEq Thread]

/-- What a section does. -/
structure Section (f g : FileMachine Thread) (t : Thread) (user : UserRange) : Prop where
  off : g.off.toNat = f.off.toNat + (result f (.turn t user)).toNat
  data : ∀ i < f.off.toNat, g.ip.data i = f.ip.data i
  logged : ∀ i < f.off.toNat, f.ip.logged i = f.ip.data i → g.ip.logged i = f.ip.data i
  own : ∀ chunk, chunkOf (f, .turn t user) = some chunk →
    chunk.1 = f.off.toNat ∧ chunk.2.length = (result f (.turn t user)).toNat ∧ Present g.ip.data chunk ∧
      Present g.ip.logged chunk

theorem section_turn {t : Thread} {user : UserRange} (stepped : f.turn t user = some g) : Section f g t user := by
  unfold FileMachine.turn at stepped
  cases position : f.pc t with
  | idle => simp [position] at stepped
  | done r => simp [position] at stepped
  | read n =>
      simp only [position, Option.some.injEq] at stepped
      subst stepped
      have value : result f (.turn t user) = f.ip.readi user f.off n := by
        simp only [result, position]
      refine ⟨?_, fun _ _ => ?_, fun _ _ same => ?_, ?_⟩
      · rw [value]
        exact advance_off _ (readi_bound f.ip user f.off n)
      · simp only [FileMachine.goto, advance_ip]
      · simpa only [FileMachine.goto, advance_ip] using same
      · intro chunk found
        simp [chunkOf, position] at found
  | write n i =>
      simp only [position, Option.some.injEq] at stepped
      subst stepped
      have value : result f (.turn t user) =
          (f.ip.writei user f.off (BitVec.ofNat 32 (FileMachine.chunk n i))).2 := by
        simp only [result, position]
      simp only [FileMachine.goto]
      rcases writei_cases f.ip user f.off (BitVec.ofNat 32 (FileMachine.chunk n i)) with
        ⟨same, failed⟩ | ⟨tot, wrote, _, room, data, logged, own⟩
      · refine ⟨?_, fun _ _ => ?_, fun _ _ old => ?_, ?_⟩
        · rw [value]
          exact advance_off (f := { f with ip := _ }) _ (by rw [failed]; nofun)
        · rw [advance_ip, same]
        · rw [advance_ip, same, old]
        · intro chunk found
          simp [chunkOf, position, value, failed] at found
      · refine ⟨?_, fun j before => ?_, fun j before old => ?_, ?_⟩
        · rw [value]
          exact advance_off (f := { f with ip := _ }) _ (by rw [wrote]; exact fun _ => room)
        · rw [advance_ip]
          exact data j before
        · rw [advance_ip]
          exact logged j before old
        · intro chunk found
          simp only [chunkOf, position, value, wrote] at found ⊢
          split_ifs at found
          obtain rfl := Option.some.inj found
          refine ⟨rfl, by simp, ?_, ?_⟩
          · intro j inside
            rw [advance_ip]
            simpa using (own j (by simpa using inside)).1
          · intro j inside
            rw [advance_ip]
            simpa using (own j (by simpa using inside)).2

/-- Only a section moves the offset. -/
theorem step_off (stepped : f.Step event g) : g.off.toNat = f.off.toNat + (result f event).toNat := by
  unfold FileMachine.Step FileMachine.next at stepped
  cases event with
  | turn t user => exact (section_turn stepped).off
  | call t call =>
      cases position : f.pc t <;> simp only [position] at stepped <;> cases stepped <;> rfl
  | evict block | other ip =>
      obtain rfl := Option.some.inj stepped
      rfl

/-- What holds of the offset and of the parts that were read and written. -/
structure Shared (start : FileMachine Thread) (trace : List (FileMachine Thread × FileEvent Thread))
    (f : FileMachine Thread) : Prop where
  off : f.off.toNat = start.off.toNat + ((spans trace).map Prod.snd).sum
  consecutive : Consecutive start.off.toNat (spans trace)
  below : ∀ chunk ∈ chunks trace, chunk.1 + chunk.2.length ≤ f.off.toNat

theorem shared_step {start : FileMachine Thread} {trace : List (FileMachine Thread × FileEvent Thread)}
    (shared : Shared start trace f) (stepped : f.Step event g) : Shared start (trace ++ [(f, event)]) g := by
  have moved := step_off stepped
  have before := shared.off
  refine ⟨?_, ?_, ?_⟩
  · rw [spans_append, List.map_append, List.sum_append, moved, before]
    unfold span
    dsimp only
    split_ifs with positive
    · simp
      omega
    · simp
      omega
  · rw [spans_append]
    unfold span
    split_ifs with positive
    · exact consecutive_append shared.consecutive before
    · simpa using shared.consecutive
  · intro chunk inside
    rcases mem_chunks_append inside with old | new
    · have bound := shared.below chunk old
      omega
    · cases event with
      | turn t user =>
          obtain ⟨place, size, _⟩ := (section_turn stepped).own chunk new
          omega
      | _ => cases new

/-- A chunk stays in the file and in the log while no call comes through another open file. -/
theorem present_step {chunk : Nat × List Byte} (below : chunk.1 + chunk.2.length ≤ f.off.toNat)
    (present : Present f.ip.data chunk ∧ Present f.ip.logged chunk) (own : ¬ Foreign event)
    (stepped : f.Step event g) : Present g.ip.data chunk ∧ Present g.ip.logged chunk := by
  unfold FileMachine.Step FileMachine.next at stepped
  cases event with
  | turn t user =>
      have turn := section_turn stepped
      constructor
      · intro i inside
        rw [turn.data _ (by omega)]
        exact present.1 i inside
      · intro i inside
        have same := (present.2 i inside).trans (present.1 i inside).symm
        rw [turn.logged _ (by omega) same]
        exact present.1 i inside
  | call t call =>
      cases position : f.pc t <;> simp only [position] at stepped <;> cases stepped <;> exact present
  | evict block =>
      obtain rfl := Option.some.inj stepped
      refine ⟨fun i inside => ?_, present.2⟩
      simp only [evict]
      split_ifs
      · exact present.2 i inside
      · exact present.1 i inside
  | other ip => exact absurd trivial own

/-- All chunks are in the file and in the log. -/
def Kept (start : FileMachine Thread) (trace : List (FileMachine Thread × FileEvent Thread))
    (f : FileMachine Thread) : Prop :=
  Shared start trace f ∧ ∀ chunk ∈ chunks trace, Present f.ip.data chunk ∧ Present f.ip.logged chunk

/-- The sections of all threads that share an open file read and write consecutive parts, and the offset is
the sum of their positive results. No section changes a byte of an earlier chunk, and as long as all calls come
through this open file the bytes of all chunks are in the file. -/
theorem shared_writes_consecutive {start f : FileMachine Thread}
    {trace : List (FileMachine Thread × FileEvent Thread)} (run : Run FileMachine.Step start trace f) :
    f.off.toNat = start.off.toNat + ((spans trace).map Prod.snd).sum ∧
      Consecutive start.off.toNat (spans trace) ∧
      (∀ t user g, f.Step (.turn t user) g → ∀ chunk ∈ chunks trace, ∀ i < chunk.2.length,
        g.ip.data (chunk.1 + i) = f.ip.data (chunk.1 + i)) ∧
      ((∀ entry ∈ trace, ¬ Foreign entry.2) → ∀ chunk ∈ chunks trace, Present f.ip.data chunk) := by
  have shared : Shared start trace f := by
    refine run.history (fun _ _ => True) (fun _ _ _ _ _ before stepped => shared_step before stepped)
      (fun _ _ => trivial) ⟨rfl, trivial, nofun⟩
  refine ⟨shared.off, shared.consecutive, ?_, fun own chunk inside => ?_⟩
  · intro t user g stepped chunk inside i small
    have bound := shared.below chunk inside
    exact (section_turn stepped).data _ (by omega)
  · have keeps (trace : List (FileMachine Thread × FileEvent Thread)) (f : FileMachine Thread)
        (event : FileEvent Thread) (g : FileMachine Thread) (mine : ¬ Foreign event)
        (before : Kept start trace f) (stepped : f.Step event g) : Kept start (trace ++ [(f, event)]) g := by
      refine ⟨shared_step before.1 stepped, fun chunk inside => ?_⟩
      rcases mem_chunks_append inside with old | new
      · exact present_step (before.1.below chunk old) (before.2 chunk old) mine stepped
      · cases event with
        | turn t user => exact ((section_turn stepped).own chunk new).2.2
        | _ => cases new
    have kept : Kept start trace f :=
      run.history (fun _ event => ¬ Foreign event) keeps own ⟨⟨rfl, trivial, nofun⟩, nofun⟩
    exact (kept.2 chunk inside).1

/-- Two threads write to a new file, the first two bytes and the second one byte. -/
def sharedWrites : List (FileEvent Bool) :=
  [.call true (.write 2), .call false (.write 1), .turn true ⟨fun _ => 97, fun _ => .done⟩,
    .turn false ⟨fun _ => 98, fun _ => .done⟩]

def newFile : FileMachine Bool := ⟨true, true, 0, ⟨0, fun _ => 0, fun _ => 0⟩, fun _ => .idle⟩

/-- The byte of the second thread follows the bytes of the first. -/
theorem shared_writes_two_threads :
    chunks (entries (computed FileMachine.next) newFile sharedWrites) = [(0, [97, 97]), (2, [98])] ∧
      Present (sharedWrites.foldl (computed FileMachine.next) newFile).ip.data (2, [98]) := by
  have run : Run FileMachine.Step newFile (entries (computed FileMachine.next) newFile sharedWrites)
      (sharedWrites.foldl (computed FileMachine.next) newFile) := run_computed (by decide +kernel)
  have written : chunks (entries (computed FileMachine.next) newFile sharedWrites) = [(0, [97, 97]), (2, [98])] := by
    decide +kernel
  refine ⟨written, (shared_writes_consecutive run).2.2.2 (fun entry inside => ?_) _ (by simp [written])⟩
  have listed := mem_entries inside
  have own : ∀ event ∈ sharedWrites, ¬ Foreign event := by
    simp [sharedWrites, Foreign]
  exact own _ listed

end Machine

end Xv6.Files
