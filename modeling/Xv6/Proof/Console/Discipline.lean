/-
This file shows that the console behaves like the reference line editor. The ring of the console holds the committed
characters and then the unfinished line.
-/

import Xv6.Proof.Console.Editor

namespace Xv6.ConsoleInput
open TransitionSystem LineEditor

/-- The characters of the console, with the write index between the two parts. -/
structure Holds (s : Cons) (line pending : List Byte) : Prop where
  contents : s.ring.contents = line ++ pending
  written : (s.w - s.r).toNat = line.length
  bound : s.ring.count ≤ inputBufSize

section Ring

variable {s : Cons} {line pending : List Byte}

theorem Holds.count (holds : Holds s line pending) : s.ring.count = line.length + pending.length := by
  rw [← s.ring.contents_length, holds.contents, List.length_append]

theorem edit_count (s : Cons) : (s.e - s.r).toNat = s.ring.count := rfl

/-- The write index meets the edit index when no line is unfinished. -/
theorem Holds.edit_iff (holds : Holds s line pending) : s.e = s.w ↔ pending = [] := by
  have total := holds.count
  rw [← edit_count] at total
  constructor
  · intro same
    rw [same, holds.written] at total
    exact List.eq_nil_of_length_eq_zero (by omega)
  · intro none
    rw [none, List.length_nil, Nat.add_zero, ← holds.written] at total
    exact sub_left_inj.mp (BitVec.eq_of_toNat_eq total)

/-- The read index meets the write index when every line is read. -/
theorem Holds.read_iff (holds : Holds s line pending) : s.r = s.w ↔ line = [] := by
  have total := holds.written
  constructor
  · intro same
    rw [same, BitVec.sub_self] at total
    exact List.eq_nil_of_length_eq_zero total.symm
  · intro none
    rw [none] at total
    have zero : s.w - s.r = 0 := BitVec.eq_of_toNat_eq total
    exact (sub_eq_zero.mp zero).symm

/-- A reader takes the first committed character. -/
theorem Holds.pop {c : Byte} (holds : Holds s (c :: line) pending) :
    s.buf (RingBuffer.slot s.r) = c ∧ Holds { s with r := s.r + 1 } line pending := by
  have full : s.ring.count ≠ 0 := by
    rw [holds.count, List.length_cons]
    omega
  have parts : s.buf (RingBuffer.slot s.r) :: s.ring.pop.contents = c :: (line ++ pending) :=
    (s.ring.contents_pop full).symm.trans holds.contents
  obtain ⟨head, rest⟩ := List.cons.inj parts
  refine ⟨head, ⟨rest, ?_, ?_⟩⟩
  · have lines : (RingBuffer.mk s.buf s.r s.w : RingBuffer Byte inputBufSize 32).count ≠ 0 := by
      show (s.w - s.r).toNat ≠ 0
      rw [holds.written]
      exact Nat.succ_ne_zero _
    have moved := RingBuffer.count_pop _ lines
    have total : (s.w - (s.r + 1)).toNat + 1 = (s.w - s.r).toNat := moved
    rw [holds.written, List.length_cons] at total
    exact Nat.succ.inj total
  · have moved := s.ring.count_pop full
    have less : s.ring.pop.count ≤ inputBufSize := by
      have bound := holds.bound
      omega
    exact less

/-- The last character of an unfinished line is taken back. -/
theorem Holds.erase {c : Byte} (holds : Holds s line (pending ++ [c])) :
    s.buf (RingBuffer.slot (s.e - 1)) = c ∧ Holds { s with e := s.e - 1 } line pending := by
  have full : s.ring.count ≠ 0 := by
    rw [holds.count, List.length_append, List.length_singleton]
    omega
  have parts : s.ring.unpush.contents ++ [s.buf (RingBuffer.slot (s.e - 1))] = line ++ pending ++ [c] := by
    rw [List.append_assoc]
    exact (s.ring.contents_unpush full).symm.trans holds.contents
  obtain ⟨rest, last⟩ := List.append_inj' parts rfl
  refine ⟨List.singleton_inj.mp last, ⟨rest, holds.written, ?_⟩⟩
  have moved := s.ring.count_unpush full
  have less : s.ring.unpush.count ≤ inputBufSize := by
    have bound := holds.bound
    omega
  exact less

/-- A character is stored at the edit index. -/
theorem Holds.store (holds : Holds s line pending) (room : line.length + pending.length < inputBufSize) (c : Byte) :
    Holds { s with buf := Function.update s.buf (RingBuffer.slot s.e) c, e := s.e + 1 } line (pending ++ [c]) := by
  have small : s.ring.count < inputBufSize := by
    rw [holds.count]
    exact room
  have pushed : (s.ring.push c).contents = s.ring.contents ++ [c] :=
    s.ring.contents_push c (by decide) small (by decide)
  refine ⟨?_, holds.written, ?_⟩
  · rw [← List.append_assoc, ← holds.contents]
    exact pushed
  · have total := s.ring.count_push c (Nat.lt_of_le_of_lt small (by decide))
    have less : (s.ring.push c).count ≤ inputBufSize := by omega
    exact less

/-- The unfinished line is committed. -/
theorem Holds.commit (holds : Holds s line pending) : Holds { s with w := s.e } (line ++ pending) [] := by
  refine ⟨?_, ?_, holds.bound⟩
  · rw [List.append_nil]
    exact holds.contents
  · have total := holds.count
    rw [List.length_append, ← total]
    rfl

/-- `^U` takes back the whole unfinished line. -/
theorem Holds.killLine (holds : Holds s line pending) (unfinished : newline ∉ pending) :
    Holds (s.killLine pending.length) line [] := by
  induction pending using List.reverseRecOn generalizing s with
  | nil => exact holds
  | append_singleton pending c ih =>
      obtain ⟨last, shorter⟩ := holds.erase
      have more : s.e ≠ s.w := by
        rw [Ne, holds.edit_iff]
        exact List.append_ne_nil_of_right_ne_nil _ (List.cons_ne_nil _ _)
      have other : s.buf (RingBuffer.slot (s.e - 1)) ≠ newline := by
        rw [last]
        intro same
        exact unfinished (List.mem_append_right _ (by rw [same]; exact List.mem_cons_self))
      rw [List.length_append, List.length_singleton, Cons.killLine, if_pos ⟨more, other⟩]
      exact ih shorter fun inside => unfinished (List.mem_append_left _ inside)

theorem Holds.pending_length (holds : Holds s line pending) : (s.e - s.w).toNat = pending.length := by
  have whole : s.e - s.w = (s.e - s.r) - (s.w - s.r) := (sub_sub_sub_cancel_right _ _ _).symm
  have total := holds.count
  rw [← edit_count] at total
  rw [whole, BitVec.toNat_sub_of_le, total, holds.written, Nat.add_sub_cancel_left]
  rw [BitVec.le_def, holds.written, total]
  exact Nat.le_add_right _ _

end Ring

section Keys

variable {Thread : Type} {s : Cons} {e : LineEditor Thread}

/-- A key of the editor that enters nothing. -/
theorem key_none {c : Byte} (out : ¬ e.enters c) : e.commits c = [] := if_neg fun both => out both.1

theorem command_out {c : Byte} (key : command c) : ¬ e.enters c := fun enters => enters.1 key

/-- The console and the editor after a key. -/
structure KeyMatches (e : LineEditor Thread) (c : Byte) (result : Cons × Bool) : Prop where
  holds : Holds result.1 (e.committed ++ e.commits c) (e.edited c)
  wakes : result.2 = decide (e.enters c ∧ e.completes (LineEditor.translate c))

theorem keyMatches_quiet {c : Byte} {pending : List Byte} (out : ¬ e.enters c) (edited : e.edited c = pending)
    {next : Cons} (holds : Holds next e.committed pending) : KeyMatches e c (next, false) := by
  refine ⟨?_, ?_⟩
  · rw [key_none out, List.append_nil, edited]
    exact holds
  · exact (decide_eq_false fun both => out both.1).symm

theorem edited_erase {c : Byte} (key : c = ctrl 'H' ∨ c = deleteKey) : e.edited c = e.pending.dropLast := by
  have command : command c := key.elim (fun h => .inr (.inr (.inl h))) fun h => .inr (.inr (.inr (.inl h)))
  have other : c ≠ ctrl 'U' := by
    rcases key with rfl | rfl <;> decide
  unfold edited
  rw [if_neg (command_out command), if_neg other, if_pos key]

/-- Backspace and delete. -/
theorem keyMatches_erase {c : Byte} (holds : Holds s e.committed e.pending) (key : c = ctrl 'H' ∨ c = deleteKey) :
    KeyMatches e c (if s.e ≠ s.w then { s with e := s.e - 1 } else s, false) := by
  have command : command c := key.elim (fun h => .inr (.inr (.inl h))) fun h => .inr (.inr (.inr (.inl h)))
  refine keyMatches_quiet (command_out command) (edited_erase key) ?_
  rcases List.eq_nil_or_concat e.pending with none | ⟨before, last, ends⟩
  · rw [if_neg (not_not.mpr (holds.edit_iff.mpr none)), none]
    rw [none] at holds
    exact holds
  · rw [List.concat_eq_append] at ends
    have more : s.e ≠ s.w := by
      rw [Ne, holds.edit_iff, ends]
      exact List.append_ne_nil_of_right_ne_nil _ (List.cons_ne_nil _ _)
    rw [if_pos more, ends, List.dropLast_concat]
    rw [ends] at holds
    exact holds.erase.2

/-- A character that enters the line. -/
theorem keyMatches_store {c : Byte} (holds : Holds s e.committed e.pending) (enters : e.enters c) :
    let stored : Cons :=
      { s with buf := Function.update s.buf (RingBuffer.slot s.e) (LineEditor.translate c), e := s.e + 1 }
    KeyMatches e c (if LineEditor.translate c = newline ∨ LineEditor.translate c = ctrl 'D' ∨
        (stored.e - stored.r).toNat = inputBufSize then
      ({ stored with w := stored.e }, true) else (stored, false)) := by
  intro stored
  have after := holds.store enters.2 (LineEditor.translate c)
  have total : (stored.e - stored.r).toNat = e.committed.length + e.pending.length + 1 := by
    have count := after.count
    rw [List.length_append, List.length_singleton, ← Nat.add_assoc] at count
    exact count
  have test : (LineEditor.translate c = newline ∨ LineEditor.translate c = ctrl 'D' ∨
      (stored.e - stored.r).toNat = inputBufSize) ↔ e.completes (LineEditor.translate c) := by
    rw [total]
    rfl
  by_cases complete : e.completes (LineEditor.translate c)
  · rw [if_pos (test.mpr complete)]
    refine ⟨?_, (decide_eq_true ⟨enters, complete⟩).symm⟩
    unfold commits edited
    rw [if_pos ⟨enters, complete⟩, if_pos enters, if_pos complete]
    exact after.commit
  · rw [if_neg (complete ∘ test.mp)]
    refine ⟨?_, (decide_eq_false fun both => complete both.2).symm⟩
    unfold commits edited
    rw [if_neg fun both => complete both.2, if_pos enters, if_neg complete, List.append_nil]
    exact after

/-- The handler of a key matches the editor. -/
theorem keyMatches {c : Byte} (holds : Holds s e.committed e.pending) (unfinished : newline ∉ e.pending) :
    KeyMatches e c (s.consoleintr c) := by
  unfold Cons.consoleintr
  by_cases print : c = ctrl 'P'
  · rw [if_pos print]
    refine keyMatches_quiet (command_out (.inl print)) ?_ holds
    subst print
    unfold edited
    rw [if_neg (command_out (.inl rfl)), if_neg (by decide), if_neg (by decide)]
  by_cases kill : c = ctrl 'U'
  · have cleared : e.edited c = [] := by
      unfold edited
      rw [if_neg (command_out (.inr (.inl kill))), if_pos kill]
    rw [if_neg print, if_pos kill]
    refine keyMatches_quiet (command_out (.inr (.inl kill))) cleared ?_
    rw [holds.pending_length]
    exact holds.killLine unfinished
  by_cases erase : c = ctrl 'H' ∨ c = deleteKey
  · rw [if_neg print, if_neg kill, if_pos erase]
    exact keyMatches_erase holds erase
  rw [if_neg print, if_neg kill, if_neg erase, edit_count, holds.count]
  by_cases room : c ≠ 0 ∧ e.committed.length + e.pending.length < inputBufSize
  · rw [if_pos room]
    refine keyMatches_store holds ⟨?_, room.2⟩
    rintro (h | h | h | h | h)
    · exact print h
    · exact kill h
    · exact erase (.inl h)
    · exact erase (.inr h)
    · exact room.1 h
  · have out : ¬ e.enters c :=
      fun enters => room ⟨fun zero => enters.1 (.inr (.inr (.inr (.inr zero)))), enters.2⟩
    rw [if_neg room]
    refine keyMatches_quiet out ?_ holds
    unfold edited
    rw [if_neg out, if_neg kill, if_neg erase]

/-- An unfinished line has no newline. -/
theorem edited_open (c : Byte) (unfinished : newline ∉ e.pending) : newline ∉ e.edited c := by
  unfold edited
  split_ifs with enters complete
  · exact List.not_mem_nil
  · intro inside
    rcases List.mem_append.mp inside with old | new
    · exact unfinished old
    · exact complete (.inl (List.mem_singleton.mp new).symm)
  · exact List.not_mem_nil
  · exact fun inside => unfinished (List.mem_of_mem_dropLast inside)
  · exact unfinished

end Keys

section Reads

variable {s : Cons} {line pending : List Byte}

/-- A call of the console and one of the editor end in the same way. -/
def SameTurn (target : Nat) : ReadTurn → EditorTurn → Prop
  | .sleeps n got, .sleeps want got' => n = want ∧ got = got' ∧ target = n + got.length
  | .returns count got, .returns got' => count = got.length ∧ got = got'
  | _, _ => False

/-- The loop of `consoleread` takes what the editor takes. -/
theorem read_matches {target n : Nat} {got : List Byte} (holds : Holds s line pending)
    (size : target = n + got.length) :
    Holds (s.consoleread target n got).1 (line.drop (take n got line).1.length) pending ∧
      SameTurn target (s.consoleread target n got).2 (take n got line).2 := by
  induction n generalizing s line got with
  | zero =>
      refine ⟨holds, ?_, rfl⟩
      omega
  | succ n ih =>
      unfold Cons.consoleread
      cases line with
      | nil =>
          rw [if_pos (holds.read_iff.mpr rfl)]
          exact ⟨holds, rfl, rfl, size⟩
      | cons c rest =>
          obtain ⟨head, popped⟩ := holds.pop
          have more : s.r ≠ s.w := by
            rw [Ne, holds.read_iff]
            exact List.cons_ne_nil _ _
          rw [if_neg more]
          dsimp only
          rw [head]
          unfold take
          split_ifs with mark later first stops
          · rw [first, List.length_nil] at size
            omega
          · have back : ({ s with r := s.r + 1 - 1 } : Cons) = s := by
              rw [add_sub_cancel_right]
            dsimp only
            rw [back]
            refine ⟨holds, ?_, rfl⟩
            omega
          · refine ⟨popped, ?_, ?_⟩
            · omega
            · rfl
          · have more : 0 < got.length := List.length_pos_iff.mpr ‹got ≠ []›
            omega
          · refine ⟨popped, ?_, rfl⟩
            rw [List.length_append, List.length_singleton]
            omega
          · refine ih popped ?_
            rw [List.length_append, List.length_singleton]
            omega

end Reads

section Machines

variable {Thread : Type} {s t : Console Thread} {e : LineEditor Thread}

/-- A thread is at the same place in both machines. -/
def SamePc : ReaderPc → EditorPc → Prop
  | .idle, .idle => True
  | .asleep target n got, .asleep want got' => n = want ∧ got = got' ∧ target = n + got.length
  | .awake target n got, .awake want got' => n = want ∧ got = got' ∧ target = n + got.length
  | _, _ => False

structure Refines (s : Console Thread) (e : LineEditor Thread) : Prop where
  holds : Holds s.cons e.committed e.pending
  unfinished : newline ∉ e.pending
  pc : ∀ t, SamePc (s.pc t) (e.pc t)

theorem samePc_wake {pc : ReaderPc} {pc' : EditorPc} (same : SamePc pc pc') : SamePc (wakeConsole pc) (wake pc') := by
  cases pc <;> cases pc' <;> first | exact same | exact same.elim

theorem refines_key (refines : Refines s e) (c : Byte) :
    Refines ⟨(s.cons.consoleintr c).1, if (s.cons.consoleintr c).2 then fun t => wakeConsole (s.pc t) else s.pc⟩
      (e.key c) := by
  obtain ⟨holds, wakes⟩ := keyMatches (c := c) refines.holds refines.unfinished
  refine ⟨holds, edited_open c refines.unfinished, fun u => ?_⟩
  rw [wakes]
  unfold LineEditor.key
  by_cases commit : e.enters c ∧ e.completes (LineEditor.translate c)
  · simp only [commit, and_self, decide_true, if_true]
    exact samePc_wake (refines.pc u)
  · simp only [commit, decide_false, if_false, Bool.false_eq_true]
    exact refines.pc u

theorem holds_boot : Holds ⟨fun _ => 0, 0, 0, 0⟩ [] [] := ⟨by decide, by decide, by decide⟩

theorem refines_boot : Refines (Console.boot : Console Thread) LineEditor.empty :=
  ⟨holds_boot, List.not_mem_nil, fun _ => trivial⟩

variable [DecidableEq Thread]

theorem samePc_update (t : Thread) {pc : ReaderPc} {pc' : EditorPc} (refines : Refines s e) (same : SamePc pc pc') :
    ∀ u, SamePc (Function.update s.pc t pc u) (Function.update e.pc t pc' u) := by
  intro u
  by_cases here : u = t
  · rw [here, Function.update_self, Function.update_self]
    exact same
  · rw [Function.update_of_ne here, Function.update_of_ne here]
    exact refines.pc u

/-- Both machines run a call to the same end. -/
theorem refines_run {target n : Nat} {got : List Byte} (refines : Refines s e) (u : Thread)
    (size : target = n + got.length) :
    Refines (s.run u target n got).1 (e.run u n got).1 ∧ (s.run u target n got).2 = (e.run u n got).2 := by
  obtain ⟨holds, same⟩ := read_matches refines.holds size
  unfold Console.run LineEditor.run
  generalize s.cons.consoleread target n got = result at holds same
  generalize take n got e.committed = result' at holds same
  obtain ⟨cons, turn⟩ := result
  obtain ⟨taken, turn'⟩ := result'
  cases turn with
  | sleeps n got =>
      cases turn' with
      | returns got' => exact same.elim
      | sleeps want got' => exact ⟨⟨holds, refines.unfinished, samePc_update u refines same⟩, rfl⟩
  | returns count got =>
      cases turn' with
      | sleeps want got' => exact same.elim
      | returns got' =>
          obtain ⟨rfl, rfl⟩ := same
          exact ⟨⟨holds, refines.unfinished, samePc_update u refines trivial⟩, rfl⟩

/-- The editor matches every step of the console. -/
theorem refines_step {label : ConsoleLabel Thread} (refines : Refines s e) (stepped : s.Step label t) :
    ∃ f, e.Step label f ∧ Refines t f := by
  obtain ⟨event, out⟩ := label
  have done : s.next event = some (t, out) := stepped
  cases event with
  | key c =>
      obtain ⟨rfl, rfl⟩ := Prod.mk.inj (Option.some.inj done)
      exact ⟨e.key c, rfl, refines_key refines c⟩
  | read u n =>
      have same := refines.pc u
      unfold Console.next at done
      dsimp only at done
      cases position : s.pc u with
      | idle =>
          rw [position] at done same
          have result : s.run u n n [] = (t, out) := Option.some.inj done
          have size : n = n + ([] : List Byte).length := rfl
          obtain ⟨after, output⟩ := refines_run refines u size
          rw [result] at after output
          refine ⟨(e.run u n []).1, ?_, after⟩
          cases position' : e.pc u with
          | idle =>
              have both : e.next (.read u n) = some (e.run u n []) := by
                simp only [LineEditor.next, position']
              exact both.trans (congrArg some (Prod.ext rfl output.symm))
          | _ =>
              rw [position'] at same
              exact same.elim
      | _ =>
          rw [position] at done
          cases done
  | resume u =>
      have same := refines.pc u
      unfold Console.next at done
      dsimp only at done
      cases position : s.pc u with
      | awake target n got =>
          rw [position] at done same
          have result : s.run u target n got = (t, out) := Option.some.inj done
          cases position' : e.pc u with
          | awake want got' =>
              rw [position'] at same
              obtain ⟨rfl, rfl, size⟩ := same
              obtain ⟨after, output⟩ := refines_run refines u size
              rw [result] at after output
              have both : e.next (.resume u) = some (e.run u n got) := by
                simp only [LineEditor.next, position']
              exact ⟨(e.run u n got).1, both.trans (congrArg some (Prod.ext rfl output.symm)), after⟩
          | _ =>
              rw [position'] at same
              exact same.elim
      | _ =>
          rw [position] at done
          cases done

/-- For every sequence of keys and calls the three indices stay in order and within one buffer of each other, and the
calls return what the reference line editor returns. Every committed character is taken once and in order: a call takes
an end-of-file mark and returns nothing, or it returns the characters that it takes. -/
theorem console_line_discipline {trace : List (Console Thread × ConsoleLabel Thread)}
    (run : Run Console.Step Console.boot trace s) :
    (s.cons.w - s.cons.r).toNat ≤ (s.cons.e - s.cons.r).toNat ∧ (s.cons.e - s.cons.r).toNat ≤ inputBufSize ∧
    ∃ trace' e, Run LineEditor.Step (LineEditor.empty : LineEditor Thread) trace' e ∧
      trace'.map Prod.snd = trace.map Prod.snd ∧
      trace'.flatMap entered = trace'.flatMap consumed ++ e.committed ∧
      ∀ entry ∈ trace', ∀ want got, entry.1.call entry.2.1 = some (want, got) →
        ∃ turn, Delivers want got entry.1.committed (consumed entry) turn ∧ entry.2.2 = turn.output := by
  obtain ⟨trace', e, run', labels, refines⟩ := run.simulates Refines (fun _ _ _ _ => refines_step) refines_boot
  refine ⟨?_, refines.holds.bound, trace', e, run', labels, run_account run', ?_⟩
  · rw [refines.holds.written, edit_count, refines.holds.count]
    exact Nat.le_add_right _ _
  · intro entry inside want got called
    obtain ⟨f, stepped⟩ := run'.taken entry inside
    exact entry.1.step_delivers stepped called

/-- The state after a label, or the same state if the label does not fit. -/
def after (s : Console Thread) (label : ConsoleLabel Thread) : Console Thread := ((s.next label.1).map Prod.fst).getD s

def fits (s : Console Thread) (label : ConsoleLabel Thread) : Bool := (s.next label.1).map Prod.snd == some label.2

theorem step_after (s : Console Thread) (label : ConsoleLabel Thread) (good : fits s label = true) :
    s.Step label (after s label) := by
  obtain ⟨⟨t, out⟩, done, output⟩ := Option.map_eq_some_iff.mp (beq_iff_eq.mp good)
  have same : out = label.2 := output
  unfold Console.Step after
  rw [done, ← same]
  rfl

/-- A typed line with a correction and an end of file, read by one thread, and the end of file read by another. -/
def typedLine : List (ConsoleLabel Bool) :=
  [(.key 104, none), (.key 120, none), (.key (ctrl 'H'), none), (.key 105, none), (.key carriageReturn, none),
    (.key (ctrl 'D'), none), (.read true 10, some (3, [104, 105, newline])), (.read false 10, some (0, []))]

/-- The two calls return what the editor returns. -/
theorem console_reads_typed_line : ∃ s e trace', Run Console.Step Console.boot (entries after Console.boot typedLine) s ∧
    Run LineEditor.Step (LineEditor.empty : LineEditor Bool) trace' e ∧
    trace'.map Prod.snd = (entries after Console.boot typedLine).map Prod.snd := by
  have run := (run_entries step_after (fun _ _ _ => trivial) (by decide : plays fits after Console.boot typedLine = true)).1
  obtain ⟨_, _, trace', e, run', labels, _⟩ := console_line_discipline run
  exact ⟨_, e, trace', run, run', labels⟩

end Machines

end Xv6.ConsoleInput
