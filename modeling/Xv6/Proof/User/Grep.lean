/-
This file shows what `grep` writes, however its input arrives. The buffer holds the part of a line that has arrived,
and a line that does not fit into it ends the program.
-/

import Xv6.Proof.User.Match

namespace Xv6.User

/-- The input with the given lines. -/
def unlines (lines : List (List Byte)) : List Byte := (lines.map (· ++ [code '\n'])).flatten

/-- The lines of the input that match. -/
def matching (pattern : CString) (lines : List (List Byte)) : List (List Byte) :=
  lines.filter fun line => matchText (pattern.inMemory []) (line ++ [0])

/-- A line has neither a newline nor a terminator inside. -/
def Plain (line : List Byte) : Prop := code '\n' ∉ line ∧ 0 ∉ line

@[simp] theorem unlines_nil : unlines [] = [] := rfl

@[simp] theorem unlines_cons (line : List Byte) (lines : List (List Byte)) :
    unlines (line :: lines) = line ++ code '\n' :: unlines lines := by
  simp [unlines]

theorem unlines_append (first second : List (List Byte)) : unlines (first ++ second) = unlines first ++ unlines second := by
  simp [unlines]

theorem matching_cons (pattern : CString) (line : List Byte) (lines : List (List Byte)) :
    unlines (matching pattern (line :: lines)) =
      (if matchText (pattern.inMemory []) (line ++ [0]) then line ++ [code '\n'] else []) ++
        unlines (matching pattern lines) := by
  unfold matching
  rw [List.filter_cons]
  split_ifs <;> simp

theorem matching_append (pattern : CString) (first second : List (List Byte)) :
    unlines (matching pattern (first ++ second)) =
      unlines (matching pattern first) ++ unlines (matching pattern second) := by
  rw [matching, List.filter_append, unlines_append]
  rfl

/-- `match` reads neither string beyond its terminator. -/
theorem matchText_terminated (pattern : CString) {text : List Byte} (nonzero : 0 ∉ text) (rest : List Byte) :
    matchText (pattern.inMemory []) (text ++ 0 :: rest) = matchText (pattern.inMemory []) (text ++ [0]) := by
  obtain ⟨re, patterned⟩ := pattern
  unfold matchText CString.inMemory
  dsimp only
  split_ifs with anchor
  · cases re with
    | nil => exact absurd anchor (by decide)
    | cons c re =>
        have later : 0 ∉ re := fun mem => patterned (List.mem_cons_of_mem _ mem)
        rw [Bool.eq_iff_iff]
        exact (matchhere_iff [] rest later nonzero).trans (matchhere_iff [] [] later nonzero).symm
  · rw [Bool.eq_iff_iff, matchLoop_iff [] rest patterned nonzero, matchLoop_iff [] [] patterned nonzero]

theorem strchr_line {line : List Byte} (plain : Plain line) (rest : List Byte) :
    strchr (line ++ code '\n' :: rest) (code '\n') = some line.length := by
  induction line with
  | nil => rfl
  | cons b line ih =>
      have newline : b ≠ code '\n' := fun same => plain.1 (same ▸ List.mem_cons_self)
      have zero : b ≠ 0 := fun same => plain.2 (same ▸ List.mem_cons_self)
      have later : Plain line :=
        ⟨fun mem => plain.1 (List.mem_cons_of_mem _ mem), fun mem => plain.2 (List.mem_cons_of_mem _ mem)⟩
      rw [List.cons_append, strchr, if_neg zero, if_neg newline, ih later]
      rfl

theorem strchr_part {part : List Byte} (open' : code '\n' ∉ part) (rest : List Byte) :
    strchr (part ++ 0 :: rest) (code '\n') = none := by
  induction part with
  | nil => rfl
  | cons b part ih =>
      have newline : b ≠ code '\n' := fun same => open' (same ▸ List.mem_cons_self)
      have later := ih fun mem => open' (List.mem_cons_of_mem _ mem)
      rw [List.cons_append, strchr, later, if_neg newline]
      split_ifs <;> rfl

theorem lineLoop_none {pattern buf : List Byte} {p : Nat} {out : List Byte}
    (missing : strchr (buf.drop p) (code '\n') = none) : lineLoop pattern buf p out = (buf, p, out) := by
  rw [lineLoop]
  split
  · rfl
  · next found => cases missing.symm.trans found

theorem lineLoop_some {pattern buf : List Byte} {p i : Nat} {out : List Byte}
    (found : strchr (buf.drop p) (code '\n') = some i) :
    lineLoop pattern buf p out =
      if matchText pattern ((buf.set (p + i) 0).drop p) then
        lineLoop pattern ((buf.set (p + i) 0).set (p + i) (code '\n')) (p + i + 1)
          (out ++ (((buf.set (p + i) 0).set (p + i) (code '\n')).drop p).take (i + 1))
      else lineLoop pattern (buf.set (p + i) 0) (p + i + 1) out := by
  rw [lineLoop]
  split
  · next missing => cases missing.symm.trans found
  · next j same =>
      obtain rfl := Option.some.inj (same.symm.trans found)
      rfl

/-- A store at the end of a line that starts at `p`. -/
theorem drop_set_line {buf line rest : List Byte} {p : Nat} {b : Byte} (holds : buf.drop p = line ++ b :: rest) (c : Byte) :
    (buf.set (p + line.length) c).drop p = line ++ c :: rest := by
  rw [List.drop_set, if_neg (by omega), holds, Nat.add_sub_cancel_left, List.set_append_right _ _ (Nat.le_refl _),
    Nat.sub_self]
  rfl

/-- The inner loop handles every complete line of the buffer and stops at the part of a line behind them. -/
theorem lineLoop_spec (pattern : CString) {lines : List (List Byte)} (plain : ∀ line ∈ lines, Plain line)
    {part : List Byte} (unfinished : code '\n' ∉ part) (rest : List Byte) {buf : List Byte} {p : Nat} (out : List Byte)
    (holds : buf.drop p = unlines lines ++ (part ++ 0 :: rest)) :
    ∃ after, lineLoop (pattern.inMemory []) buf p out =
        (after, p + (unlines lines).length, out ++ unlines (matching pattern lines)) ∧
      after.length = buf.length ∧ after.drop (p + (unlines lines).length) = part ++ 0 :: rest := by
  induction lines generalizing buf p out with
  | nil =>
      have missing : strchr (buf.drop p) (code '\n') = none := holds ▸ strchr_part unfinished rest
      exact ⟨buf, by rw [lineLoop_none missing]; simp [matching], rfl, holds⟩
  | cons line lines ih =>
      have first : Plain line := plain line List.mem_cons_self
      rw [unlines_cons, List.append_assoc, List.cons_append] at holds
      have found : strchr (buf.drop p) (code '\n') = some line.length := holds ▸ strchr_line first _
      have cut := drop_set_line holds 0
      have restored := drop_set_line cut (code '\n')
      have behind {after : List Byte} {b : Byte}
          (kept : after.drop p = line ++ b :: (unlines lines ++ (part ++ 0 :: rest))) :
          after.drop (p + line.length + 1) = unlines lines ++ (part ++ 0 :: rest) := by
        rw [Nat.add_assoc, ← List.drop_drop, kept, ← List.drop_drop, List.drop_left]
        rfl
      have place : p + (unlines (line :: lines)).length = p + line.length + 1 + (unlines lines).length := by
        rw [unlines_cons, List.length_append, List.length_cons]
        omega
      have later (line' : List Byte) (mem : line' ∈ lines) : Plain line' := plain line' (List.mem_cons_of_mem _ mem)
      rw [lineLoop_some found, cut, matchText_terminated pattern first.2, matching_cons, place]
      split_ifs with accepted
      · have written : (((buf.set (p + line.length) 0).set (p + line.length) (code '\n')).drop p).take (line.length + 1) =
            line ++ [code '\n'] := by
          rw [restored, List.take_length_add_append]
          rfl
        obtain ⟨after, result, length, holds⟩ := ih later (out ++ (line ++ [code '\n'])) (behind restored)
        rw [written, result, List.append_assoc]
        exact ⟨after, rfl, by simpa using length, holds⟩
      · obtain ⟨after, result, length, holds⟩ := ih later out (behind cut)
        exact ⟨after, result, by simpa using length, holds⟩

/-- The bytes that have arrived are some complete lines and a part of the next line. -/
theorem split_lines {lines : List (List Byte)} (plain : ∀ line ∈ lines, Plain line) {arrived rest : List Byte}
    (whole : unlines lines = arrived ++ rest) :
    ∃ done left part, lines = done ++ left ∧ arrived = unlines done ++ part ∧ unlines left = part ++ rest ∧
      code '\n' ∉ part ∧ (part = [] ∨ ∃ line ∈ lines, part.length ≤ line.length) := by
  induction lines generalizing arrived with
  | nil =>
      obtain ⟨rfl, rfl⟩ := List.append_eq_nil_iff.mp whole.symm
      exact ⟨[], [], [], rfl, rfl, rfl, List.not_mem_nil, .inl rfl⟩
  | cons line lines ih =>
      have first : Plain line := plain line List.mem_cons_self
      rw [unlines_cons] at whole
      rcases List.append_eq_append_iff.mp whole with ⟨more, rfl, behind⟩ | ⟨more, rfl, behind⟩
      · cases more with
        | nil =>
            refine ⟨[], line :: lines, line, rfl, by simp, ?_, first.1, .inr ⟨line, List.mem_cons_self, Nat.le_refl _⟩⟩
            rw [unlines_cons, behind, List.nil_append]
        | cons b more =>
            obtain ⟨rfl, _⟩ := List.cons.inj behind
            have same : unlines lines = more ++ rest := List.tail_eq_of_cons_eq behind
            obtain ⟨done, left, part, rfl, rfl, remaining, unfinished, bound⟩ :=
              ih (fun line' mem => plain line' (List.mem_cons_of_mem _ mem)) same
            refine ⟨line :: done, left, part, rfl, by simp, remaining, unfinished, bound.imp_right ?_⟩
            exact fun ⟨line', mem, shorter⟩ => ⟨line', List.mem_cons_of_mem _ mem, shorter⟩
      · refine ⟨[], (arrived ++ more) :: lines, arrived, rfl, by simp, ?_, ?_, .inr ⟨_, List.mem_cons_self, ?_⟩⟩
        · rw [unlines_cons, List.append_assoc, behind]
        · exact fun mem => first.1 (List.mem_append_left _ mem)
        · simp

theorem grepLoop_end {pattern buf input out : List Byte} {wants : Nat → Nat} {reads m : Nat}
    (stops : readCount (wants reads) (bufSize - m - 1) input.length = 0) :
    grepLoop pattern wants reads buf m input out = out := by
  rw [grepLoop]
  exact if_pos stops

/-- One round of the outer loop reads some bytes and handles the lines that are complete now. -/
theorem grepLoop_round {pattern buf input out after written : List Byte} {wants : Nat → Nat} {reads m n p : Nat}
    (count : readCount (wants reads) (bufSize - m - 1) input.length = n) (some' : n ≠ 0)
    (handled : lineLoop pattern ((buf.take m ++ input.take n ++ buf.drop (m + n)).set (m + n) 0) 0 out =
      (after, p, written)) :
    grepLoop pattern wants reads buf m input out =
      grepLoop pattern wants (reads + 1) (moveToFront after p (m + n - p)) (m + n - p) (input.drop n) written := by
  conv_lhs => rw [grepLoop]
  dsimp only
  rw [count, if_neg some', handled]
  exact if_pos (by omega)

/-- The buffer after a read: what was there, the new bytes and a terminator. -/
theorem filled_eq {buf part chunk : List Byte} (size : buf.length = bufSize) (holds : buf.take part.length = part)
    (room : part.length + chunk.length < bufSize) :
    ∃ rest, (buf.take part.length ++ chunk ++ buf.drop (part.length + chunk.length)).set (part.length + chunk.length) 0 =
      part ++ chunk ++ 0 :: rest := by
  refine ⟨buf.drop (part.length + chunk.length + 1), ?_⟩
  have next : part.length + chunk.length < buf.length := size ▸ room
  have start : (part ++ chunk).length ≤ part.length + chunk.length := Nat.le_of_eq List.length_append
  rw [holds, List.drop_eq_getElem_cons next, List.set_append_right _ _ start, List.length_append, Nat.sub_self]
  rfl

/-- The part of a line behind the complete ones goes to the start of the buffer. -/
theorem moveToFront_part {buf part rest : List Byte} {p : Nat} (kept : buf.drop p = part ++ rest) :
    moveToFront buf p part.length = part ++ buf.drop part.length := by
  rw [moveToFront, kept, List.take_left]

/-- Without more input there is no line left. -/
theorem grepLoop_done (pattern : CString) (wants : Nat → Nat) {lines : List (List Byte)} (reads : Nat)
    {buf part : List Byte} (out : List Byte) (unfinished : code '\n' ∉ part) (whole : unlines lines = part) :
    grepLoop (pattern.inMemory []) wants reads buf part.length [] out = out ++ unlines (matching pattern lines) := by
  have ended : lines = [] := by
    cases lines with
    | nil => rfl
    | cons line lines =>
        rw [unlines_cons] at whole
        exact absurd (whole ▸ List.mem_append_right _ List.mem_cons_self) unfinished
  have stops : readCount (wants reads) (bufSize - part.length - 1) ([] : List Byte).length = 0 := if_pos (.inr rfl)
  rw [grepLoop_end stops, ended]
  exact (List.append_nil out).symm

/-- One read with room for it. Whatever lines are complete then are handled, and the rest stays in the buffer. -/
theorem grepLoop_read (pattern : CString) (wants : Nat → Nat) (reads : Nat) {buf part input : List Byte} (out : List Byte)
    (size : buf.length = bufSize) (holds : buf.take part.length = part) (room : part.length + 1 < bufSize)
    (more : 0 < input.length) :
    ∃ n, 0 < n ∧ part.length + n < bufSize ∧ n ≤ input.length ∧
      ∀ done part', (∀ line ∈ done, Plain line) → code '\n' ∉ part' → part ++ input.take n = unlines done ++ part' →
        ∃ next, next.length = bufSize ∧ next.take part'.length = part' ∧
          grepLoop (pattern.inMemory []) wants reads buf part.length input out =
            grepLoop (pattern.inMemory []) wants (reads + 1) next part'.length (input.drop n)
              (out ++ unlines (matching pattern done)) := by
  generalize count : readCount (wants reads) (bufSize - part.length - 1) input.length = n
  have positive : 0 < n := count ▸ readCount_pos (by omega) more
  have fits := readCount_le (wants reads) (bufSize - part.length - 1) input.length
  rw [count] at fits
  refine ⟨n, positive, by omega, fits.2, fun done part' plain unfinished arrived => ?_⟩
  have chunk : (input.take n).length = n := List.length_take_of_le fits.2
  obtain ⟨rest, filled⟩ := filled_eq size holds (show part.length + (input.take n).length < bufSize by omega)
  rw [chunk] at filled
  have start : ((buf.take part.length ++ input.take n ++ buf.drop (part.length + n)).set (part.length + n) 0).drop 0 =
      unlines done ++ (part' ++ 0 :: rest) := by
    rw [List.drop_zero, filled, arrived, List.append_assoc]
  obtain ⟨after, handled, length, kept⟩ := lineLoop_spec pattern plain unfinished rest out start
  have total : part.length + n = (unlines done).length + part'.length := by
    rw [← List.length_append, ← arrived, List.length_append, chunk]
  rw [Nat.zero_add] at handled kept
  have sizeAfter : after.length = bufSize := by
    rw [length]
    simp only [List.length_set, List.length_append, List.length_take, List.length_drop, size]
    omega
  refine ⟨part' ++ after.drop part'.length, ?_, List.take_left, ?_⟩
  · rw [List.length_append, List.length_drop]
    omega
  · rw [grepLoop_round count positive.ne' handled, total, Nat.add_sub_cancel_left, moveToFront_part kept]

/-- The outer loop writes the matching ones of the lines that have not been handled yet. -/
theorem grepLoop_spec (pattern : CString) (wants : Nat → Nat) {lines : List (List Byte)}
    (plain : ∀ line ∈ lines, Plain line) (short : ∀ line ∈ lines, line.length + 1 < bufSize) (reads : Nat)
    {buf part input : List Byte} (out : List Byte) (size : buf.length = bufSize) (holds : buf.take part.length = part)
    (bound : part.length + 1 < bufSize) (unfinished : code '\n' ∉ part) (whole : unlines lines = part ++ input) :
    grepLoop (pattern.inMemory []) wants reads buf part.length input out = out ++ unlines (matching pattern lines) := by
  induction left : input.length using Nat.strong_induction_on generalizing lines reads buf part input out with
  | _ left ih =>
      by_cases more : input.length = 0
      · obtain rfl := List.length_eq_zero_iff.mp more
        rw [List.append_nil] at whole
        exact grepLoop_done pattern wants reads out unfinished whole
      obtain ⟨n, positive, _, fits, round⟩ := grepLoop_read pattern wants reads out size holds bound (Nat.pos_of_ne_zero more)
      have parts : unlines lines = part ++ input.take n ++ input.drop n := by
        rw [List.append_assoc, List.take_append_drop, whole]
      obtain ⟨done, later, part', rfl, arrived, remaining, unfinished', bound'⟩ := split_lines plain parts
      have small : part'.length + 1 < bufSize := by
        rcases bound' with rfl | ⟨line, mem, shorter⟩
        · exact by decide
        · have fitting := short line mem
          omega
      obtain ⟨next, size', holds', step⟩ :=
        round done part' (fun line mem => plain line (List.mem_append_left _ mem)) unfinished' arrived
      rw [step, matching_append, ← List.append_assoc]
      exact ih (input.drop n).length (by rw [List.length_drop]; omega)
        (fun line mem => plain line (List.mem_append_right _ mem))
        (fun line mem => short line (List.mem_append_right _ mem)) _ _ size' holds' small unfinished' remaining rfl

/-- However the input arrives, `grep` writes exactly the lines that match, whole, in order and once each, if each line
fits into the buffer together with its newline and a terminator. -/
theorem grep_writes_matching (pattern : CString) (lines : List (List Byte)) (wants : Nat → Nat) (buf : List Byte)
    (size : buf.length = bufSize) (plain : ∀ line ∈ lines, Plain line)
    (short : ∀ line ∈ lines, line.length + 1 < bufSize) :
    grep (pattern.inMemory []) wants buf (unlines lines) = unlines (matching pattern lines) := by
  exact grepLoop_spec pattern wants plain short 0 [] size rfl (by decide) List.not_mem_nil rfl

/-- The pattern of one letter. -/
def letterA : CString := ⟨[code 'a'], by decide⟩

/-- Three short lines that arrive byte by byte. -/
theorem grep_three_lines :
    grep (letterA.inMemory []) (fun _ => 1) (List.replicate bufSize 0) (unlines [[code 'b', code 'a'], [], [code 'a']]) =
      unlines (matching letterA [[code 'b', code 'a'], [], [code 'a']]) := by
  have plain : ∀ line ∈ [[code 'b', code 'a'], [], [code 'a']], Plain line := by
    unfold Plain
    decide
  exact grep_writes_matching letterA _ _ _ List.length_replicate plain (by decide)

/-- A line that fills the buffer leaves no room for `read`, which then returns nothing. The loop takes this for the end
of the input. -/
theorem grepLoop_stuck (pattern : CString) (wants : Nat → Nat) (reads : Nat) {buf part input : List Byte} (out : List Byte)
    (size : buf.length = bufSize) (holds : buf.take part.length = part) (room : part.length < bufSize)
    (long : bufSize ≤ (part ++ input).length + 1) (unbroken : code '\n' ∉ (part ++ input).take (bufSize - 1)) :
    grepLoop (pattern.inMemory []) wants reads buf part.length input out = out := by
  induction left : input.length using Nat.strong_induction_on generalizing reads buf part input with
  | _ left ih =>
      by_cases full : part.length + 1 = bufSize
      · exact grepLoop_end (if_pos (.inl (by omega)))
      have more : 0 < input.length := by
        rw [List.length_append] at long
        omega
      obtain ⟨n, positive, roomy, fits, round⟩ :=
        grepLoop_read pattern wants reads out size holds (by omega) more
      have parts : part ++ input = part ++ input.take n ++ input.drop n := by
        rw [List.append_assoc, List.take_append_drop]
      have length : (part ++ input.take n).length = part.length + n := by
        rw [List.length_append, List.length_take_of_le fits]
      rw [parts] at long unbroken
      have unfinished : code '\n' ∉ part ++ input.take n := by
        rw [List.take_append, List.take_of_length_le (by omega)] at unbroken
        exact fun mem => unbroken (List.mem_append_left _ mem)
      obtain ⟨next, size', holds', step⟩ := round [] (part ++ input.take n) nofun unfinished rfl
      rw [step]
      have kept := ih (input.drop n).length (by rw [List.length_drop]; omega) (reads + 1) size' holds' (by omega) long
        unbroken rfl
      rw [show out ++ unlines (matching pattern []) = out from List.append_nil out]
      exact kept

/-- An input whose first line does not fit. -/
theorem grep_long_line (pattern : CString) (wants : Nat → Nat) {buf input : List Byte} (size : buf.length = bufSize)
    (long : bufSize ≤ input.length + 1) (unbroken : code '\n' ∉ input.take (bufSize - 1)) :
    grep (pattern.inMemory []) wants buf input = [] := by
  have empty : buf.take ([] : List Byte).length = [] := rfl
  exact grepLoop_stuck pattern wants 0 [] size empty (by decide) long unbroken

theorem letterA_matches : matchText (letterA.inMemory []) ([code 'a'] ++ [0]) = true := by
  have anchorless : ¬ (letterA.inMemory []).headD 0 = code '^' := by decide
  rw [matchText, if_neg anchorless]
  refine (matchLoop_iff [] [] letterA.nonzero (by decide)).mpr ⟨[], [code 'a'], rfl, ?_⟩
  exact (begins_once (by decide) (by decide) _).mpr ⟨_, [], rfl, .inr rfl, begins_nil []⟩

/-- After a line of 1023 letters `grep` writes nothing, not even a short line that matches. -/
theorem long_line_stops_grep :
    grep (letterA.inMemory []) (fun _ => bufSize) (List.replicate bufSize 0)
      (unlines [List.replicate 1023 (code 'x'), [code 'a']]) ≠
      unlines (matching letterA [List.replicate 1023 (code 'x'), [code 'a']]) := by
  rw [grep_long_line letterA _ List.length_replicate]
  · rw [matching_cons, matching_cons, letterA_matches]
    intro nothing
    have second := (List.append_eq_nil_iff.mp nothing.symm).2
    exact absurd (List.append_eq_nil_iff.mp second).1 nofun
  · rw [unlines_cons, List.length_append, List.length_replicate]
    simp only [bufSize]
    omega
  · have whole : (List.replicate 1023 (code 'x')).length = bufSize - 1 := List.length_replicate
    rw [unlines_cons, List.take_left' whole]
    intro mem
    exact absurd (List.eq_of_mem_replicate mem) (by decide)

end Xv6.User
