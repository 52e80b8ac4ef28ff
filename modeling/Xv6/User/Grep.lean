/-
This file gives `grep`. A pointer into a string is the memory from it on, and memory beyond the end of a list is zero.
-/

import Xv6.User.Ulib

namespace Xv6.User

theorem tail_shorter {s : List Byte} (more : s.headD 0 ≠ 0) : s.tail.length < s.length := by
  cases s with
  | nil => exact absurd rfl more
  | cons c s => exact Nat.lt_succ_self _

mutual

/-- `matchhere` searches for an expression at the beginning of a text. -/
def matchhere (re text : List Byte) : Bool :=
  if _ : re.headD 0 = 0 then true
  else if re.tail.headD 0 = code '*' then matchstar (re.headD 0) re.tail.tail text
  else if re.headD 0 = code '$' ∧ re.tail.headD 0 = 0 then text.headD 0 = 0
  else if text.headD 0 ≠ 0 ∧ (re.headD 0 = code '.' ∨ re.headD 0 = text.headD 0) then matchhere re.tail text.tail
  else false
termination_by (re.length, text.length, 0)
decreasing_by
  · have shorter := tail_shorter ‹_›
    have again : re.tail.tail.length ≤ re.tail.length := by
      rw [List.length_tail]
      omega
    exact .left _ _ (by omega)
  · exact .left _ _ (tail_shorter ‹_›)

/-- `matchstar` searches for any number of `c` and then an expression at the beginning of a text. -/
def matchstar (c : Byte) (re text : List Byte) : Bool :=
  if matchhere re text then true
  else if _ : text.headD 0 ≠ 0 ∧ (text.headD 0 = c ∨ c = code '.') then matchstar c re text.tail
  else false
termination_by (re.length, text.length, 1)
decreasing_by
  · exact .right _ (.right _ Nat.zero_lt_one)
  · exact .right _ (.left _ _ (tail_shorter (And.left ‹_›)))

end

/-- The loop of `match` over the places of a text. -/
def matchLoop (re text : List Byte) : Bool :=
  if matchhere re text then true
  else if _ : text.headD 0 ≠ 0 then matchLoop re text.tail
  else false
termination_by text.length
decreasing_by exact tail_shorter ‹_›

/-- `match` searches for an expression anywhere in a text, or at its beginning after a `^`. -/
def matchText (re text : List Byte) : Bool :=
  if re.headD 0 = code '^' then matchhere re.tail text else matchLoop re text

/-- `sizeof(buf)` -/
abbrev bufSize : Nat := 1024

/-- The number of bytes that one `read` returns: some of what is left, as many as it likes up to the room. -/
def readCount (want room left : Nat) : Nat :=
  if room = 0 ∨ left = 0 then 0 else max 1 (min want (min room left))

theorem readCount_pos {want room left : Nat} (roomy : 0 < room) (more : 0 < left) : 0 < readCount want room left := by
  rw [readCount, if_neg (by omega)]
  omega

theorem readCount_le (want room left : Nat) : readCount want room left ≤ room ∧ readCount want room left ≤ left := by
  rw [readCount]
  split_ifs
  · omega
  · omega

theorem strchr_lt {s : List Byte} {c : Byte} {i : Nat} (found : strchr s c = some i) : i < s.length := by
  induction s generalizing i with
  | nil => cases found
  | cons b s ih =>
      rw [strchr] at found
      split_ifs at found with _ same
      · cases found
        exact Nat.succ_pos _
      · obtain ⟨j, later, rfl⟩ := Option.map_eq_some_iff.mp found
        exact Nat.succ_lt_succ (ih later)

/-- The inner loop of `grep` over the lines of the buffer from `p` on. The result has the buffer, the place after the
last line and what was written. -/
def lineLoop (pattern buf : List Byte) (p : Nat) (out : List Byte) : List Byte × Nat × List Byte :=
  match _ : strchr (buf.drop p) (code '\n') with
  | none => (buf, p, out)
  | some i =>
      let cut := buf.set (p + i) 0
      if matchText pattern (cut.drop p) then
        let restored := cut.set (p + i) (code '\n')
        lineLoop pattern restored (p + i + 1) (out ++ (restored.drop p).take (i + 1))
      else lineLoop pattern cut (p + i + 1) out
termination_by buf.length - p
decreasing_by
  all_goals
    have inside := strchr_lt ‹_›
    rw [List.length_drop] at inside
    simp only [List.length_set]
    omega

/-- `memmove` of some bytes to the start of a buffer. -/
def moveToFront (buf : List Byte) (start count : Nat) : List Byte := (buf.drop start).take count ++ buf.drop count

/-- The outer loop of `grep`. The wishes say how many bytes each `read` would like to return. -/
def grepLoop (pattern : List Byte) (wants : Nat → Nat) (reads : Nat) (buf : List Byte) (m : Nat)
    (input out : List Byte) : List Byte :=
  let n := readCount (wants reads) (bufSize - m - 1) input.length
  if n = 0 then out
  else
    let filled := (buf.take m ++ input.take n ++ buf.drop (m + n)).set (m + n) 0
    match lineLoop pattern filled 0 out with
    | (buf, p, out) =>
        if m + n > 0 then grepLoop pattern wants (reads + 1) (moveToFront buf p (m + n - p)) (m + n - p) (input.drop n) out
        else grepLoop pattern wants (reads + 1) buf (m + n) (input.drop n) out
termination_by input.length
decreasing_by
  all_goals
    have fits := (readCount_le (wants reads) (bufSize - m - 1) input.length).2
    rw [List.length_drop]
    omega

/-- What `grep` writes for an input. -/
def grep (pattern : List Byte) (wants : Nat → Nat) (buf input : List Byte) : List Byte :=
  grepLoop pattern wants 0 buf 0 input []

end Xv6.User
