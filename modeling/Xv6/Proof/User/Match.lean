/-
This file gives the language of an expression, and shows that `match` decides whether a text has a part in it.
-/

import Xv6.User.Grep

namespace Xv6.User

open Computability

/-- One item of an expression stands for one letter. -/
inductive Letter where
  | any
  | only (c : Byte)
  deriving DecidableEq

def Letter.of (c : Byte) : Letter := if c = code '.' then .any else .only c

def Letter.Accepts : Letter → Byte → Prop
  | .any, _ => True
  | .only c, b => b = c

inductive Item where
  | once (letter : Letter)
  | star (letter : Letter)
  deriving DecidableEq

/-- The items of an expression, and whether it ends with the mark for the end of the text. -/
def items : List Byte → List Item × Bool
  | [] => ([], false)
  | [c] => if c = code '$' then ([], true) else ([.once (.of c)], false)
  | c :: c' :: re =>
      if c' = code '*' then
        let (rest, final) := items re
        (.star (.of c) :: rest, final)
      else
        let (rest, final) := items (c' :: re)
        (.once (.of c) :: rest, final)

def Letter.language (letter : Letter) : Language Byte := {word | ∃ b, letter.Accepts b ∧ word = [b]}

def Item.language : Item → Language Byte
  | .once letter => letter.language
  | .star letter => letter.language∗

/-- The words of an expression. -/
def language (re : List Byte) : Language Byte := ((items re).1.map Item.language).prod

/-- A text begins with a word of an expression, and ends there if the expression asks for it. -/
def Begins (re text : List Byte) : Prop :=
  ∃ word ∈ language re, ∃ rest, text = word ++ rest ∧ ((items re).2 = true → rest = [])

theorem Letter.of_accepts (c b : Byte) : (Letter.of c).Accepts b ↔ c = code '.' ∨ c = b := by
  unfold Letter.of
  split_ifs with dot
  · simp [Letter.Accepts, dot]
  · simp [Letter.Accepts, dot, eq_comm]

/-- A repetition of a letter is a word of accepted letters. -/
theorem mem_star {letter : Letter} {word : List Byte} :
    word ∈ letter.language∗ ↔ ∀ b ∈ word, letter.Accepts b := by
  constructor
  · intro inside b mem
    obtain ⟨parts, rfl, each⟩ := Language.mem_kstar.mp inside
    obtain ⟨part, listed, found⟩ := List.mem_flatten.mp mem
    obtain ⟨b', accepts, rfl⟩ := each part listed
    rw [List.mem_singleton.mp found]
    exact accepts
  · intro each
    refine Language.mem_kstar.mpr ⟨word.map ([·]), (List.flatMap_singleton' word).symm, ?_⟩
    intro part listed
    obtain ⟨b, mem, rfl⟩ := List.mem_map.mp listed
    exact ⟨b, each b mem, rfl⟩

theorem begins_nil (text : List Byte) : Begins [] text :=
  ⟨[], (Language.mem_one _).mpr rfl, text, rfl, nofun⟩

theorem begins_final (text : List Byte) : Begins [code '$'] text ↔ text = [] := by
  constructor
  · rintro ⟨word, inside, rest, rfl, ends⟩
    rw [(Language.mem_one word).mp inside, ends rfl]
    rfl
  · rintro rfl
    exact ⟨[], (Language.mem_one _).mpr rfl, [], rfl, fun _ => rfl⟩

/-- An expression that starts with a plain letter. -/
theorem begins_once {c : Byte} {re : List Byte} (unstarred : re.headD 0 ≠ code '*') (inner : ¬ (c = code '$' ∧ re = []))
    (text : List Byte) :
    Begins (c :: re) text ↔ ∃ b rest, text = b :: rest ∧ (c = code '.' ∨ c = b) ∧ Begins re rest := by
  have split : items (c :: re) = (.once (.of c) :: (items re).1, (items re).2) := by
    cases re with
    | nil => exact if_neg fun mark => inner ⟨mark, rfl⟩
    | cons c' re => exact if_neg unstarred
  unfold Begins language
  rw [split, List.map_cons, List.prod_cons]
  constructor
  · rintro ⟨word, inside, rest, rfl, ends⟩
    obtain ⟨first, ⟨b, accepts, rfl⟩, later, words, rfl⟩ := Language.mem_mul.mp inside
    exact ⟨b, later ++ rest, rfl, (Letter.of_accepts c b).mp accepts, later, words, rest, rfl, ends⟩
  · rintro ⟨b, _, rfl, accepts, later, words, rest, rfl, ends⟩
    exact ⟨[b] ++ later, Language.mem_mul.mpr ⟨[b], ⟨b, (Letter.of_accepts c b).mpr accepts, rfl⟩, later, words, rfl⟩,
      rest, rfl, ends⟩

/-- An expression that starts with a starred letter. -/
theorem begins_star (c : Byte) (re text : List Byte) :
    Begins (c :: code '*' :: re) text ↔
      ∃ word rest, text = word ++ rest ∧ (∀ b ∈ word, c = code '.' ∨ c = b) ∧ Begins re rest := by
  have split : items (c :: code '*' :: re) = (.star (.of c) :: (items re).1, (items re).2) := if_pos rfl
  unfold Begins language
  rw [split, List.map_cons, List.prod_cons]
  constructor
  · rintro ⟨word, inside, rest, rfl, ends⟩
    obtain ⟨first, repeated, later, words, rfl⟩ := Language.mem_mul.mp inside
    refine ⟨first, later ++ rest, List.append_assoc .., fun b mem => ?_, later, words, rest, rfl, ends⟩
    exact (Letter.of_accepts c b).mp (mem_star.mp repeated b mem)
  · rintro ⟨first, _, rfl, accepts, later, words, rest, rfl, ends⟩
    refine ⟨first ++ later, Language.mem_mul.mpr ⟨first, ?_, later, words, rfl⟩, rest, (List.append_assoc ..).symm, ends⟩
    exact mem_star.mpr fun b mem => (Letter.of_accepts c b).mpr (accepts b mem)

/-- The memory of a string starts with its first letter, or with its terminator. -/
theorem headD_string (s rest : List Byte) : (s ++ 0 :: rest).headD 0 = s.headD 0 := by
  cases s <;> rfl

theorem headD_eq_zero {s : List Byte} (nonzero : 0 ∉ s) : s.headD 0 = 0 ↔ s = [] := by
  cases s with
  | nil => simp
  | cons b s =>
      have first : b ≠ 0 := fun zero => nonzero (zero ▸ List.mem_cons_self)
      simpa using first

theorem matchstar_iff {c : Byte} {re rest : List Byte} {holds : List Byte → Prop}
    (here : ∀ text, 0 ∉ text → (matchhere re (text ++ 0 :: rest) = true ↔ holds text)) {text : List Byte}
    (nonzero : 0 ∉ text) :
    matchstar c re (text ++ 0 :: rest) = true ↔
      ∃ word after, text = word ++ after ∧ (∀ b ∈ word, c = code '.' ∨ c = b) ∧ holds after := by
  induction text with
  | nil =>
      have stops : matchstar c re ([] ++ 0 :: rest) = matchhere re ([] ++ 0 :: rest) := by
        rw [matchstar]
        simp
      rw [stops, here [] nonzero]
      constructor
      · exact fun last => ⟨[], [], rfl, nofun, last⟩
      · rintro ⟨word, after, split, _, last⟩
        rwa [(List.append_eq_nil_iff.mp split.symm).2] at last
  | cons t text ih =>
      have first : t ≠ 0 := fun zero => nonzero (zero ▸ List.mem_cons_self)
      have later : 0 ∉ text := fun mem => nonzero (List.mem_cons_of_mem _ mem)
      have goes : matchstar c re (t :: text ++ 0 :: rest) = true ↔
          matchhere re (t :: text ++ 0 :: rest) = true ∨
            (c = code '.' ∨ c = t) ∧ matchstar c re (text ++ 0 :: rest) = true := by
        conv_lhs => rw [matchstar]
        by_cases now : matchhere re (t :: text ++ 0 :: rest) = true
        · exact iff_of_true (if_pos now) (.inl now)
        rw [if_neg now]
        by_cases accepts : c = code '.' ∨ c = t
        · rw [dif_pos ⟨first, accepts.symm.imp_left Eq.symm⟩]
          exact ⟨fun matched => .inr ⟨accepts, matched⟩, fun either => (either.resolve_left now).2⟩
        · rw [dif_neg fun both => accepts (both.2.symm.imp_right Eq.symm)]
          exact ⟨nofun, fun either => absurd (either.resolve_left now).1 accepts⟩
      rw [goes, here _ nonzero, ih later]
      constructor
      · rintro (now | ⟨accepts, word, after, rfl, each, last⟩)
        · exact ⟨[], t :: text, rfl, nofun, now⟩
        · exact ⟨t :: word, after, rfl, List.forall_mem_cons.mpr ⟨accepts, each⟩, last⟩
      · rintro ⟨word, after, split, each, last⟩
        cases word with
        | nil =>
            rw [List.nil_append] at split
            exact .inl (split ▸ last)
        | cons b word =>
            obtain ⟨rfl, rfl⟩ := List.cons.inj split
            obtain ⟨accepts, each⟩ := List.forall_mem_cons.mp each
            exact .inr ⟨accepts, word, after, rfl, each, last⟩

theorem matchhere_nil (x text : List Byte) : matchhere ([] ++ 0 :: x) text = true := by
  rw [matchhere]
  rfl

/-- A plain letter is compared with the next character of the text. -/
theorem matchhere_once {c : Byte} {re text : List Byte} (x y : List Byte) (first : c ≠ 0) (pattern : 0 ∉ re)
    (nonzero : 0 ∉ text) (unstarred : re.headD 0 ≠ code '*') (inner : ¬ (c = code '$' ∧ re = [])) :
    matchhere (c :: re ++ 0 :: x) (text ++ 0 :: y) = true ↔ ∃ b rest, text = b :: rest ∧ (c = code '.' ∨ c = b) ∧
      matchhere (re ++ 0 :: x) (rest ++ 0 :: y) = true := by
  have next : (re ++ 0 :: x).headD 0 = re.headD 0 := headD_string re x
  rw [← headD_eq_zero pattern] at inner
  rw [matchhere]
  simp only [List.cons_append, List.headD_cons, List.tail_cons, next, dif_neg first, if_neg unstarred, if_neg inner]
  cases text with
  | nil => simp
  | cons b text =>
      have present : b ≠ 0 := fun zero => nonzero (zero ▸ List.mem_cons_self)
      simp only [List.cons_append, List.headD_cons, List.tail_cons, present, ne_eq, not_false_eq_true, true_and,
        List.cons.injEq]
      split_ifs with accepts
      · simp [accepts]
      · simp [accepts]

theorem matchhere_final (x y : List Byte) {text : List Byte} (nonzero : 0 ∉ text) :
    matchhere ([code '$'] ++ 0 :: x) (text ++ 0 :: y) = true ↔ text = [] := by
  rw [matchhere, ← headD_eq_zero nonzero, headD_string text]
  rw [dif_neg (show ([code '$'] ++ 0 :: x).headD 0 ≠ 0 from (by decide : code '$' ≠ 0)),
    if_neg (show ([code '$'] ++ 0 :: x).tail.headD 0 ≠ code '*' from (by decide : (0 : Byte) ≠ code '*')),
    if_pos ⟨rfl, rfl⟩, decide_eq_true_iff]

theorem matchhere_star {c : Byte} (re x text : List Byte) (first : c ≠ 0) :
    matchhere (c :: code '*' :: re ++ 0 :: x) text = matchstar c (re ++ 0 :: x) text := by
  rw [matchhere]
  exact (dif_neg first).trans (if_pos rfl)

/-- `matchhere` decides whether a text begins with a word of the expression. -/
theorem matchhere_iff {re text : List Byte} (x y : List Byte) (pattern : 0 ∉ re) (nonzero : 0 ∉ text) :
    matchhere (re ++ 0 :: x) (text ++ 0 :: y) = true ↔ Begins re text := by
  induction re using items.induct generalizing text with
  | case1 => exact iff_of_true (matchhere_nil x _) (begins_nil text)
  | case2 => rw [matchhere_final x y nonzero, begins_final]
  | case3 c inner =>
      have first : c ≠ 0 := fun zero => pattern (zero ▸ List.mem_cons_self)
      rw [matchhere_once x y first List.not_mem_nil nonzero (by decide) fun both => inner both.1,
        begins_once (by decide) fun both => inner both.1]
      exact exists₂_congr fun b rest => and_congr_right fun _ => and_congr_right fun _ =>
        iff_of_true (matchhere_nil x _) (begins_nil rest)
  | case4 c re rest final split ih =>
      have first : c ≠ 0 := fun zero => pattern (zero ▸ List.mem_cons_self)
      have later : 0 ∉ re := fun mem => pattern (List.mem_cons_of_mem _ (List.mem_cons_of_mem _ mem))
      rw [matchhere_star re x _ first, begins_star]
      exact matchstar_iff (fun _ => ih later) nonzero
  | case5 c c' re unstarred rest final split ih =>
      have first : c ≠ 0 := fun zero => pattern (zero ▸ List.mem_cons_self)
      have later : 0 ∉ c' :: re := fun mem => pattern (List.mem_cons_of_mem _ mem)
      have plain : (c' :: re).headD 0 ≠ code '*' := unstarred
      have inner : ¬ (c = code '$' ∧ c' :: re = []) := fun both => nomatch both.2
      rw [matchhere_once x y first later nonzero plain inner, begins_once plain inner]
      refine exists₂_congr fun b rest => and_congr_right fun whole => and_congr_right fun _ => ih later ?_
      exact fun mem => nonzero (whole ▸ List.mem_cons_of_mem _ mem)

/-- The loop of `match` tries every place of the text. -/
theorem matchLoop_iff {re text : List Byte} (x y : List Byte) (pattern : 0 ∉ re) (nonzero : 0 ∉ text) :
    matchLoop (re ++ 0 :: x) (text ++ 0 :: y) = true ↔ ∃ before rest, text = before ++ rest ∧ Begins re rest := by
  induction text with
  | nil =>
      have stops : matchLoop (re ++ 0 :: x) ([] ++ 0 :: y) = matchhere (re ++ 0 :: x) ([] ++ 0 :: y) := by
        rw [matchLoop]
        simp
      rw [stops, matchhere_iff x y pattern nonzero]
      constructor
      · exact fun last => ⟨[], [], rfl, last⟩
      · rintro ⟨before, rest, split, last⟩
        rwa [(List.append_eq_nil_iff.mp split.symm).2] at last
  | cons t text ih =>
      have first : t ≠ 0 := fun zero => nonzero (zero ▸ List.mem_cons_self)
      have later : 0 ∉ text := fun mem => nonzero (List.mem_cons_of_mem _ mem)
      have goes : matchLoop (re ++ 0 :: x) (t :: text ++ 0 :: y) = true ↔
          matchhere (re ++ 0 :: x) (t :: text ++ 0 :: y) = true ∨ matchLoop (re ++ 0 :: x) (text ++ 0 :: y) = true := by
        conv_lhs => rw [matchLoop]
        by_cases now : matchhere (re ++ 0 :: x) (t :: text ++ 0 :: y) = true
        · exact iff_of_true (if_pos now) (.inl now)
        rw [if_neg now, dif_pos (show (t :: text ++ 0 :: y).headD 0 ≠ 0 from first)]
        exact ⟨.inr, fun either => either.resolve_left now⟩
      rw [goes, matchhere_iff x y pattern nonzero, ih later]
      constructor
      · rintro (now | ⟨before, rest, rfl, last⟩)
        · exact ⟨[], t :: text, rfl, now⟩
        · exact ⟨t :: before, rest, rfl, last⟩
      · rintro ⟨before, rest, split, last⟩
        cases before with
        | nil =>
            rw [List.nil_append] at split
            exact .inl (split ▸ last)
        | cons b before =>
            obtain ⟨rfl, rfl⟩ := List.cons.inj split
            exact .inr ⟨before, rest, rfl, last⟩

/-- The part of an expression after a `^` at its start. -/
def unanchored (re : List Byte) : List Byte := if re.headD 0 = code '^' then re.tail else re

/-- `match` decides the language of an expression: it returns 1 exactly if a part of the text is a word of the
expression, at the start of the text after a `^` and at its end before a final `$`. -/
theorem matchText_iff (re text : CString) (x y : List Byte) :
    matchText (re.inMemory x) (text.inMemory y) = true ↔
      ∃ before, ∃ word ∈ language (unanchored re.bytes), ∃ after, text.bytes = before ++ (word ++ after) ∧
        (re.bytes.headD 0 = code '^' → before = []) ∧ ((items (unanchored re.bytes)).2 = true → after = []) := by
  obtain ⟨re, pattern⟩ := re
  obtain ⟨text, nonzero⟩ := text
  unfold matchText CString.inMemory unanchored
  rw [headD_string]
  dsimp only
  split_ifs with anchor
  · cases re with
    | nil => exact absurd anchor (by decide)
    | cons c re =>
        have later : 0 ∉ re := fun mem => pattern (List.mem_cons_of_mem _ mem)
        rw [List.cons_append, List.tail_cons, List.tail_cons, matchhere_iff x y later nonzero]
        constructor
        · rintro ⟨word, inside, after, split, ends⟩
          exact ⟨[], word, inside, after, split, fun _ => rfl, ends⟩
        · rintro ⟨before, word, inside, after, split, starts, ends⟩
          rw [starts anchor] at split
          exact ⟨word, inside, after, split, ends⟩
  · rw [matchLoop_iff x y pattern nonzero]
    constructor
    · rintro ⟨before, rest, split, word, inside, after, rfl, ends⟩
      exact ⟨before, word, inside, after, split, fun mark => absurd mark anchor, ends⟩
    · rintro ⟨before, word, inside, after, split, -, ends⟩
      exact ⟨before, word ++ after, split, word, inside, after, rfl, ends⟩

end Xv6.User
