/-
This file gives the reference line editor. It keeps the committed characters that no call has read and the characters
of the unfinished line in two lists.
-/

import Xv6.Kernel.Console

namespace Xv6
open TransitionSystem

/-- A call of the editor sleeps with its wanted bytes, or returns its bytes. -/
inductive EditorTurn where
  | sleeps (want : Nat) (got : List Byte)
  | returns (got : List Byte)

/-- The count and the bytes that a call returns. -/
def EditorTurn.output : EditorTurn → Option (Nat × List Byte)
  | .sleeps _ _ => none
  | .returns got => some (got.length, got)

inductive EditorPc where
  | idle
  | asleep (want : Nat) (got : List Byte)
  | awake (want : Nat) (got : List Byte)

structure LineEditor (Thread : Type) where
  committed : List Byte
  pending : List Byte
  pc : Thread → EditorPc

namespace LineEditor

variable {Thread : Type} [DecidableEq Thread] (e : LineEditor Thread)

/-- The character that a key enters. -/
def translate (c : Byte) : Byte := if c = carriageReturn then newline else c

/-- The line is complete after the character: a newline, an end of file, or no more room. -/
def completes (c : Byte) : Prop :=
  c = newline ∨ c = ctrl 'D' ∨ e.committed.length + e.pending.length + 1 = inputBufSize

instance (c : Byte) : Decidable (e.completes c) := inferInstanceAs (Decidable (_ ∨ _ ∨ _))

/-- The keys that never enter a character. -/
def command (c : Byte) : Prop := c = ctrl 'P' ∨ c = ctrl 'U' ∨ c = ctrl 'H' ∨ c = deleteKey ∨ c = 0

instance (c : Byte) : Decidable (command c) := inferInstanceAs (Decidable (_ ∨ _ ∨ _ ∨ _ ∨ _))

/-- The key enters a character: it is not a command and the buffer has room. -/
def enters (c : Byte) : Prop := ¬ command c ∧ e.committed.length + e.pending.length < inputBufSize

instance (c : Byte) : Decidable (e.enters c) := inferInstanceAs (Decidable (_ ∧ _))

/-- The characters that a key commits. -/
def commits (c : Byte) : List Byte :=
  if e.enters c ∧ e.completes (translate c) then e.pending ++ [translate c] else []

/-- The unfinished line after a key. -/
def edited (c : Byte) : List Byte :=
  if e.enters c then if e.completes (translate c) then [] else e.pending ++ [translate c]
  else if c = ctrl 'U' then []
  else if c = ctrl 'H' ∨ c = deleteKey then e.pending.dropLast
  else e.pending

/-- A commit wakes the calls that wait. -/
def wake : EditorPc → EditorPc
  | .asleep want got => .awake want got
  | pc => pc

def key (c : Byte) : LineEditor Thread where
  committed := e.committed ++ e.commits c
  pending := e.edited c
  pc := if e.enters c ∧ e.completes (translate c) then fun t => wake (e.pc t) else e.pc

/-- What a call takes from the committed characters, and how it goes on. It ends after a newline. An end of file ends it
too, and only a call without bytes takes the mark. -/
def take : Nat → List Byte → List Byte → List Byte × EditorTurn
  | 0, got, _ => ([], .returns got)
  | want + 1, got, [] => ([], .sleeps (want + 1) got)
  | want + 1, got, c :: rest =>
      if c = ctrl 'D' then (if got = [] then [c] else [], .returns got)
      else if c = newline then ([c], .returns (got ++ [c]))
      else
        let (taken, turn) := take want (got ++ [c]) rest
        (c :: taken, turn)

/-- The place of a thread after its call. -/
def place : EditorTurn → EditorPc
  | .sleeps want got => .asleep want got
  | .returns _ => .idle

def run (t : Thread) (want : Nat) (got : List Byte) : LineEditor Thread × Option (Nat × List Byte) :=
  let (taken, turn) := take want got e.committed
  ({ e with committed := e.committed.drop taken.length, pc := Function.update e.pc t (place turn) }, turn.output)

def next : ConsoleEvent Thread → Option (LineEditor Thread × Option (Nat × List Byte))
  | .key c => some (e.key c, none)
  | .read t n => match e.pc t with
      | .idle => some (e.run t n [])
      | _ => none
  | .resume t => match e.pc t with
      | .awake want got => some (e.run t want got)
      | _ => none

def Step (label : ConsoleLabel Thread) (f : LineEditor Thread) : Prop := e.next label.1 = some (f, label.2)

def empty : LineEditor Thread := ⟨[], [], fun _ => .idle⟩

/-- The wanted and the earlier bytes of the call that runs in an event. -/
def call : ConsoleEvent Thread → Option (Nat × List Byte)
  | .key _ => none
  | .read _ n => some (n, [])
  | .resume t => match e.pc t with
      | .awake want got => some (want, got)
      | _ => none

/-- The characters that an event commits. -/
def entered (entry : LineEditor Thread × ConsoleLabel Thread) : List Byte :=
  match entry.2.1 with
  | .key c => entry.1.commits c
  | _ => []

/-- The characters that an event takes from the committed ones. -/
def consumed (entry : LineEditor Thread × ConsoleLabel Thread) : List Byte :=
  match entry.1.call entry.2.1 with
  | some (want, got) => (take want got entry.1.committed).1
  | none => []

/-- What a call does with the committed characters: it takes an end-of-file mark and returns nothing, it returns all
its bytes, or it takes everything and sleeps. -/
inductive Delivers (want : Nat) (got line : List Byte) : List Byte → EditorTurn → Prop where
  | eof (rest : List Byte) (wanted : 0 < want) (first : got = []) (mark : line = ctrl 'D' :: rest) :
      Delivers want got line [ctrl 'D'] (.returns [])
  | line (taken rest : List Byte) (split : line = taken ++ rest) (plain : ctrl 'D' ∉ taken)
      (single : newline ∉ taken.dropLast) (fits : taken.length ≤ want)
      (ended : taken.length = want ∨ taken.getLast? = some newline ∨
        got ++ taken ≠ [] ∧ rest.head? = some (ctrl 'D')) :
      Delivers want got line taken (.returns (got ++ taken))
  | all (plain : ctrl 'D' ∉ line) (unfinished : newline ∉ line) (short : line.length < want) :
      Delivers want got line line (.sleeps (want - line.length) (got ++ line))

/-- A call that goes on after one more plain byte. -/
theorem Delivers.cons {want : Nat} {got line taken : List Byte} {turn : EditorTurn} {c : Byte}
    (plain : c ≠ ctrl 'D') (unfinished : c ≠ newline) (delivers : Delivers want (got ++ [c]) line taken turn) :
    Delivers (want + 1) got (c :: line) (c :: taken) turn := by
  cases delivers with
  | eof rest wanted first mark => exact absurd first (by simp)
  | line taken rest split plain' single fits ended =>
      rw [List.append_assoc, List.singleton_append]
      refine .line (c :: taken) rest ?_ ?_ ?_ ?_ ?_
      · rw [split]
        rfl
      · exact List.not_mem_cons_of_ne_of_not_mem (Ne.symm plain) plain'
      · cases taken with
        | nil => exact List.not_mem_nil
        | cons d later =>
            rw [List.dropLast_cons_cons]
            exact List.not_mem_cons_of_ne_of_not_mem (Ne.symm unfinished) single
      · exact Nat.succ_le_succ fits
      · rcases ended with whole | last | ⟨_, mark⟩
        · exact .inl (congrArg (· + 1) whole)
        · refine .inr (.inl ?_)
          cases taken with
          | nil => cases last
          | cons d later => exact last
        · exact .inr (.inr ⟨by simp, mark⟩)
  | all plain' open' short =>
      have count : want - line.length = want + 1 - (c :: line).length := by
        rw [List.length_cons]
        omega
      rw [List.append_assoc, List.singleton_append, count]
      refine .all ?_ ?_ (Nat.succ_lt_succ short)
      · exact List.not_mem_cons_of_ne_of_not_mem (Ne.symm plain) plain'
      · exact List.not_mem_cons_of_ne_of_not_mem (Ne.symm unfinished) open'

theorem take_delivers (want : Nat) (got line : List Byte) :
    Delivers want got line (take want got line).1 (take want got line).2 := by
  induction want generalizing got line with
  | zero =>
      have none : Delivers 0 got line [] (.returns (got ++ [])) :=
        .line [] line rfl List.not_mem_nil List.not_mem_nil le_rfl (.inl rfl)
      rwa [List.append_nil] at none
  | succ want ih =>
      cases line with
      | nil =>
          have asleep : Delivers (want + 1) got [] [] (.sleeps (want + 1) (got ++ [])) :=
            .all List.not_mem_nil List.not_mem_nil (Nat.succ_pos _)
          rwa [List.append_nil] at asleep
      | cons c rest =>
          unfold take
          split_ifs with mark first stops
          · subst mark first
            exact .eof rest (Nat.succ_pos _) rfl rfl
          · have later : got ++ [] ≠ [] ∧ (c :: rest).head? = some (ctrl 'D') := ⟨by simpa using first, by rw [mark]; rfl⟩
            have kept : Delivers (want + 1) got (c :: rest) [] (.returns (got ++ [])) :=
              .line [] (c :: rest) rfl List.not_mem_nil List.not_mem_nil (Nat.zero_le _) (.inr (.inr later))
            rwa [List.append_nil] at kept
          · refine .line [c] rest rfl ?_ List.not_mem_nil (Nat.succ_le_succ (Nat.zero_le _)) ?_
            · simpa using Ne.symm mark
            · exact .inr (.inl (by rw [stops]; rfl))
          · exact (ih (got ++ [c]) rest).cons mark stops

/-- A call takes the first committed characters. -/
theorem take_prefix (want : Nat) (got line : List Byte) :
    line = (take want got line).1 ++ line.drop (take want got line).1.length := by
  have delivers := take_delivers want got line
  generalize (take want got line).1 = taken at delivers ⊢
  generalize (take want got line).2 = turn at delivers
  cases delivers with
  | eof rest wanted first mark =>
      rw [mark]
      rfl
  | line taken rest split =>
      rw [split, List.drop_left]
  | all => simp

/-- An event that is no key runs its call. -/
theorem step_call {f : LineEditor Thread} {event : ConsoleEvent Thread} {out : Option (Nat × List Byte)}
    (stepped : e.Step (event, out) f) {want : Nat} {got : List Byte} (called : e.call event = some (want, got)) :
    ∃ t, e.run t want got = (f, out) := by
  have done : e.next event = some (f, out) := stepped
  cases event with
  | key c => cases called
  | read t n =>
      obtain ⟨rfl, rfl⟩ := Prod.mk.inj (Option.some.inj called)
      cases position : e.pc t with
      | idle =>
          simp only [next, position] at done
          exact ⟨t, Option.some.inj done⟩
      | _ =>
          simp only [next, position] at done
          cases done
  | resume t =>
      cases position : e.pc t with
      | awake want' got' =>
          simp only [call, position] at called
          obtain ⟨rfl, rfl⟩ := Prod.mk.inj (Option.some.inj called)
          simp only [next, position] at done
          exact ⟨t, Option.some.inj done⟩
      | _ =>
          simp only [call, position] at called
          cases called

omit [DecidableEq Thread] in
theorem consumed_call {label : ConsoleLabel Thread} {want : Nat} {got : List Byte}
    (called : e.call label.1 = some (want, got)) : consumed (e, label) = (take want got e.committed).1 := by
  simp only [consumed, called]

/-- A call that runs delivers what it takes. -/
theorem step_delivers {f : LineEditor Thread} {label : ConsoleLabel Thread} (stepped : e.Step label f) {want : Nat}
    {got : List Byte} (called : e.call label.1 = some (want, got)) :
    ∃ turn, Delivers want got e.committed (consumed (e, label)) turn ∧ label.2 = turn.output := by
  obtain ⟨t, result⟩ := e.step_call stepped called
  refine ⟨(take want got e.committed).2, ?_, (congrArg Prod.snd result).symm⟩
  rw [e.consumed_call called]
  exact take_delivers want got e.committed

/-- One step keeps the account of the characters. -/
theorem step_account {f : LineEditor Thread} {label : ConsoleLabel Thread} (stepped : e.Step label f) :
    e.committed ++ entered (e, label) = consumed (e, label) ++ f.committed := by
  obtain ⟨event, out⟩ := label
  cases called : e.call event with
  | some wanted =>
      obtain ⟨t, result⟩ := e.step_call stepped called
      have rest : f.committed = e.committed.drop (take wanted.1 wanted.2 e.committed).1.length := by
        have same : f = (e.run t wanted.1 wanted.2).1 := (congrArg Prod.fst result).symm
        rw [same]
        rfl
      have none : entered (e, (event, out)) = [] := by
        cases event with
        | key c => cases called
        | _ => rfl
      rw [none, List.append_nil, e.consumed_call called, rest]
      exact take_prefix wanted.1 wanted.2 e.committed
  | none =>
      have done : e.next event = some (f, out) := stepped
      have nothing : consumed (e, (event, out)) = [] := by
        simp only [consumed, called]
      rw [nothing]
      cases event with
      | key c =>
          have same : f = e.key c := (congrArg Prod.fst (Option.some.inj done)).symm
          rw [same]
          rfl
      | read t n => cases called
      | resume t =>
          simp only [next] at done
          simp only [call] at called
          split at done
          · simp_all
          · cases done

/-- Every committed character has been taken once, in order, or waits to be read. -/
theorem run_account {f : LineEditor Thread} {trace : List (LineEditor Thread × ConsoleLabel Thread)}
    (run : Run Step empty trace f) : trace.flatMap entered = trace.flatMap consumed ++ f.committed := by
  have keeps (trace : List (LineEditor Thread × ConsoleLabel Thread)) (e : LineEditor Thread)
      (label : ConsoleLabel Thread) (f : LineEditor Thread) (_ : True)
      (before : trace.flatMap entered = trace.flatMap consumed ++ e.committed) (stepped : e.Step label f) :
      (trace ++ [(e, label)]).flatMap entered = (trace ++ [(e, label)]).flatMap consumed ++ f.committed := by
    simp only [List.flatMap_append, List.flatMap_cons, List.flatMap_nil, List.append_nil]
    rw [before, List.append_assoc, List.append_assoc, e.step_account stepped]
  exact run.history (fun _ _ => True) keeps (fun _ _ => trivial) rfl

end LineEditor

end Xv6
