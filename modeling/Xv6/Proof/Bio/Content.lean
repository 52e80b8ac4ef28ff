/-
This file shows that the buffer cache is a faithful copy of the disk. An abstract store keeps the data last
stored for each cached block, and `bread` returns what the store has.
-/

import Xv6.Proof.Bio.Position

namespace Xv6.Bio
open TransitionSystem

variable {Data : Type}

/-- The data last stored for each block that is cached, and the data last written to the disk. -/
structure BlockStore (Data : Type) where
  cached : BlockKey → Option Data
  disk : Uint → Data

/-- What a step means for the data of the blocks. -/
inductive BlockOp (Data : Type) where
  | quiet
  | read (key : BlockKey)
  | store (key : BlockKey) (data : Data)
  | write (key : BlockKey)
  | evict (key : BlockKey)

namespace BlockStore

/-- The data of a block is the cached data, or else the data on the disk. -/
def lookup (store : BlockStore Data) (key : BlockKey) : Data := (store.cached key).getD (store.disk key.2)

def apply (store : BlockStore Data) : BlockOp Data → BlockStore Data
  | .quiet => store
  | .read key => { store with cached := Function.update store.cached key (some (store.lookup key)) }
  | .store key data => { store with cached := Function.update store.cached key (some data) }
  | .write key => { store with disk := Function.update store.disk key.2 (store.lookup key) }
  | .evict key => { store with cached := Function.update store.cached key none }

end BlockStore

/-- The block that a step reads from the disk, stores into, writes to the disk or throws out. -/
def blockOp (s : Bcache Data) : BioEvent Data → BlockOp Data
  | .store _ b data => .store (s.buf b).key data
  | .step t =>
      match s.pc t with
      | .get key =>
          match s.cached key, s.unused with
          | none, some b => if (s.buf b).valid then .evict (s.buf b).key else .quiet
          | _, _ => .quiet
      | .fill _ key => .read key
      | .write b => .write (s.buf b).key
      | _ => .quiet
  | _ => .quiet

/-- The store that the steps of a run leave behind. -/
def observed (disk : Uint → Data) (trace : List (Bcache Data × BioEvent Data)) : BlockStore Data :=
  trace.foldl (fun store entry => store.apply (blockOp entry.1 entry.2)) ⟨fun _ => none, disk⟩

/-- The buffers that hold data hold the data of the store. -/
structure Agrees (store : BlockStore Data) (s : Bcache Data) : Prop where
  data : ∀ b, Loaded s b → store.cached (s.buf b).key = some (s.buf b).data
  cached : ∀ key, store.cached key ≠ none → ∃ b, (s.buf b).key = key ∧ Loaded s b
  disk : s.disk = store.disk

section Agrees

variable {s u : Bcache Data} {event : BioEvent Data} {store : BlockStore Data} {order : List BufIndex}

/-- A step that changes neither the blocks nor the data of the buffers. -/
theorem Agrees.keep (agrees : Agrees store s) (keys : ∀ b, (u.buf b).key = (s.buf b).key)
    (data : ∀ b, (u.buf b).data = (s.buf b).data) (full : ∀ b, Loaded u b ↔ Loaded s b)
    (disk : u.disk = s.disk) : Agrees store u := by
  refine ⟨fun b holds => ?_, fun key known => ?_, disk.trans agrees.disk⟩
  · rw [keys, data]
    exact agrees.data b ((full b).mp holds)
  · obtain ⟨b, own, holds⟩ := agrees.cached key known
    exact ⟨b, (keys b).trans own, (full b).mpr holds⟩

/-- The buffers that hold data stay the same when one process moves and has not just read the disk. -/
theorem loaded_keep (t : Slot) (moved : ∀ v, v ≠ t → u.pc v = s.pc v)
    (valid : ∀ b, (u.buf b).valid = (s.buf b).valid) (before : ∀ b, ¬ fetched b (s.pc t))
    (after : ∀ b, ¬ fetched b (u.pc t)) (b : BufIndex) : Loaded u b ↔ Loaded s b := by
  unfold Loaded
  rw [valid]
  refine or_congr Iff.rfl (exists_congr fun v => ?_)
  by_cases here : v = t
  · subst here
    exact iff_of_false (after b) (before b)
  · rw [moved v here]

/-- A buffer that holds data is in use. -/
theorem loaded_used (held : Held s) (counted : Counted s) {b : BufIndex} (full : Loaded s b) :
    ¬ Pristine (s.buf b) := by
  rcases full with valid | ⟨t, reads⟩
  · intro pristine
    rw [pristine.1] at valid
    cases valid
  · have within : inside b (s.pc t) := by
      cases position : s.pc t <;> rw [position] at reads <;> first | exact reads | exact reads.elim
    have locked := held t b within
    exact counted.used (.inl (by rw [locked]; nofun))

/-- Two buffers in use have different blocks. -/
theorem Ranked.different (ranked : Ranked s order) {b c : BufIndex} (used : ¬ Pristine (s.buf b))
    (other : ¬ Pristine (s.buf c)) (apart : c ≠ b) : (s.buf c).key ≠ (s.buf b).key := by
  intro same
  rcases ranked.pristine apart same with pristine | pristine
  · exact other pristine
  · exact used pristine

/-- A buffer in use whose data changes, together with the data of its block in the store. -/
theorem Agrees.refill (agrees : Agrees store s) (held : Held s) (counted : Counted s) (ranked : Ranked s order)
    {b : BufIndex} {data : Data} (used : ¬ Pristine (s.buf b))
    (same : ∀ c, c ≠ b → u.buf c = s.buf c ∧ (Loaded u c ↔ Loaded s c)) (key : (u.buf b).key = (s.buf b).key)
    (new : (u.buf b).data = data) (full : Loaded u b) (disk : u.disk = s.disk) :
    Agrees { store with cached := Function.update store.cached (s.buf b).key (some data) } u := by
  refine ⟨fun c holds => ?_, fun k known => ?_, disk.trans agrees.disk⟩
  · by_cases here : c = b
    · rw [here, key, new]
      exact Function.update_self _ _ _
    · have old := (same c here).2.mp holds
      have apart := ranked.different used (loaded_used held counted old) here
      rw [(same c here).1]
      exact (Function.update_of_ne apart _ _).trans (agrees.data c old)
  · by_cases here : k = (s.buf b).key
    · exact ⟨b, by rw [key, here], full⟩
    · have old : store.cached k ≠ none := by
        rw [← Function.update_of_ne here (some data) store.cached]
        exact known
      obtain ⟨c, own, holds⟩ := agrees.cached k old
      have other : c ≠ b := by
        rintro rfl
        exact here own.symm
      exact ⟨c, by rw [(same c other).1, own], (same c other).2.mpr holds⟩

/-- A buffer that no one uses loses its data. -/
theorem Agrees.recycle (agrees : Agrees store s) (held : Held s) (counted : Counted s) (ranked : Ranked s order)
    {t : Slot} {b : BufIndex} {key : BlockKey} (position : s.pc t = .get key) (zero : (s.buf b).refcnt = 0) :
    Agrees (store.apply (if (s.buf b).valid then .evict (s.buf b).key else .quiet))
      ((s.setBuf b { s.buf b with key := key, valid := false, refcnt := 1 }).goto t (.lock b key)) := by
  have idle (v : Slot) : ¬ fetched b (s.pc v) := by
    intro reads
    have within : inside b (s.pc v) := by
      cases at_v : s.pc v <;> rw [at_v] at reads <;> first | exact reads | exact reads.elim
    have locked := held v b within
    rw [(counted.free zero).1] at locked
    cases locked
  have full (c : BufIndex) (other : c ≠ b) :
      Loaded ((s.setBuf b { s.buf b with key := key, valid := false, refcnt := 1 }).goto t (.lock b key)) c ↔
        Loaded s c := by
    simp only [Loaded, goto_buf, setBuf_buf, if_neg other, goto_pc, setBuf_pc]
    refine or_congr Iff.rfl (exists_congr fun v => ?_)
    by_cases here : v = t
    · subst here
      rw [if_pos rfl, position]
      exact Iff.rfl
    · rw [if_neg here]
  have empty : ¬ Loaded ((s.setBuf b { s.buf b with key := key, valid := false, refcnt := 1 }).goto t
      (.lock b key)) b := by
    rintro (valid | ⟨v, reads⟩)
    · simp at valid
    · simp only [goto_pc, setBuf_pc] at reads
      split_ifs at reads with here
      · exact reads
      · exact idle v reads
  have kept (k : BlockKey) (loses : (s.buf b).valid = true → k ≠ (s.buf b).key) :
      (store.apply (if (s.buf b).valid then .evict (s.buf b).key else .quiet)).cached k = store.cached k := by
    split_ifs with valid
    · exact Function.update_of_ne (loses valid) _ _
    · rfl
  refine ⟨fun c holds => ?_, fun k known => ?_, ?_⟩
  · have other : c ≠ b := by
      rintro rfl
      exact empty holds
    have old := (full c other).mp holds
    simp only [goto_buf, setBuf_buf, if_neg other]
    rw [kept _ fun valid => ranked.different (loaded_used held counted (.inl valid))
      (loaded_used held counted old) other]
    exact agrees.data c old
  · have loses (valid : (s.buf b).valid = true) : k ≠ (s.buf b).key := by
      rintro rfl
      simp [valid, BlockStore.apply] at known
    rw [kept k loses] at known
    obtain ⟨c, own, holds⟩ := agrees.cached k known
    have other : c ≠ b := by
      rintro rfl
      rcases holds with valid | ⟨v, reads⟩
      · exact loses valid own.symm
      · exact idle v reads
    exact ⟨c, by simpa [other] using own, (full c other).mpr holds⟩
  · have disk : (store.apply (if (s.buf b).valid then .evict (s.buf b).key else .quiet)).disk = store.disk := by
      split_ifs <;> rfl
    rw [disk]
    exact agrees.disk

theorem agrees_load (agrees : Agrees store s) (held : Held s) (counted : Counted s) (ranked : Ranked s order)
    (chosen : Chosen s) {t : Slot} {b : BufIndex} {key : BlockKey} (position : s.pc t = .fill b key)
    (invalid : (s.buf b).valid = false) :
    Agrees (store.apply (.read key))
      ((s.setBuf b { s.buf b with data := s.disk (s.buf b).key.2 }).goto t (.filled b key)) := by
  have mine := held t b (by rw [position]; rfl)
  have used : ¬ Pristine (s.buf b) := counted.used (.inl (by rw [mine]; nofun))
  obtain rfl : (s.buf b).key = key := chosen t b key (by rw [position]; exact ⟨rfl, rfl⟩)
  have missing : store.cached (s.buf b).key = none := by
    by_contra known
    obtain ⟨c, own, holds⟩ := agrees.cached _ known
    by_cases here : c = b
    · subst here
      rcases holds with valid | ⟨v, reads⟩
      · rw [invalid] at valid
        cases valid
      · cases at_v : s.pc v <;> rw [at_v] at reads <;> try exact reads.elim
        have other := held v c (by rw [at_v]; exact reads)
        obtain rfl : t = v := Option.some.inj (mine.symm.trans other)
        rw [position] at at_v
        cases at_v
    · exact ranked.different used (loaded_used held counted holds) here own
  have found : store.lookup (s.buf b).key = s.disk (s.buf b).key.2 := by
    rw [BlockStore.lookup, missing, Option.getD_none, agrees.disk]
  rw [BlockStore.apply, found]
  refine agrees.refill held counted ranked used (fun c other => ⟨by simp [other], ?_⟩) (by simp) (by simp)
    (.inr ⟨t, by simp [fetched]⟩) rfl
  simp only [Loaded, goto_buf, setBuf_buf, if_neg other, goto_pc, setBuf_pc]
  refine or_congr Iff.rfl (exists_congr fun v => ?_)
  by_cases here : v = t
  · subst here
    rw [if_pos rfl, position]
    exact iff_of_false (fun same => other same.symm) id
  · rw [if_neg here]

/-- `bread` of a buffer with valid data reads nothing new. -/
theorem agrees_ready (agrees : Agrees store s) (chosen : Chosen s) {t : Slot} {b : BufIndex} {key : BlockKey}
    (position : s.pc t = .fill b key) (valid : (s.buf b).valid = true) :
    Agrees (store.apply (.read key)) (s.goto t .idle) := by
  have own := chosen t b key (by rw [position]; exact ⟨rfl, rfl⟩)
  have known := agrees.data b (.inl valid)
  rw [own] at known
  have same : store.apply (.read key) = store := by
    rw [BlockStore.apply, BlockStore.lookup, known, Option.getD_some, ← known, Function.update_eq_self]
  rw [same]
  refine agrees.keep (fun _ => rfl) (fun _ => rfl) (loaded_keep t ?_ (fun _ => rfl) ?_ ?_) rfl
  · intro v other
    simp [other]
  · rw [position]
    exact fun _ => id
  · simp [fetched]

/-- `bwrite` writes the data of the store. -/
theorem agrees_flush (agrees : Agrees store s) (held : Held s) (ready : Ready s) {t : Slot} {b : BufIndex}
    (position : s.pc t = .write b) :
    Agrees (store.apply (.write (s.buf b).key))
      ({ s with disk := Function.update s.disk (s.buf b).key.2 (s.buf b).data }.goto t .idle) := by
  have valid : (s.buf b).valid = true := by
    rcases ready t b (held t b (by rw [position]; rfl)) with known | reads
    · exact known
    · rw [position] at reads
      exact reads.elim
  have found : store.lookup (s.buf b).key = (s.buf b).data := by
    rw [BlockStore.lookup, agrees.data b (.inl valid), Option.getD_some]
  have kept : Agrees store (s.goto t .idle) := by
    refine agrees.keep (fun _ => rfl) (fun _ => rfl) (loaded_keep t ?_ (fun _ => rfl) ?_ ?_) rfl
    · intro v other
      simp [other]
    · rw [position]
      exact fun _ => id
    · simp [fetched]
  refine ⟨kept.data, kept.cached, ?_⟩
  rw [BlockStore.apply, found]
  exact congrArg (fun old => Function.update old (s.buf b).key.2 (s.buf b).data) agrees.disk

theorem agrees_step (held : Held s) (counted : Counted s) (ranked : Ranked s order) (chosen : Chosen s)
    (ready : Ready s) (agrees : Agrees store s) (move : Move s event u) :
    Agrees (store.apply (blockOp s event)) u := by
  have quiet {t : Slot} {pc : BioPc} (before : ∀ b, ¬ fetched b (s.pc t)) (after : ∀ b, ¬ fetched b pc) :
      Agrees store (s.goto t pc) := by
    refine agrees.keep (fun _ => rfl) (fun _ => rfl) (loaded_keep t ?_ (fun _ => rfl) before ?_) rfl
    · intro v other
      simp [other]
    · simpa using after
  have refs {t : Slot} {b : BufIndex} {buf : Buf Data} {pc : BioPc} (key : buf.key = (s.buf b).key)
      (valid : buf.valid = (s.buf b).valid) (data : buf.data = (s.buf b).data)
      (before : ∀ b, ¬ fetched b (s.pc t)) (after : ∀ b, ¬ fetched b pc) :
      Agrees store ((s.setBuf b buf).goto t pc) := by
    refine agrees.keep (fun c => ?_) (fun c => ?_) (loaded_keep t ?_ (fun c => ?_) before ?_) rfl
    · by_cases here : c = b <;> simp [here, key]
    · by_cases here : c = b <;> simp [here, data]
    · intro v other
      simp [other]
    · by_cases here : c = b <;> simp [here, valid]
    · simpa using after
  have still (b : BufIndex) (refcnt : Uint) {pins : BufIndex → Nat} :
      Agrees store { s.setBuf b { s.buf b with refcnt := refcnt } with pins := pins } := by
    refine agrees.keep (fun c => ?_) (fun c => ?_) (fun c => ?_) rfl
    · by_cases here : c = b <;> simp [here]
    · by_cases here : c = b <;> simp [here]
    · by_cases here : c = b <;> simp [Loaded, here]
  have apart {t : Slot} {pc : BioPc} (position : s.pc t = pc) (fine : ∀ b, ¬ fetched b pc) (b : BufIndex) :
      ¬ fetched b (s.pc t) := by
    rw [position]
    exact fine b
  cases move with
  | read t key idle => exact quiet (apart idle fun _ => id) fun _ => id
  | store t b data idle locked =>
      have valid : (s.buf b).valid = true := by
        rcases ready t b locked with known | reads
        · exact known
        · rw [idle] at reads
          exact reads.elim
      have used := loaded_used held counted (.inl valid)
      refine agrees.refill held counted ranked used (fun c other => ⟨by simp [other], ?_⟩) (by simp) (by simp)
        (.inl (by simpa using valid)) rfl
      simp [Loaded, other]
  | write t b idle locked => exact quiet (apart idle fun _ => id) fun _ => id
  | release t b idle locked => exact quiet (apart idle fun _ => id) fun _ => id
  | badWrite t b unheld | badRelease t b unheld => exact ⟨agrees.data, agrees.cached, agrees.disk⟩
  | full t key position missing none =>
      have op : blockOp s (.step t) = .quiet := by simp [blockOp, position, none]
      rw [op]
      exact ⟨agrees.data, agrees.cached, agrees.disk⟩
  | pin t b locked room => exact still b _
  | unpin t b pinned => exact still b _
  | hit t key b position found =>
      have op : blockOp s (.step t) = .quiet := by simp [blockOp, position, found]
      rw [op]
      exact refs rfl rfl rfl (apart position fun _ => id) fun _ => id
  | recycle t key b position missing found =>
      have op : blockOp s (.step t) = if (s.buf b).valid then .evict (s.buf b).key else .quiet := by
        simp [blockOp, position, missing, found]
      rw [op]
      exact agrees.recycle held counted ranked position (unused_zero found)
  | lock t b key position free | unlock t b position =>
      have op : blockOp s (.step t) = .quiet := by simp [blockOp, position]
      rw [op]
      exact refs rfl rfl rfl (apart position fun _ => id) fun _ => id
  | ready t b key position valid =>
      have op : blockOp s (.step t) = .read key := by simp [blockOp, position]
      rw [op]
      exact agrees_ready agrees chosen position valid
  | load t b key position invalid =>
      have op : blockOp s (.step t) = .read key := by simp [blockOp, position]
      rw [op]
      exact agrees_load agrees held counted ranked chosen position invalid
  | loaded t b key position =>
      have op : blockOp s (.step t) = .quiet := by simp [blockOp, position]
      rw [op]
      refine agrees.keep (fun c => ?_) (fun c => ?_) (fun c => ?_) rfl
      · by_cases here : c = b <;> simp [here]
      · by_cases here : c = b <;> simp [here]
      · by_cases here : c = b
        · subst here
          exact iff_of_true (.inl (by simp)) (.inr ⟨t, by rw [position]; rfl⟩)
        · simp only [Loaded, goto_buf, setBuf_buf, if_neg here, goto_pc, setBuf_pc]
          refine or_congr Iff.rfl (exists_congr fun v => ?_)
          by_cases there : v = t
          · subst there
            rw [if_pos rfl, position]
            exact iff_of_false id fun same => here (Eq.symm same)
          · rw [if_neg there]
  | flush t b position =>
      have op : blockOp s (.step t) = .write (s.buf b).key := by simp [blockOp, position]
      rw [op]
      exact agrees_flush agrees held ready position
  | drop t b position =>
      have op : blockOp s (.step t) = .quiet := by simp [blockOp, position]
      rw [op]
      have face (c : BufIndex) : ((s.drop t b).buf c).key = (s.buf c).key ∧
          ((s.drop t b).buf c).data = (s.buf c).data ∧ ((s.drop t b).buf c).valid = (s.buf c).valid := by
        rw [drop_buf]
        by_cases here : c = b <;> simp [here]
      refine agrees.keep (fun c => (face c).1) (fun c => (face c).2.1)
        (loaded_keep t ?_ (fun c => (face c).2.2) (apart position fun _ => id) ?_) ?_
      · intro v other
        simp [other]
      · simp [fetched]
      · unfold Bcache.drop
        dsimp only
        split_ifs <;> rfl

end Agrees

/-- All facts about a state of the cache that the steps keep together. -/
structure Coherent (store : BlockStore Data) (s : Bcache Data) : Prop where
  held : Held s
  counted : Counted s
  ranked : ∃ order, Ranked s order
  chosen : Chosen s
  ready : Ready s
  agrees : Agrees store s

theorem coherent_boot (data : BufIndex → Data) (disk : Uint → Data) :
    Coherent ⟨fun _ => none, disk⟩ (Bcache.boot data disk) := by
  refine ⟨fun _ _ within => within.elim, fun b => ⟨?_, Nat.zero_le _⟩, ⟨_, ranked_boot data disk⟩,
    fun _ _ _ asks => asks.elim, nofun, ⟨?_, fun _ known => absurd rfl known, rfl⟩⟩
  · simp [refs, locked, uses, Bcache.boot]
  · rintro b (valid | ⟨t, reads⟩)
    · cases valid
    · exact reads.elim

theorem coherent_step {store : BlockStore Data} {s u : Bcache Data} {event : BioEvent Data}
    (coherent : Coherent store s) (stepped : s.Step event u) : Coherent (store.apply (blockOp s event)) u := by
  have move := move_next stepped
  obtain ⟨held, counted, ⟨order, ranked⟩, chosen, ready, agrees⟩ := coherent
  exact ⟨held_step held move, counted_step held counted move, ranked_step held counted ranked move,
    chosen_step held counted chosen move, ready_step counted ready move,
    agrees_step held counted ranked chosen ready agrees move⟩

/-- Every run keeps the cache coherent with the store that its steps leave behind. -/
theorem coherent_run (data : BufIndex → Data) (disk : Uint → Data)
    {trace : List (Bcache Data × BioEvent Data)} {s : Bcache Data}
    (run : Run Bcache.Step (Bcache.boot data disk) trace s) : Coherent (observed disk trace) s := by
  induction run with
  | refl => exact coherent_boot data disk
  | tail _ stepped ih =>
      have next := coherent_step ih stepped
      rw [observed, List.foldl_append]
      exact next

/-- The buffer that `bread` returns in the next step of a process. -/
def breadResult (s : Bcache Data) (t : Slot) : Option (BufIndex × BlockKey) :=
  match s.pc t with
  | .fill b key => if (s.buf b).valid then some (b, key) else none
  | .filled b key => some (b, key)
  | _ => none

/-- In a coherent state `bread` returns a locked buffer of its block, with the data of the store. -/
theorem Coherent.bread {store : BlockStore Data} {s : Bcache Data} (coherent : Coherent store s) {t : Slot}
    {b : BufIndex} {key : BlockKey} (result : breadResult s t = some (b, key)) :
    (s.buf b).key = key ∧ (s.buf b).lock = some t ∧ (s.buf b).data = store.lookup key := by
  have found (asks : chose b key (s.pc t)) (within : inside b (s.pc t)) (full : Loaded s b) :
      (s.buf b).key = key ∧ (s.buf b).lock = some t ∧ (s.buf b).data = store.lookup key := by
    have own := coherent.chosen t b key asks
    have known := coherent.agrees.data b full
    rw [own] at known
    exact ⟨own, coherent.held t b within, by rw [BlockStore.lookup, known, Option.getD_some]⟩
  unfold breadResult at result
  cases position : s.pc t <;> simp only [position] at result found
  case fill c k =>
    split_ifs at result with valid
    cases result
    exact found ⟨rfl, rfl⟩ rfl (.inl valid)
  case filled c k =>
    cases result
    exact found ⟨rfl, rfl⟩ rfl (.inr ⟨t, by rw [position]; rfl⟩)
  all_goals cases result

/-- A step gives a new block only to a buffer without references. -/
theorem key_of_step {s u : Bcache Data} {event : BioEvent Data} (stepped : s.Step event u) {b : BufIndex}
    (used : (s.buf b).refcnt ≠ 0) : (u.buf b).key = (s.buf b).key := by
  have kept {c : BufIndex} {buf : Buf Data} (same : buf.key = (s.buf c).key) :
      ((s.setBuf c buf).buf b).key = (s.buf b).key := by
    by_cases here : b = c
    · rw [here] at *
      simpa using same
    · simp [here]
  cases move_next stepped with
  | recycle t key c position missing found =>
      have other : b ≠ c := by
        rintro rfl
        exact used (unused_zero found)
      simp [other]
  | drop t c position =>
      rw [drop_buf]
      by_cases here : b = c <;> simp [here]
  | store t c data idle locked => exact kept rfl
  | pin t c locked room => exact kept rfl
  | unpin t c pinned => exact kept rfl
  | hit t key c position found => exact kept rfl
  | lock t c key position free => exact kept rfl
  | load t c key position invalid => exact kept rfl
  | loaded t c key position => exact kept rfl
  | unlock t c position => exact kept rfl
  | _ => rfl

/-- In every run the list holds every buffer once and its pointers undo each other, at most one buffer has any
block of a device other than zero, the counts are exact, a buffer with references keeps its block, and
`bread` returns its block locked, with the data last stored in its buffer while it stayed cached and otherwise
the data last written to the disk. -/
theorem buffer_cache_coherent (data : BufIndex → Data) (disk : Uint → Data)
    {trace : List (Bcache Data × BioEvent Data)} {s : Bcache Data}
    (run : Run Bcache.Step (Bcache.boot data disk) trace s) :
    (∃ order : List BufIndex, order.Nodup ∧ (∀ b, b ∈ order) ∧ s.list.Represents order) ∧
      (∀ node, s.list.prev (s.list.next node) = node ∧ s.list.next (s.list.prev node) = node) ∧
      (∀ a b, a ≠ b → (s.buf a).key = (s.buf b).key → (s.buf a).key.1 = 0) ∧
      (∀ b, (s.buf b).refcnt.toNat = holders s b + waiters s b + s.pins b) ∧
      (∀ event u, s.Step event u → ∀ b, (s.buf b).refcnt ≠ 0 → (u.buf b).key = (s.buf b).key) ∧
      (∀ t b key, breadResult s t = some (b, key) →
        (s.buf b).key = key ∧ (s.buf b).lock = some t ∧
          (s.buf b).data = (observed disk trace).lookup key) ∧
      s.disk = (observed disk trace).disk := by
  have coherent := coherent_run data disk run
  obtain ⟨order, ranked⟩ := coherent.ranked
  refine ⟨⟨order, ranked.nodup, ranked.all, ranked.represents⟩, ?_, ?_, ?_, ?_, ?_, coherent.agrees.disk⟩
  · exact fun node => ranked.represents.inverse fun b _ => ranked.all b
  · intro a b different same
    rcases ranked.pristine different same with pristine | pristine
    · rw [pristine.2.1]
    · rw [same, pristine.2.1]
  · intro b
    rw [(coherent.counted b).1, refs_eq]
  · exact fun event u stepped b used => key_of_step stepped used
  · exact fun t b key result => coherent.bread result

/-- Process zero reads block five, stores a seven, releases the buffer, and reads the block again. -/
def rereads : List (BioEvent Nat) :=
  [.read 0 (1, 5), .step 0, .step 0, .step 0, .step 0, .store 0 0 7, .release 0 0, .step 0, .step 0,
    .read 0 (1, 5), .step 0, .step 0]

/-- The state after a list of events on a disk of zeros. -/
def bioState (events : List (BioEvent Nat)) : Bcache Nat :=
  events.foldl (computed Bcache.next) (Bcache.boot (fun _ => 0) fun _ => 0)

/-- A process that reads a block again gets what it stored there. -/
theorem buffer_cache_rereads :
    Run Bcache.Step (Bcache.boot (fun _ => 0) fun _ => 0)
        (entries (computed Bcache.next) (Bcache.boot (fun _ => 0) fun _ => 0) rereads) (bioState rereads) ∧
      breadResult (bioState rereads) 0 = some (0, (1, 5)) ∧
      ((bioState rereads).buf 0).data = (observed (fun _ => 0)
        (entries (computed Bcache.next) (Bcache.boot (fun _ => 0) fun _ => 0) rereads)).lookup (1, 5) ∧
      ((bioState rereads).buf 0).data = 7 := by
  have run : Run Bcache.Step (Bcache.boot (fun _ => 0) fun _ => 0)
      (entries (computed Bcache.next) (Bcache.boot (fun _ => 0) fun _ => 0) rereads) (bioState rereads) :=
    run_computed (by decide +kernel)
  have result : breadResult (bioState rereads) 0 = some (0, (1, 5)) := by decide +kernel
  have theorems := (buffer_cache_coherent (fun _ => 0) (fun _ => 0) run).2.2.2.2.2.1 0 0 (1, 5) result
  exact ⟨run, result, theorems.2.2, by decide +kernel⟩

end Xv6.Bio
