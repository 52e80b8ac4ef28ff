/-
This file compares the copies between the kernel and a user, which go page by page, with copies that go byte by byte.
-/

import Xv6.Proof.Vm.Copyout

namespace Xv6.Copyout

theorem neZero_page : NeZero 4096 := ⟨by decide⟩

/-- The byte at one user address. -/
def userByte (pagetable : Page) (ram : Ram) (va : Uint64) : Option Byte :=
  (walkaddr pagetable (pgrounddown va) ram).map fun page => ram.byte page (@Fin.ofNat 4096 neZero_page va.toNat)

/-- The bytes at some user addresses, one after another. -/
def bytesAt (pagetable : Page) (ram : Ram) : Nat → Uint64 → Option (List Byte)
  | 0, _ => some []
  | len + 1, va => (userByte pagetable ram va).bind fun byte => (bytesAt pagetable ram len (va + 1)).map (byte :: ·)

/-- The bytes of a string at user addresses, up to a zero among the first `max` of them. -/
def stringAt (pagetable : Page) (ram : Ram) : Nat → Uint64 → Option (List Byte)
  | 0, _ => none
  | max + 1, va => (userByte pagetable ram va).bind fun byte =>
      if byte = 0 then some [] else (stringAt pagetable ram max (va + 1)).map (byte :: ·)

section Reading

variable {pagetable page : Page} {ram : Ram} {va : Uint64} {n len rounds : Nat}

theorem add_ofNat_succ (va : Uint64) (n : Nat) : va + BitVec.ofNat 64 (n + 1) = va + 1 + BitVec.ofNat 64 n := by
  rw [Nat.add_comm, BitVec.ofNat_add, BitVec.add_assoc]
  rfl

theorem bytesAt_append {front : List Byte} (m : Nat) (read : bytesAt pagetable ram n va = some front) :
    bytesAt pagetable ram (n + m) va = (bytesAt pagetable ram m (va + BitVec.ofNat 64 n)).map (front ++ ·) := by
  induction n generalizing va front with
  | zero =>
      cases read
      simp
  | succ n ih =>
      obtain ⟨byte, here, rest⟩ := Option.bind_eq_some_iff.mp read
      obtain ⟨tail, after, rfl⟩ := Option.map_eq_some_iff.mp rest
      rw [Nat.succ_add, bytesAt, here, Option.bind_some, ih after, add_ofNat_succ, Option.map_map]
      rfl

/-- A string ends in the bytes that are there, or goes on behind them. -/
theorem stringAt_append {front : List Byte} (m : Nat) (read : bytesAt pagetable ram n va = some front) :
    stringAt pagetable ram (n + m) va = if 0 ∈ front then some (front.takeWhile (· ≠ 0))
      else (stringAt pagetable ram m (va + BitVec.ofNat 64 n)).map (front ++ ·) := by
  induction n generalizing va front with
  | zero =>
      cases read
      simp
  | succ n ih =>
      obtain ⟨byte, here, rest⟩ := Option.bind_eq_some_iff.mp read
      obtain ⟨tail, after, rfl⟩ := Option.map_eq_some_iff.mp rest
      rw [Nat.succ_add, stringAt, here, Option.bind_some, ih after, add_ofNat_succ]
      by_cases zero : byte = 0
      · simp [zero]
      · have member : 0 ∈ byte :: tail ↔ 0 ∈ tail := by
          rw [List.mem_cons]
          exact or_iff_right (Ne.symm zero)
        simp only [zero, if_false, member, List.takeWhile_cons, ne_eq, not_false_eq_true, decide_true]
        split_ifs
        · rfl
        · rw [Option.map_map]
          rfl

/-- Single bytes make up the bytes of a range. -/
theorem bytesAt_eq {bytes : List Byte}
    (found : ∀ k < bytes.length, userByte pagetable ram (va + BitVec.ofNat 64 k) = bytes[k]?) :
    bytesAt pagetable ram bytes.length va = some bytes := by
  induction bytes generalizing va with
  | nil => rfl
  | cons byte rest ih =>
      have first := found 0 (Nat.succ_pos _)
      rw [BitVec.add_zero] at first
      have tail := @ih (va + 1) fun k inside => by
        rw [← add_ofNat_succ]
        exact found (k + 1) (Nat.succ_lt_succ inside)
      rw [List.length_cons, bytesAt, first, tail]
      rfl

/-- Inside one page the bytes at the addresses are the bytes of the page. -/
theorem bytesAt_page (found : walkaddr pagetable (pgrounddown va) ram = some page)
    (room : va.toNat % 4096 + n ≤ 4096) : bytesAt pagetable ram n va = some (ram.read page (va.toNat % 4096) n) := by
  have length : (ram.read page (va.toNat % 4096) n).length = n := by simp [Ram.read]
  have whole := @bytesAt_eq pagetable ram va (ram.read page (va.toNat % 4096) n) fun k inside => by
    rw [length] at inside
    obtain ⟨same, offset⟩ := @add_page va k (Nat.lt_of_lt_of_le (Nat.add_lt_add_left inside _) room)
    have place : Fin.ofNat 4096 (va + BitVec.ofNat 64 k).toNat = Fin.ofNat 4096 (va.toNat % 4096 + k) := by
      apply Fin.ext
      rw [Fin.val_ofNat, Fin.val_ofNat, offset]
      omega
    rw [userByte, same, found, place]
    simp [Ram.read, inside]
  rwa [length] at whole

/-- A round that does not reach the end of its page is the last one. -/
theorem next_round (size : min (4096 - (va - pgrounddown va).toNat) len = n) :
    len - n = 0 ∨ pgrounddown va + pgsize = va + BitVec.ofNat 64 n := by
  by_cases last : len - n = 0
  · exact .inl last
  · refine .inr ?_
    rw [next_page, show 4096 - (va - pgrounddown va).toNat = n by omega]

/-- A loop that goes page by page agrees with a reader of single bytes that joins its results in the same way. -/
theorem pagewise_eq {loop : Nat → Uint64 → Nat → Option (List Byte)} {reader : Nat → Uint64 → Option (List Byte)}
    (join : List Byte → Option (List Byte) → Option (List Byte))
    (nothing : ∀ rounds va va', loop rounds va 0 = reader 0 va')
    (page : ∀ rounds va len, loop (rounds + 1) va (len + 1) =
      (walkaddr pagetable (pgrounddown va) ram).bind fun pa0 =>
        let n := min (4096 - (va - pgrounddown va).toNat) (len + 1)
        join (ram.read pa0 (va - pgrounddown va).toNat n) (loop rounds (pgrounddown va + pgsize) (len + 1 - n)))
    (fails : ∀ len va, userByte pagetable ram va = none → reader (len + 1) va = none)
    (joins : ∀ n m va front, bytesAt pagetable ram n va = some front →
      reader (n + m) va = join front (reader m (va + BitVec.ofNat 64 n)))
    (enough : len ≤ rounds) : loop rounds va len = reader len va := by
  induction rounds generalizing va len with
  | zero =>
      obtain rfl := Nat.le_zero.mp enough
      exact nothing 0 va va
  | succ rounds ih =>
      cases len with
      | zero => exact nothing _ va va
      | succ len =>
          have offset := offset_toNat va
          rw [page]
          cases found : walkaddr pagetable (pgrounddown va) ram with
          | none => exact (fails len va (by rw [userByte, found]; rfl)).symm
          | some pa0 =>
              rw [Option.bind_some]
              dsimp only
              generalize size : min (4096 - (va - pgrounddown va).toNat) (len + 1) = n
              have whole : len + 1 = n + (len + 1 - n) := by omega
              conv_rhs => rw [whole, joins n _ va _ (bytesAt_page found (by omega))]
              rw [offset]
              rcases next_round size with last | next
              · rw [last, nothing]
              · rw [ih (by omega), next]

end Reading

theorem copyin_eq (pagetable : Page) (ram : Ram) (va : Uint64) (len : Nat) :
    copyin pagetable va len ram = bytesAt pagetable ram len va :=
  pagewise_eq (fun front rest => rest.map (front ++ ·)) (fun rounds _ _ => by cases rounds <;> rfl)
    (fun _ _ _ => rfl) (fun _ _ missing => by rw [bytesAt, missing]; rfl)
    (fun _ m _ _ read => bytesAt_append m read) le_rfl

/-- `copyin` and `copyinstr` return what a reader of single bytes finds, for all addresses and lengths. In particular
they fail exactly where such a reader does. -/
theorem copies_read_bytes (pagetable : Page) (ram : Ram) (va : Uint64) (len : Nat) :
    copyin pagetable va len ram = bytesAt pagetable ram len va ∧
      copyinstr pagetable va len ram = stringAt pagetable ram len va :=
  ⟨copyin_eq pagetable ram va len, pagewise_eq
    (fun front rest => if 0 ∈ front then some (front.takeWhile (· ≠ 0)) else rest.map (front ++ ·))
    (fun rounds _ _ => by cases rounds <;> rfl) (fun _ _ _ => rfl)
    (fun _ _ missing => by rw [stringAt, missing]; rfl) (fun _ m _ _ read => stringAt_append m read) le_rfl⟩

section Writing

variable {pagetable page : Page} {ram after : Ram} {va : Uint64} {bytes src : List Byte}

theorem byteOf_joinBytes (bytes : Fin 8 → Byte) (j : Fin 8) : byteOf (joinBytes bytes) j = bytes j := by
  have small : ∀ i, (bytes i).toNat < 256 := fun i => (bytes i).isLt
  simp only [Fin.forall_fin_succ] at small
  apply BitVec.eq_of_toNat_eq
  unfold byteOf joinBytes
  rw [BitVec.toNat_ofNat, BitVec.toNat_ofNat]
  fin_cases j <;> simp at small ⊢ <;> omega

/-- A write changes the bytes from its offset on. -/
theorem byte_write (offset : Nat) (k : Fin 4096) : (ram.write page offset bytes).byte page k =
    if offset ≤ k.val then (bytes[k.val - offset]?).getD (ram.byte page k) else ram.byte page k := by
  have position : 8 * (k.val / 8) + k.val % 8 = k.val := Nat.div_add_mod _ _
  unfold Ram.byte Ram.write
  simp only [if_true, byteOf_joinBytes, position]

/-- Pages that are different have different frames. -/
theorem Distinct.rounded (distinct : Distinct pagetable ram) {va va' : Uint64}
    (found : walkaddr pagetable (pgrounddown va) ram = some page)
    (found' : walkaddr pagetable (pgrounddown va') ram = some page) : pgrounddown va' = pgrounddown va := by
  have below {va : Uint64} (found : walkaddr pagetable va ram = some page) : va < maxva := by
    rw [walkaddr_eq] at found
    split_ifs at found with high
    exact BitVec.not_le.mp high
  obtain ⟨pte, leaf, valid, _, frame⟩ := walkaddr_some found
  obtain ⟨pte', leaf', valid', _, frame'⟩ := walkaddr_some found'
  have same : SamePage (pgrounddown va') (pgrounddown va) :=
    distinct _ _ _ _ (below found') (below found) leaf' leaf valid' valid (frame'.trans frame.symm)
  have twice (va : Uint64) : pgrounddown (pgrounddown va) = pgrounddown va := by
    apply BitVec.eq_of_toNat_eq
    rw [pgrounddown_toNat, pgrounddown_toNat]
    omega
  rw [← twice va, ← twice va', pgrounddown_eq (pgrounddown va), pgrounddown_eq (pgrounddown va'), same]

/-- The user bytes after a copy of the first bytes of a list to the addresses from `va` on. -/
def Copied (pagetable : Page) (ram after : Ram) (va : Uint64) (src : List Byte) (count : Nat) : Prop :=
  ∀ va', userByte pagetable after va' =
    if (va' - va).toNat < count then src[(va' - va).toNat]? else userByte pagetable ram va'

/-- A write into the page of an address changes the bytes from this address on. -/
theorem copied_write (separate : Separate pagetable ram) (distinct : Distinct pagetable ram)
    (found : walkaddr pagetable (pgrounddown va) ram = some page) {count : Nat} (fits : count ≤ src.length)
    (room : va.toNat % 4096 + count ≤ 4096) :
    Copied pagetable ram (ram.write page (va.toNat % 4096) (src.take count)) va src count := by
  intro va'
  have same := sameTable_write separate found (va.toNat % 4096) (src.take count)
  have small := va.isLt
  have small' := va'.isLt
  have down := pgrounddown_toNat va
  have down' := pgrounddown_toNat va'
  have difference : (va' - va).toNat = (2 ^ 64 - va.toNat + va'.toNat) % 2 ^ 64 := BitVec.toNat_sub ..
  unfold userByte
  rw [same.walkaddr]
  by_cases here : pgrounddown va' = pgrounddown va
  · rw [here] at down'
    rw [here, found, Option.map_some, Option.map_some, byte_write, Fin.val_ofNat, List.getElem?_take]
    by_cases inside : (va' - va).toNat < count
    · have offset : va'.toNat % 4096 - va.toNat % 4096 = (va' - va).toNat := by omega
      rw [if_pos inside, if_pos (by omega), offset, if_pos inside, List.getElem?_eq_getElem (by omega)]
      rfl
    · rw [if_neg inside]
      split_ifs
      · omega
      · rfl
      · rfl
  · have outside : ¬ (va' - va).toNat < count := by
      intro inside
      apply here
      apply BitVec.eq_of_toNat_eq
      omega
    rw [if_neg outside]
    cases found' : walkaddr pagetable (pgrounddown va') ram with
    | none => rfl
    | some other =>
        have different : other ≠ page := by
          rintro rfl
          exact here (distinct.rounded found found')
        unfold Ram.byte Ram.write
        simp only [Option.map_some, if_neg different]

/-- The copy of a list stops only at the end of the list or at an address that the user cannot read. -/
structure Stored (pagetable : Page) (ram after : Ram) (va : Uint64) (src : List Byte) (count : Nat) : Prop where
  fits : count ≤ src.length
  copied : Copied pagetable ram after va src count
  stopped : count < src.length → userByte pagetable ram (va + BitVec.ofNat 64 count) = none

theorem Stored.zero (stopped : src ≠ [] → userByte pagetable ram va = none) : Stored pagetable ram ram va src 0 :=
  ⟨Nat.zero_le _, fun _ => (if_neg (Nat.not_lt_zero _)).symm,
    fun more => by simpa using stopped (List.length_pos_iff.mp more)⟩

/-- A copy that goes on after its first bytes. -/
theorem Stored.append {middle : Ram} {n count : Nat} (small : src.length < 2 ^ 64) (fits : n ≤ src.length)
    (same : SameTable pagetable ram middle) (first : Copied pagetable ram middle va src n)
    (rest : Stored pagetable middle after (va + BitVec.ofNat 64 n) (src.drop n) count) :
    Stored pagetable ram after va src (n + count) := by
  have length := rest.fits
  rw [List.length_drop] at length
  refine ⟨by omega, fun va' => ?_, fun more => ?_⟩
  · have low := va'.isLt
    have low' := va.isLt
    have whole : (va' - va).toNat = (2 ^ 64 - va.toNat + va'.toNat) % 2 ^ 64 := BitVec.toNat_sub ..
    have shifted : (va' - (va + BitVec.ofNat 64 n)).toNat =
        (2 ^ 64 - (va.toNat + n % 2 ^ 64) % 2 ^ 64 + va'.toNat) % 2 ^ 64 := by
      rw [BitVec.toNat_sub, BitVec.toNat_add, BitVec.toNat_ofNat]
    rw [rest.copied, first, List.getElem?_drop]
    by_cases inside : (va' - va).toNat < n
    · rw [if_neg (by omega), if_pos inside, if_pos (by omega)]
    · have position : n + (va' - (va + BitVec.ofNat 64 n)).toNat = (va' - va).toNat := by omega
      rw [position, if_neg inside]
      by_cases behind : (va' - va).toNat < n + count
      · rw [if_pos behind, if_pos (by omega)]
      · rw [if_neg behind, if_neg (by omega)]
  · have stopped := rest.stopped (by rw [List.length_drop]; omega)
    rw [BitVec.add_assoc, ← BitVec.ofNat_add] at stopped
    unfold userByte at stopped ⊢
    rw [Option.map_eq_none_iff] at stopped ⊢
    rw [← same.walkaddr]
    exact stopped

theorem Distinct.kept (distinct : Distinct pagetable ram) (same : SameTable pagetable ram after) :
    Distinct pagetable after := by
  intro va va' pte pte' low low' leaf leaf'
  rw [(same _).1] at leaf leaf'
  exact distinct va va' pte pte' low low' leaf leaf'

theorem copyoutLoop_stores {rounds : Nat} (separate : Separate pagetable ram) (distinct : Distinct pagetable ram)
    (small : src.length < 2 ^ 64) (enough : src.length ≤ rounds) :
    ∃ count, Stored pagetable ram (copyoutLoop pagetable rounds va src ram).2 va src count ∧
      ((copyoutLoop pagetable rounds va src ram).1 = true ↔ count = src.length) := by
  induction rounds generalizing va src ram with
  | zero =>
      obtain rfl := List.eq_nil_of_length_eq_zero (Nat.le_zero.mp enough)
      exact ⟨0, .zero fun more => absurd rfl more, by simp [copyoutLoop]⟩
  | succ rounds ih =>
      by_cases more : src = []
      · subst more
        rw [copyoutLoop_nil]
        exact ⟨0, .zero fun more => absurd rfl more, by simp⟩
      have length := List.length_pos_iff.mpr more
      rw [copyoutLoop_succ more]
      cases found : walkaddr pagetable (pgrounddown va) ram with
      | none => exact ⟨0, .zero fun _ => by rw [userByte, found]; rfl, by simp; omega⟩
      | some pa0 =>
          have positive := chunk_pos va more
          have offset := offset_toNat va
          have fits : chunk va src ≤ src.length := Nat.min_le_right _ _
          have rest : (src.drop (chunk va src)).length = src.length - chunk va src := List.length_drop ..
          have same := sameTable_write separate found (va.toNat % 4096) (src.take (chunk va src))
          have first := copied_write separate distinct found fits (by unfold chunk; omega)
          dsimp only
          rw [offset]
          rcases @next_round va (chunk va src) src.length rfl with last | next
          · have empty := List.eq_nil_of_length_eq_zero (rest.trans last)
            rw [empty, copyoutLoop_nil]
            exact ⟨chunk va src + 0, Stored.append small fits same first (.zero fun more => absurd empty more),
              by simp; omega⟩
          · rw [next]
            obtain ⟨count, stored, done⟩ := @ih _ (va + BitVec.ofNat 64 (chunk va src)) (src.drop (chunk va src))
              (same.separate separate) (distinct.kept same) (by omega) (by omega)
            exact ⟨chunk va src + count, stored.append small fits same first, done.trans (by omega)⟩

/-- The bytes that a copy has stored are there. -/
theorem Stored.read (stored : Stored pagetable ram after va bytes bytes.length)
    (small : bytes.length < 2 ^ 64) : bytesAt pagetable after bytes.length va = some bytes := by
  refine bytesAt_eq fun k inside => ?_
  have position : (va + BitVec.ofNat 64 k - va).toNat = k := by
    rw [BitVec.add_comm, BitVec.add_sub_cancel, BitVec.toNat_ofNat]
    exact Nat.mod_eq_of_lt (Nat.lt_trans inside small)
  rw [stored.copied, position, if_pos inside]

end Writing

/-- In a page table whose pages are all different, `copyout` stores the first bytes of its source and changes no other
user byte. It stops early only at an address that the user cannot read, and then it fails. After a success `copyin`
returns the source. -/
theorem copyout_stores_bytes {pagetable : Page} {ram : Ram} (separate : Separate pagetable ram)
    (distinct : Distinct pagetable ram) {src : List Byte} (small : src.length < 2 ^ 64) (dstva : Uint64) :
    (∃ count, Stored pagetable ram (copyout pagetable dstva src ram).2 dstva src count ∧
      ((copyout pagetable dstva src ram).1 = true ↔ count = src.length)) ∧
    ((copyout pagetable dstva src ram).1 = true →
      copyin pagetable dstva src.length (copyout pagetable dstva src ram).2 = some src) := by
  obtain ⟨count, stored, done⟩ := @copyoutLoop_stores _ _ dstva _ _ separate distinct small le_rfl
  refine ⟨⟨count, stored, done⟩, fun succeeded => ?_⟩
  obtain rfl := done.mp succeeded
  exact (copyin_eq ..).trans (stored.read small)

/-- Two bytes go to the data page of the small program and come back. -/
theorem copyout_stores_data : copyin 1 4096 2 (copyout 1 4096 [7, 8] smallRam).2 = some [7, 8] :=
  (@copyout_stores_bytes 1 smallRam small_separate small_distinct [7, 8] (by decide) 4096).2 (by decide +kernel)

end Xv6.Copyout
