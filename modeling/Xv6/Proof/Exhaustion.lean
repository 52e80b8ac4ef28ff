/-
This file shows when the buffer cache and the inode table have room, and that ordinary calls can fill them.
-/

import Xv6.Proof.Bio.Content
import Xv6.Proof.Inode.Orphan

namespace Xv6.Exhaustion
open TransitionSystem

section Buffers

variable {Data : Type}

/-- The references to buffers: those of processes that hold, wait for or release a buffer, and the pins. -/
def outstanding (s : Bcache Data) : Nat := ∑ b, Bio.refs s b

/-- When `bget` runs, fewer references are outstanding than there are buffers. -/
def BufferRoom (s : Bcache Data) : BioEvent Data → Prop
  | .step t => ∀ key, s.pc t = .get key → outstanding s < nbuf
  | _ => True

variable {s u : Bcache Data} {event : BioEvent Data}

/-- With fewer references than buffers some buffer has none. -/
theorem unused_of_room (coherent : ∃ order, Bio.Ranked s order) (counted : Bio.Counted s)
    (room : outstanding s < nbuf) : s.unused ≠ none := by
  obtain ⟨order, ranked⟩ := coherent
  rw [ranked.unused]
  intro missing
  have each (b : BufIndex) : 1 ≤ Bio.refs s b := by
    have used := List.find?_eq_none.mp missing b (List.mem_reverse.mpr (ranked.all b))
    have positive : (s.buf b).refcnt ≠ 0 := by simpa using used
    have count := (counted b).1
    rw [← count, Nat.one_le_iff_ne_zero]
    exact fun zero => positive (BitVec.eq_of_toNat_eq zero)
  have total := Tally.card_le_sum (Bio.refs s) each
  rw [Fintype.card_fin] at total
  unfold outstanding at room
  omega

theorem bget_step (coherent : ∃ order, Bio.Ranked s order) (counted : Bio.Counted s) (room : BufferRoom s event)
    (move : Bio.Move s event u) (calm : s.panic ≠ some .bget) : u.panic ≠ some .bget := by
  cases move with
  | full t key position missing none => exact absurd none (unused_of_room coherent counted (room key position))
  | badWrite t b unheld => nofun
  | badRelease t b unheld => nofun
  | drop t b position =>
      unfold Bcache.drop
      dsimp only
      split_ifs <;> exact calm
  | _ => exact calm

end Buffers

section Inodes

variable {s u : Itable} {event : InodeEvent}

/-- The references to inodes: current directories, open files and variables of calls. -/
def referenced (s : Itable) : Nat := Fintype.card { r // (s.held r).isSome }

/-- When `iget` runs, fewer references are outstanding than the table has entries. -/
def InodeRoom (s : Itable) : InodeEvent → Prop
  | .lookup _ _ _ => referenced s < ninode
  | .step t => ∀ key r, s.pc t = .get key r → referenced s < ninode
  | _ => True

/-- With fewer references than entries some entry has none. -/
theorem free_of_room (counted : Inodes.Counted s) (room : referenced s < ninode) :
    ∃ e, (s.inode e).ref = 0 := by
  by_contra full
  have held (e : InodeIndex) : ∃ r, s.held r = some e :=
    counted.exists_held (Nat.pos_of_ne_zero fun zero => full ⟨e, zero⟩)
  choose place placed using held
  have injective : Function.Injective fun e => (⟨place e, by rw [placed e]; rfl⟩ : { r // (s.held r).isSome }) := by
    intro e c same
    have places := congrArg Subtype.val same
    have both := placed e
    rw [show place e = place c from places, placed c] at both
    exact (Option.some.inj both).symm
  have size := Fintype.card_le_of_injective _ injective
  rw [Fintype.card_fin] at size
  unfold referenced at room
  omega

theorem iget_step (good : Inodes.Consistent s) (room : InodeRoom s event) (move : Inodes.Move s event u)
    (calm : s.panic ≠ some .iget) : u.panic ≠ some .iget := by
  cases move with
  | full event t key r asks full =>
      have few : referenced s < ninode := by
        rcases asks with rfl | ⟨rfl, position⟩
        · exact room
        · exact room key r position
      obtain ⟨e, zero⟩ := free_of_room good.counted few
      have used := (full e).1
      omega
  | load t new r e panic position invalid same =>
      have typed := (good.entry e).live r (good.wired.call t _ r e position)
        (good.wired.stays position ⟨nofun, nofun⟩)
      rw [same typed]
      exact calm
  | _ => exact calm

end Inodes

/-- `bget` finds a buffer and `iget` an entry in every run in which, whenever they run, fewer references are
outstanding than there are buffers or entries. -/
theorem caches_have_room {Data : Type} (data : BufIndex → Data) (blocks : Uint → Data)
    (trace : List (Bcache Data × BioEvent Data)) (s : Bcache Data)
    (run : Run Bcache.Step (Bcache.boot data blocks) trace s) (buffers : ∀ entry ∈ trace, BufferRoom entry.1 entry.2)
    (ninodes : Nat) (disk : InodeKey → Dinode) (calls : List (Itable × InodeEvent)) (u : Itable)
    (calling : Run (Itable.Step · ninodes) (Itable.boot disk) calls u)
    (entries : ∀ entry ∈ calls, InodeRoom entry.1 entry.2) : s.panic ≠ some .bget ∧ u.panic ≠ some .iget := by
  constructor
  · clear calling entries
    induction run with
    | refl => nofun
    | tail before stepped ih =>
        have coherent := Bio.coherent_run data blocks before
        have here := buffers _ (List.mem_append_right _ (List.mem_singleton_self _))
        have calm := ih fun entry inside => buffers entry (List.mem_append_left _ inside)
        exact bget_step coherent.ranked coherent.counted here (Bio.move_next stepped) calm
  · clear run buffers
    induction calling with
    | refl => nofun
    | tail before stepped ih =>
        have here := entries _ (List.mem_append_right _ (List.mem_singleton_self _))
        have calm := ih fun entry inside => entries entry (List.mem_append_left _ inside)
        exact iget_step (Inodes.consistent_run before) here (Inodes.move_next stepped) calm

section Runs

/-- Thirty-one processes read different blocks, and each waits for the disk. -/
def bread31 : List (BioEvent Nat) :=
  (List.range 31).flatMap fun i =>
    [.read (Fin.ofNat _ i) (1, BitVec.ofNat 32 (i + 100)), .step (Fin.ofNat _ i)]

/-- A disk on which every inode is a file with one link. -/
def linkedDisk : InodeKey → Dinode := fun _ => { Dinode.zero with type := 2, nlink := 1 }

/-- The inode of an open file. -/
def fileReference (i : Nat) : Reference := Fin.ofNat _ (nproc + i)

def fileKey (i : Nat) : InodeKey := (1, BitVec.ofNat 32 (i + 1))

/-- Each process opens sixteen files. -/
def opensFile (i : Nat) : InodeEvent := .lookup (Fin.ofNat _ (i / 16)) (fileKey i) (fileReference i)

/-- The first files are open and every process is between two calls. -/
structure Opened (k : Nat) (s : Itable) : Prop where
  idle : ∀ t, s.pc t = .idle
  calm : s.panic = none
  free : ∀ e, (s.inode e).lock = none
  disk : s.disk = linkedDisk
  held : ∀ i < k, ∃ e, s.held (fileReference i) = some e ∧ 0 < (s.inode e).ref ∧ (s.inode e).key = fileKey i
  closed : ∀ i < nfile, k ≤ i → s.held (fileReference i) = none

theorem fileReference_inj {i j : Nat} (small : i < nfile) (small' : j < nfile)
    (same : fileReference i = fileReference j) : i = j := by
  have values := congrArg Fin.val same
  simp only [fileReference, Fin.ofNat, nproc, nfile] at values small small'
  omega

theorem fileKey_inj {i j : Nat} (small : i < nfile) (small' : j < nfile) (same : fileKey i = fileKey j) :
    i = j := by
  have values := congrArg (fun key : InodeKey => key.2.toNat) same
  simp only [fileKey, BitVec.toNat_ofNat, nfile] at values small small'
  omega

theorem opened_boot : Opened 0 (Itable.boot linkedDisk) :=
  ⟨fun _ => rfl, rfl, fun _ => rfl, rfl, nofun, fun _ _ _ => rfl⟩

/-- Opening one more file fills an entry or stops the kernel. -/
theorem opened_step {k ninodes : Nat} {s : Itable} (opened : Opened k s) (small : k < nfile) :
    ∃ u, s.Step ninodes (opensFile k) u ∧ (u.panic = some .iget ∨ Opened (k + 1) u) := by
  have unused : ¬ s.inUse (fileReference k) := by
    rintro (⟨t, uses⟩ | ⟨e, t, locked⟩)
    · rw [opened.idle t] at uses
      cases uses
    · rw [opened.free e] at locked
      cases locked
  have named : s.Named (Fin.ofNat _ (k / 16)) (fileKey k) := by
    left
    rw [opened.disk]
    exact ⟨by unfold linkedDisk; decide, by unfold linkedDisk; decide⟩
  have legal : s.panic = none ∧ s.pc (Fin.ofNat _ (k / 16)) = .idle ∧ s.held (fileReference k) = none ∧
      ¬ s.inUse (fileReference k) ∧ s.Named (Fin.ofNat _ (k / 16)) (fileKey k) :=
    ⟨opened.calm, opened.idle _, opened.closed k small (Nat.le_refl k), unused, named⟩
  refine ⟨s.iget (Fin.ofNat _ (k / 16)) (fileKey k) (fileReference k) fun _ => .idle, ?_, ?_⟩
  · simp only [Itable.Step, opensFile, Itable.next, if_pos legal]
  rcases Inodes.iget_cases (s := s) (Fin.ofNat _ (k / 16)) (fileKey k) (fileReference k) fun _ => .idle with
    ⟨e, ip, gets, same⟩ | ⟨_, same⟩
  · right
    rw [same]
    have own : ip.key = fileKey k ∧ 0 < ip.ref ∧ ip.lock = none := by
      cases gets with
      | hit used found => exact ⟨found, Nat.succ_pos _, opened.free e⟩
      | new missing zero => exact ⟨rfl, Nat.one_pos, opened.free e⟩
    refine ⟨?_, opened.calm, ?_, opened.disk, ?_, ?_⟩
    · intro t
      simp [opened.idle t]
    · intro c
      simp only [Inodes.goto_inode, Inodes.setHeld_inode, Inodes.setInode_inode]
      split_ifs
      · exact own.2.2
      · exact opened.free c
    · intro i below
      simp only [Inodes.goto_held, Inodes.goto_inode, Inodes.setHeld_held, Inodes.setHeld_inode,
        Inodes.setInode_inode, Inodes.setInode_held]
      by_cases last : i = k
      · subst last
        exact ⟨e, by rw [if_pos rfl], by rw [if_pos rfl]; exact own.2.1, by rw [if_pos rfl]; exact own.1⟩
      · have earlier : i < k := by omega
        obtain ⟨c, held, used, key⟩ := opened.held i earlier
        have apart : c ≠ e := by
          rintro rfl
          cases gets with
          | hit _ found => exact last (fileKey_inj (by omega) small (key.symm.trans found))
          | new missing zero => omega
        refine ⟨c, ?_, by rw [if_neg apart]; exact used, by rw [if_neg apart]; exact key⟩
        rw [if_neg fun same => last (fileReference_inj (by omega) small same), held]
    · intro i below above
      simp only [Inodes.goto_held, Inodes.setHeld_held, Inodes.setInode_held]
      rw [if_neg fun same => ?_, opened.closed i below (by omega)]
      have := fileReference_inj below small same
      omega
  · left
    rw [same]

/-- Fifty-one files do not fit. -/
theorem not_opened {s : Itable} (opened : Opened 51 s) : False := by
  have held (i : Fin 51) := opened.held i i.isLt
  choose entry placed used keys using held
  have injective : Function.Injective entry := by
    intro i j same
    have key : fileKey i = fileKey j := by rw [← keys i, ← keys j, same]
    exact Fin.ext (fileKey_inj (by have := i.isLt; simp only [nfile]; omega)
      (by have := j.isLt; simp only [nfile]; omega) key)
  have size := Fintype.card_le_of_injective entry injective
  rw [Fintype.card_fin, Fintype.card_fin] at size
  exact absurd size (by decide)

theorem opens_run (k : Nat) (small : k ≤ nfile) :
    ∃ trace s, Run (Itable.Step · 200) (Itable.boot linkedDisk) trace s ∧
      (s.panic = some .iget ∨ Opened k s) := by
  induction k with
  | zero => exact ⟨[], _, .refl, .inr opened_boot⟩
  | succ k ih =>
      obtain ⟨trace, s, run, stopped | opened⟩ := ih (by omega)
      · exact ⟨trace, s, run, .inl stopped⟩
      · obtain ⟨u, stepped, after⟩ := opened_step opened (by omega)
        exact ⟨_, u, run.tail stepped, after⟩

/-- Two processes that read blocks get buffers, and two open files get entries. -/
theorem caches_have_room_two :
    (∃ trace s, Run Bcache.Step (Bcache.boot (fun _ => 0) fun _ => 0 : Bcache Nat) trace s ∧
        outstanding s = 2 ∧ s.panic ≠ some .bget) ∧
      ∃ trace s, Run (Itable.Step · 200) (Itable.boot linkedDisk) trace s ∧ referenced s = 2 ∧ s.panic ≠ some .iget := by
  obtain ⟨reading, buffers⟩ := @run_computed_where _ _ Bcache.next (fun s _ => outstanding s < nbuf) _
    [.read 0 (1, 5), .step 0, .read 1 (1, 6), .step 1] (Bcache.boot (fun _ => 0) fun _ => 0) (by decide +kernel)
  obtain ⟨opening, entries⟩ := @run_computed_where _ _ (Itable.next · 200) (fun s _ => referenced s < ninode) _
    [opensFile 0, opensFile 16] (Itable.boot linkedDisk) (by decide +kernel)
  have both := caches_have_room _ _ _ _ reading (fun entry inside => ?_) 200 linkedDisk _ _ opening fun entry inside => ?_
  · exact ⟨⟨_, _, reading, by decide +kernel, both.1⟩, _, _, opening, by decide +kernel, both.2⟩
  · have few := buffers entry inside
    cases event : entry.2 with
    | step t => exact fun _ _ => few
    | _ => trivial
  · have few := entries entry inside
    cases event : entry.2 with
    | lookup t key r => exact few
    | step t => exact fun _ _ _ => few
    | _ => trivial

/-- Thirty-one processes that wait for the disk, and fifty-one open files, stop the kernel. -/
theorem ordinary_load_panics :
    (∃ trace s, Run Bcache.Step (Bcache.boot (fun _ => 0) fun _ => 0 : Bcache Nat) trace s ∧
        s.panic = some .bget) ∧
      ∃ trace s, Run (Itable.Step · 200) (Itable.boot linkedDisk) trace s ∧ s.panic = some .iget := by
  constructor
  · have played : plays (fun s event => (Bcache.next s event).isSome) (computed Bcache.next)
        (Bcache.boot (fun _ => 0) fun _ => 0) bread31 = true := by
      decide +kernel
    exact ⟨_, _, run_computed played, by decide +kernel⟩
  · obtain ⟨trace, s, run, stopped | opened⟩ := opens_run 51 (by decide)
    · exact ⟨trace, s, run, stopped⟩
    · exact (not_opened opened).elim

end Runs

end Xv6.Exhaustion
