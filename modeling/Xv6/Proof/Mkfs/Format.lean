/-
This file proves that the superblock and the free map that `mkfs` writes are what the kernel reads.
-/

import Xv6.Host.Mkfs
import Xv6.Proof.BlockFs.Format

namespace Xv6.Mkfs

open Bytes OnDisk

theorem iblock_eq (k : Nat) : sb.iblock k = k / 16 + 32 := rfl

/-- The superblock that was written is read back. -/
theorem ofBytes_byte (m : ByteMap) : DiskSuperblock.ofBytes (overlay 0 superblockSize sb.byte m) = sb := by
  have field (k : Nat) (inside : k < 8) :
      load 4 (overlay 0 superblockSize sb.byte m) (0 + 4 * k) = sb.fields.getD k 0 := by
    rw [load_inside (by show _ ≤ 32; omega)]
    apply load_bytes
    intro i below
    have quotient : (4 * k + i) / 4 = k := by omega
    have remainder : (4 * k + i) % 4 = i := by omega
    rw [DiskSuperblock.byte, quotient, remainder]
  have all := And.intro (field 0 (by decide)) <| And.intro (field 1 (by decide)) <| And.intro (field 2 (by decide)) <|
    And.intro (field 3 (by decide)) <| And.intro (field 4 (by decide)) <| And.intro (field 5 (by decide)) <|
    And.intro (field 6 (by decide)) (field 7 (by decide))
  simp only [Nat.zero_add, Nat.mul_zero, Nat.reduceMul] at all
  obtain ⟨magic, size, nblocks, ninodes, nlog, logstart, inodestart, bmapstart⟩ := all
  simp only [DiskSuperblock.ofBytes, magic, size, nblocks, ninodes, nlog, logstart, inodestart, bmapstart]
  rfl

/-- The loop of `balloc` marks the blocks below its bound. -/
theorem markUsed_bit (used j : Nat) : (markUsed used (j / 8)).getLsbD (j % 8) = decide (j < used) := by
  induction used with
  | zero => simp [markUsed]
  | succ used ih =>
      have step : markUsed (used + 1) =
          Function.update (markUsed used) (used / 8) (markUsed used (used / 8) ||| ((1 : Byte) <<< (used % 8))) := by
        rw [markUsed, List.range_succ, List.foldl_append]
        rfl
      have bound : j % 8 < 8 := Nat.mod_lt _ (by decide)
      rw [step]
      by_cases byte : j / 8 = used / 8
      · rw [byte, Function.update_self, BitVec.getLsbD_or, ← byte, ih]
        have bit : ((1 : BitVec 8) <<< (used % 8)).getLsbD (j % 8) = decide (j = used) := by
          rw [BitVec.getLsbD_shiftLeft]
          have one (i : Nat) : (1 : BitVec 8).getLsbD i = decide (i = 0) := by simp [BitVec.getLsbD_one]
          rw [one]
          by_cases equal : j = used
          · simp [equal, Nat.mod_lt]
          · have differs : j % 8 ≠ used % 8 := by omega
            simp only [decide_eq_false equal]
            rcases Nat.lt_or_gt_of_ne differs with low | high
            · simp [low]
            · have positive : j % 8 - used % 8 ≠ 0 := by omega
              simp [positive]
        rw [bit, ← Bool.decide_or]
        congr 1
        exact propext (by omega)
      · rw [Function.update_of_ne byte, ih]
        congr 1
        exact propext (by omega)

end Xv6.Mkfs
