import Mathlib.Algebra.Order.Field.Power
import Mathlib.Tactic.FieldSimp
import Siliqua.Consensus.Target
import Siliqua.Crypto.Picosha2

/-!
# Target and work of one encoding

`check_proof_of_work` compares byte arrays that `bits_to_target` has filled by one of two
formulas, `calculate_block_work` has a closed formula. Both read `nBits` as the number
`mantissa * 256^(exponent - 3)`.
-/

namespace Siliqua.Consensus

open Siliqua.Core BigEndian

/-- The number a compact difficulty denotes. -/
def targetOf (bits : UInt32) : Nat := mantissaOf bits * 256 ^ (exponentOf bits - 3)

/-- Sign bit clear, mantissa not zero, exponent between 3 and 32. -/
structure Regular (bits : UInt32) : Prop where
  sign : bits &&& 0x00800000 = 0
  mantissa : mantissaOf bits ≠ 0
  exponent_ge : 3 ≤ exponentOf bits
  exponent_le : exponentOf bits ≤ 32

/-- A regular difficulty denotes a positive number. -/
theorem Regular.targetOf_pos {bits : UInt32} (h : Regular bits) : 0 < targetOf bits :=
  Nat.mul_pos (Nat.pos_of_ne_zero h.mantissa) (Nat.pow_pos (by decide))

/-- `bits_to_target` writes the number a regular difficulty denotes. -/
theorem Regular.targetValue_bitsToTarget {bits : UInt32} (h : Regular bits) :
    targetValue (bitsToTarget bits) = targetOf bits := by
  have hle := h.exponent_le
  have hge := h.exponent_ge
  rw [Consensus.targetValue_bitsToTarget h.sign, if_neg (by omega), targetOf]
  split
  · next hsmall =>
    obtain heq : exponentOf bits = 3 := by omega
    rw [heq, Nat.sub_self, Nat.pow_zero, Nat.div_one, Nat.mul_one]
  · rfl

/-- Work and target of a regular difficulty multiply to `2 ^ 256`. -/
theorem Regular.work_mul_target {bits : UInt32} (h : Regular bits) :
    calculateBlockWork bits * targetOf bits = 2 ^ 256 := by
  have hm : (mantissaOf bits : ℚ) ≠ 0 := Nat.cast_ne_zero.mpr h.mantissa
  have hge := h.exponent_ge
  have hbyte : (256 : ℚ) ^ (exponentOf bits - 3) = 2 ^ (8 * ((exponentOf bits : ℤ) - 3)) := by
    rw [show (8 : ℤ) * ((exponentOf bits : ℤ) - 3) = ((8 * (exponentOf bits - 3) : ℕ) : ℤ) by omega,
      zpow_natCast, pow_mul]
    norm_num
  have hsum : (280 - 8 * (exponentOf bits : ℤ)) + 8 * ((exponentOf bits : ℤ) - 3) = 256 := by ring
  calc calculateBlockWork bits * targetOf bits
      = 2 ^ (280 - 8 * (exponentOf bits : ℤ)) * 2 ^ (8 * ((exponentOf bits : ℤ) - 3)) := by
        rw [calculateBlockWork, if_neg h.mantissa, targetOf, Nat.cast_mul, Nat.cast_pow,
          Nat.cast_ofNat, hbyte]
        field_simp
    _ = 2 ^ (256 : ℤ) := by rw [← zpow_add₀ two_ne_zero, hsum]
    _ = 2 ^ 256 := by norm_num

/-- Of two regular difficulties the one with the smaller target has more work. -/
theorem Regular.target_lt_iff {bits bits' : UInt32} (h : Regular bits) (h' : Regular bits') :
    targetOf bits < targetOf bits' ↔ calculateBlockWork bits' < calculateBlockWork bits := by
  have hpos : (0 : ℚ) < targetOf bits := Nat.cast_pos.mpr h.targetOf_pos
  have hpos' : (0 : ℚ) < targetOf bits' := Nat.cast_pos.mpr h'.targetOf_pos
  have hwork := eq_div_of_mul_eq hpos.ne' h.work_mul_target
  have hwork' := eq_div_of_mul_eq hpos'.ne' h'.work_mul_target
  rw [hwork, hwork', div_lt_div_iff_of_pos_left (by norm_num) hpos' hpos, Nat.cast_lt]

section

variable [Crypto]

/-- The header's hash is at most the number its difficulty denotes. -/
theorem checkProofOfWork_iff {header : CBlockHeader} (h : Regular header.nBits) :
    checkProofOfWork header = true ↔ value header.getHash.toList ≤ targetOf header.nBits := by
  have hlen : header.getHash.toList.length = (bitsToTarget header.nBits).toList.length := by
    rw [List.Vector.toList_length, List.Vector.toList_length]
  rw [checkProofOfWork, decide_eq_true_iff, ← value_le_iff hlen, ← h.targetValue_bitsToTarget,
    targetValue]

/-- Only the zero hash meets a difficulty without a mantissa. -/
theorem mantissaOf_ne_zero_of_checkProofOfWork {header : CBlockHeader}
    (h : checkProofOfWork header = true) (hz : header.getHash ≠ Hash256.zero) :
    mantissaOf header.nBits ≠ 0 := by
  intro hm
  have htarget : bitsToTarget header.nBits = Hash256.zero := by
    by_cases hsign : header.nBits &&& 0x00800000 = 0
    · rw [← targetValue_eq_zero_iff, targetValue_bitsToTarget hsign, hm, Nat.zero_div, Nat.zero_mul]
      simp only [ite_self]
    · exact if_pos hsign
  have hlen : header.getHash.toList.length = (bitsToTarget header.nBits).toList.length := by
    rw [List.Vector.toList_length, List.Vector.toList_length]
  rw [checkProofOfWork, decide_eq_true_iff, ← value_le_iff hlen, htarget] at h
  have hzero : value Hash256.zero.toList = 0 := targetValue_eq_zero_iff.mpr rfl
  rw [hzero] at h
  exact hz (targetValue_eq_zero_iff.mp (Nat.le_zero.mp h))

/-- The check of a header, the work of a block and the order of difficulties all read `nBits` as
the same number. -/
theorem nBits_read_alike {bits : UInt32} (h : Regular bits) :
    (∀ header : CBlockHeader, header.nBits = bits →
      (checkProofOfWork header = true ↔
        value header.getHash.toList ≤ mantissaOf bits * 256 ^ (exponentOf bits - 3))) ∧
    calculateBlockWork bits * (mantissaOf bits * 256 ^ (exponentOf bits - 3) : Nat) = 2 ^ 256 ∧
    ∀ bits', Regular bits' →
      (mantissaOf bits * 256 ^ (exponentOf bits - 3) <
          mantissaOf bits' * 256 ^ (exponentOf bits' - 3) ↔
        calculateBlockWork bits' < calculateBlockWork bits) := by
  refine ⟨?_, h.work_mul_target, fun bits' h' ↦ h.target_lt_iff h'⟩
  rintro header rfl
  exact checkProofOfWork_iff h

end

/-- The easiest difficulty against a harder one. -/
theorem nBits_read_alike_easiest :
    calculateBlockWork 0x207fffff * (8388607 * 256 ^ 29 : Nat) = 2 ^ 256 ∧
      calculateBlockWork 0x207fffff < calculateBlockWork 0x1d00ffff := by
  have heasy : Regular 0x207fffff := ⟨by decide, by decide, by decide, by decide⟩
  have hhard : Regular 0x1d00ffff := ⟨by decide, by decide, by decide, by decide⟩
  obtain ⟨-, hwork, horder⟩ := @nBits_read_alike keylessCrypto _ hhard
  exact ⟨(@nBits_read_alike keylessCrypto _ heasy).2.1, (horder _ heasy).mp (by decide)⟩

end Siliqua.Consensus
