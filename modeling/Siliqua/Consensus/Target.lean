import Mathlib.Data.Nat.Bitwise
import Siliqua.Base.BigEndian
import Siliqua.Consensus.Pow

/-!
# Compact targets as numbers

`bits_to_target` writes the number `mantissa * 256^(exponent - 3)`; the retarget encoder writes
exponent and mantissa into one word.
-/

namespace Siliqua.Consensus

open Siliqua.Core BigEndian

/-- The number a 32-byte target stands for. -/
def targetValue (target : Hash256) : Nat := value target.toList

/-- Only the all-zero target stands for zero. -/
theorem targetValue_eq_zero_iff {target : Hash256} :
    targetValue target = 0 ↔ target = Hash256.zero := by
  rw [targetValue, value_eq_zero_iff, List.Vector.toList_length]
  exact ⟨fun h ↦ Subtype.ext h, fun h ↦ by rw [h]; rfl⟩

private theorem toNat_byte (m : UInt32) (k : Nat) (hk : k < 32) :
    ((m >>> UInt32.ofNat k) &&& 0xFF).toUInt8.toNat = m.toNat / 2 ^ k % 256 := by
  have hshift : (UInt32.ofNat k).toNat = k := by
    rw [UInt32.toNat_ofNat', Nat.mod_eq_of_lt (by omega)]
  have hmask : (0xFF : UInt32).toNat = 2 ^ 8 - 1 := rfl
  rw [UInt32.toNat_toUInt8, UInt32.toNat_and, UInt32.toNat_shiftRight, hshift, hmask,
    Nat.and_two_pow_sub_one_eq_mod, Nat.mod_mod, Nat.mod_eq_of_lt hk, Nat.shiftRight_eq_div_pow]

private theorem set_three (off n : Nat) (a b c : UInt8) :
    (((List.replicate off (0 : UInt8) ++ 0 :: 0 :: 0 :: List.replicate n 0).set off a).set (off + 1)
      b).set (off + 2) c = List.replicate off 0 ++ [a, b, c] ++ List.replicate n 0 := by
  rw [List.set_append_right _ _ (by simp), List.set_append_right _ _ (by simp),
    List.set_append_right _ _ (by simp)]
  simp

/-- The three bytes land at their offset. -/
theorem toList_placeMantissa {offset : Nat} (h : offset ≤ 29) (mantissa : UInt32) :
    (placeMantissa offset mantissa).toList = List.replicate offset (0 : UInt8) ++
      [((mantissa >>> 16) &&& 0xFF).toUInt8, ((mantissa >>> 8) &&& 0xFF).toUInt8,
        (mantissa &&& 0xFF).toUInt8] ++ List.replicate (29 - offset) 0 := by
  have hzero : Hash256.zero.toList =
      List.replicate offset 0 ++ 0 :: 0 :: 0 :: List.replicate (29 - offset) 0 := by
    have hthree : (0 : UInt8) :: 0 :: 0 :: List.replicate (29 - offset) 0 =
        List.replicate (32 - offset) 0 := by
      rw [show 32 - offset = (29 - offset) + 1 + 1 + 1 by omega]
      rfl
    rw [hthree, List.replicate_append_replicate, show offset + (32 - offset) = 32 by omega]
    rfl
  rw [placeMantissa, List.Vector.toList_mk, hzero, set_three]

/-- A placed 24-bit mantissa is shifted by the bytes behind it. -/
theorem targetValue_placeMantissa {offset : Nat} (h : offset ≤ 29) {mantissa : UInt32}
    (hm : mantissa.toNat < 2 ^ 24) :
    targetValue (placeMantissa offset mantissa) = mantissa.toNat * 256 ^ (29 - offset) := by
  have h16 := toNat_byte mantissa 16 (by decide)
  have h8 := toNat_byte mantissa 8 (by decide)
  have h0 := toNat_byte mantissa 0 (by decide)
  have hshift0 : mantissa >>> UInt32.ofNat 0 = mantissa := UInt32.shiftRight_zero
  rw [hshift0] at h0
  rw [targetValue, toList_placeMantissa h, value_append, value_append, value_replicate_zero,
    value_replicate_zero, value_three, List.length_replicate]
  have hdigits : ((mantissa >>> 16) &&& 0xFF).toUInt8.toNat * 65536 +
      ((mantissa >>> 8) &&& 0xFF).toUInt8.toNat * 256 + (mantissa &&& 0xFF).toUInt8.toNat =
        mantissa.toNat := by
    change ((mantissa >>> UInt32.ofNat 16) &&& 0xFF).toUInt8.toNat * 65536 +
      ((mantissa >>> UInt32.ofNat 8) &&& 0xFF).toUInt8.toNat * 256 + _ = _
    rw [h16, h8, h0]
    omega
  rw [hdigits, Nat.zero_mul, Nat.zero_add, Nat.add_zero]

/-- The mantissa has 23 bits. -/
theorem mantissaOf_lt (bits : UInt32) : mantissaOf bits < 2 ^ 23 := by
  have hmask : (0x007FFFFF : UInt32).toNat = 2 ^ 23 - 1 := rfl
  rw [mantissaOf, UInt32.toNat_and, hmask, Nat.and_two_pow_sub_one_eq_mod]
  exact Nat.mod_lt _ (by decide)

/-- What `bits_to_target` writes for a clear sign bit. -/
theorem targetValue_bitsToTarget {bits : UInt32} (hsign : bits &&& 0x00800000 = 0) :
    targetValue (bitsToTarget bits) =
      if 32 < exponentOf bits then 0
      else if exponentOf bits ≤ 3 then mantissaOf bits / 256 ^ (3 - exponentOf bits)
      else mantissaOf bits * 256 ^ (exponentOf bits - 3) := by
  have hm := mantissaOf_lt bits
  have hzero : targetValue Hash256.zero = 0 := targetValue_eq_zero_iff.mpr rfl
  have h32 : bits >>> 24 > 32 ↔ 32 < exponentOf bits := UInt32.lt_iff_toNat_lt
  have h3 : bits >>> 24 ≤ 3 ↔ exponentOf bits ≤ 3 := UInt32.le_iff_toNat_le
  unfold bitsToTarget
  simp only [hsign, ne_eq, not_true_eq_false, ↓reduceIte, h32, h3]
  split
  · exact hzero
  split
  · next hle =>
    have hshift : ((bits &&& 0x007FFFFF) >>> ((8 : UInt32) * ((3 : UInt32) - bits >>> 24))).toNat =
        mantissaOf bits / 256 ^ (3 - exponentOf bits) := by
      have hsub : ((3 : UInt32) - bits >>> 24).toNat = 3 - exponentOf bits :=
        UInt32.toNat_sub_of_le _ _ (h3.mpr hle)
      have hmul : ((8 : UInt32) * ((3 : UInt32) - bits >>> 24)).toNat =
          8 * (3 - exponentOf bits) := by
        rw [UInt32.toNat_mul, hsub]
        exact Nat.mod_eq_of_lt (by change 8 * _ < _; omega)
      rw [UInt32.toNat_shiftRight, hmul, Nat.mod_eq_of_lt (by omega), Nat.shiftRight_eq_div_pow,
        Nat.pow_mul]
      rfl
    have hlt : ((bits &&& 0x007FFFFF) >>> ((8 : UInt32) * ((3 : UInt32) - bits >>> 24))).toNat <
        2 ^ 24 := by
      rw [hshift]
      exact Nat.lt_of_le_of_lt (Nat.div_le_self _ _) (by omega)
    rw [targetValue_placeMantissa (le_refl 29) hlt, hshift]
    omega
  · next hle hgt =>
    have hlt : (bits &&& 0x007FFFFF).toNat < 2 ^ 24 := by
      change mantissaOf bits < _
      omega
    change targetValue (placeMantissa (32 - exponentOf bits) _) = _
    rw [targetValue_placeMantissa (by omega) hlt]
    change mantissaOf bits * _ = _
    rw [show 29 - (32 - exponentOf bits) = exponentOf bits - 3 by omega]

/-! ## Encoded words -/

/-- An exponent byte and a 23-bit mantissa in one word, as the retarget writes them. -/
def compact (exponent mantissa : Nat) : UInt32 :=
  (UInt32.ofNat exponent <<< 24) ||| (UInt32.ofNat mantissa &&& 0x007FFFFF)

/-- The two parts do not overlap. -/
theorem toNat_compact {mantissa : Nat} (exponent : Nat) (h : mantissa < 2 ^ 32) :
    (compact exponent mantissa).toNat = exponent % 256 * 2 ^ 24 + mantissa % 2 ^ 23 := by
  have hmask : (0x007FFFFF : UInt32).toNat = 2 ^ 23 - 1 := rfl
  have h24 : (24 : UInt32).toNat = 24 := rfl
  have hhigh : (UInt32.ofNat exponent <<< 24).toNat = exponent % 256 * 2 ^ 24 := by
    rw [UInt32.toNat_shiftLeft, UInt32.toNat_ofNat', h24, Nat.shiftLeft_eq]
    simp only [Nat.reduceMod]
    omega
  have hlow : (UInt32.ofNat mantissa &&& 0x007FFFFF).toNat = mantissa % 2 ^ 23 := by
    rw [UInt32.toNat_and, UInt32.toNat_ofNat', hmask, Nat.and_two_pow_sub_one_eq_mod,
      Nat.mod_eq_of_lt h]
  have hlt : mantissa % 2 ^ 23 < 2 ^ 24 := by omega
  rw [compact, UInt32.toNat_or, hhigh, hlow, Nat.mul_comm]
  exact (Nat.two_pow_add_eq_or_of_lt hlt _).symm

theorem exponentOf_compact {mantissa : Nat} (exponent : Nat) (h : mantissa < 2 ^ 32) :
    exponentOf (compact exponent mantissa) = exponent % 256 := by
  have h24 : (24 : UInt32).toNat = 24 := rfl
  rw [exponentOf, UInt32.toNat_shiftRight, toNat_compact exponent h, h24,
    Nat.shiftRight_eq_div_pow]
  simp only [Nat.reduceMod]
  omega

theorem mantissaOf_compact {mantissa : Nat} (exponent : Nat) (h : mantissa < 2 ^ 32) :
    mantissaOf (compact exponent mantissa) = mantissa % 2 ^ 23 := by
  have hmask : (0x007FFFFF : UInt32).toNat = 2 ^ 23 - 1 := rfl
  rw [mantissaOf, UInt32.toNat_and, toNat_compact exponent h, hmask,
    Nat.and_two_pow_sub_one_eq_mod]
  omega

theorem sign_compact {mantissa : Nat} (exponent : Nat) (h : mantissa < 2 ^ 32) :
    compact exponent mantissa &&& 0x00800000 = 0 := by
  have hbit : (0x00800000 : UInt32).toNat = 2 ^ 23 := rfl
  apply UInt32.toNat_inj.mp
  rw [UInt32.toNat_and, toNat_compact exponent h, hbit, Nat.and_two_pow,
    Nat.testBit_eq_decide_div_mod_eq]
  have hclear : (exponent % 256 * 2 ^ 24 + mantissa % 2 ^ 23) / 2 ^ 23 % 2 = 0 := by omega
  rw [hclear]
  rfl

end Siliqua.Consensus
