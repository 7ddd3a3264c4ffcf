import Mathlib.Algebra.Order.Group.Nat
import Mathlib.Tactic.Ring

/-!
# Big-endian byte strings

General support: the number a byte string stands for when its first byte weighs most.
-/

namespace BigEndian

/-- Value of a byte string, highest byte first. -/
def value : List UInt8 → Nat
  | [] => 0
  | b :: rest => b.toNat * 256 ^ rest.length + value rest

@[simp] theorem value_nil : value [] = 0 := rfl

/-- Leading bytes weigh as many digits as follow. -/
theorem value_append (left right : List UInt8) :
    value (left ++ right) = value left * 256 ^ right.length + value right := by
  induction left with
  | nil => simp
  | cons b rest ih =>
    rw [List.cons_append, value, value, ih, List.length_append, Nat.pow_add]
    ring

@[simp] theorem value_replicate_zero (n : Nat) : value (List.replicate n 0) = 0 := by
  induction n with
  | zero => rfl
  | succ n ih => rw [List.replicate_succ, value, ih, UInt8.toNat_zero, Nat.zero_mul]

/-- Three bytes are three digits. -/
theorem value_three (a b c : UInt8) :
    value [a, b, c] = a.toNat * 65536 + b.toNat * 256 + c.toNat := by
  simp only [value, List.length_cons, List.length_nil]
  omega

/-- Only zero bytes stand for zero. -/
theorem value_eq_zero_iff {bytes : List UInt8} :
    value bytes = 0 ↔ bytes = List.replicate bytes.length 0 := by
  constructor
  · intro h
    induction bytes with
    | nil => rfl
    | cons b rest ih =>
      rw [value, Nat.add_eq_zero_iff, Nat.mul_eq_zero] at h
      have hb : b.toNat = 0 := h.1.resolve_right (Nat.pow_pos (by decide)).ne'
      have hzero : b = 0 := UInt8.toNat_inj.mp hb
      rw [List.length_cons, List.replicate_succ, ← ih h.2, hzero]
  · intro h
    rw [h, value_replicate_zero]

/-- A byte string stays below the first number it has no room for. -/
theorem value_lt (bytes : List UInt8) : value bytes < 256 ^ bytes.length := by
  induction bytes with
  | nil => simp
  | cons b rest ih =>
    have hb := b.toNat_lt
    have hle : b.toNat * 256 ^ rest.length ≤ 255 * 256 ^ rest.length :=
      Nat.mul_le_mul_right _ (by omega)
    rw [value, List.length_cons, Nat.pow_succ]
    omega

/-- Strings of one length are ordered as the numbers they stand for. -/
theorem value_lt_iff {left right : List UInt8} (h : left.length = right.length) :
    value left < value right ↔ left < right := by
  induction left generalizing right with
  | nil =>
    obtain rfl := List.length_eq_zero_iff.mp h.symm
    simp
  | cons a rest ih =>
    cases right with
    | nil => simp at h
    | cons b rest' =>
      have hlen : rest.length = rest'.length := by simpa using h
      have hrest := value_lt rest
      have hrest' := value_lt rest'
      rw [← hlen] at hrest'
      rw [List.cons_lt_cons_iff, ← ih hlen, value, value, ← hlen]
      rcases Nat.lt_trichotomy a.toNat b.toNat with hlt | heq | hgt
      · refine iff_of_true ?_ (Or.inl (UInt8.lt_iff_toNat_lt.mpr hlt))
        have hstep : (a.toNat + 1) * 256 ^ rest.length ≤ b.toNat * 256 ^ rest.length :=
          Nat.mul_le_mul_right _ hlt
        rw [Nat.add_one_mul] at hstep
        omega
      · obtain rfl := UInt8.toNat_inj.mp heq
        simp
      · have hnot : ¬ a < b := fun hlt ↦ Nat.lt_asymm hgt (UInt8.lt_iff_toNat_lt.mp hlt)
        have hne : a ≠ b := by
          rintro rfl
          exact Nat.lt_irrefl _ hgt
        refine iff_of_false ?_ (by simp [hne, hnot])
        have hstep : (b.toNat + 1) * 256 ^ rest.length ≤ a.toNat * 256 ^ rest.length :=
          Nat.mul_le_mul_right _ hgt
        rw [Nat.add_one_mul] at hstep
        omega

/-- The order of byte arrays of one length is that of the numbers. -/
theorem value_le_iff {left right : List UInt8} (h : left.length = right.length) :
    value left ≤ value right ↔ left ≤ right := by
  rw [← Nat.not_lt, value_lt_iff h.symm]
  exact List.not_lt

end BigEndian
