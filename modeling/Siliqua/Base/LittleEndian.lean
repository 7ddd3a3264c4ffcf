import Mathlib.Tactic.Ring

/-!
# Little-endian byte strings

General support: the number a byte string stands for when its first byte weighs least, the
bytes of a number in that order, and the step that puts one more byte on top of a word.
-/

namespace LittleEndian

/-- The `n` low bytes of a number, lowest first. -/
def bytes : Nat → Nat → List UInt8
  | 0, _ => []
  | n + 1, v => UInt8.ofNat v :: bytes n (v / 256)

/-- Value of a byte string, lowest byte first. -/
def value : List UInt8 → Nat
  | [] => 0
  | b :: rest => b.toNat + 256 * value rest

@[simp] theorem length_bytes (n v : Nat) : (bytes n v).length = n := by
  induction n generalizing v with
  | zero => rfl
  | succ n ih => rw [bytes, List.length_cons, ih]

/-- `n` bytes hold less than `256 ^ n`. -/
theorem value_lt (bs : List UInt8) : value bs < 256 ^ bs.length := by
  induction bs with
  | nil => simp [value]
  | cons b rest ih =>
    have hb := b.toNat_lt
    rw [value, List.length_cons, Nat.pow_succ]
    omega

/-- The bytes of a number that fits stand for it. -/
theorem value_bytes {n v : Nat} (h : v < 256 ^ n) : value (bytes n v) = v := by
  induction n generalizing v with
  | zero =>
    rw [bytes, value]
    omega
  | succ n ih =>
    rw [Nat.pow_succ] at h
    rw [bytes, value, ih (by omega), UInt8.toNat_ofNat']
    omega

/-- A byte string is the bytes of its value. -/
theorem bytes_value (bs : List UInt8) : bytes bs.length (value bs) = bs := by
  induction bs with
  | nil => rfl
  | cons b rest ih =>
    have hb := b.toNat_lt
    have hlow : UInt8.ofNat (b.toNat + 256 * value rest) = b := by
      apply UInt8.toNat_inj.mp
      rw [UInt8.toNat_ofNat']
      omega
    have hhigh : (b.toNat + 256 * value rest) / 256 = value rest := by omega
    rw [List.length_cons, bytes, value, hlow, hhigh, ih]

/-- A number of `n` bytes and a string of `n` bytes determine each other. -/
theorem eq_bytes_iff {n v : Nat} {bs : List UInt8} (hv : v < 256 ^ n) (hn : bs.length = n) :
    bs = bytes n v ↔ v = value bs := by
  constructor
  · intro h
    rw [h, value_bytes hv]
  · intro h
    rw [h, ← hn, bytes_value]

/-- One more byte at the end weighs most. -/
theorem value_concat (bs : List UInt8) (b : UInt8) :
    value (bs ++ [b]) = value bs + b.toNat * 256 ^ bs.length := by
  induction bs with
  | nil => simp [value]
  | cons a rest ih =>
    rw [List.cons_append, value, ih, value, List.length_cons, Nat.pow_succ]
    ring

/-! ## Building a word byte by byte -/

private theorem or_shiftLeft_eq {a i : Nat} (b : Nat) (h : a < 2 ^ i) :
    a ||| b <<< i = a + b * 2 ^ i := by
  rw [Nat.or_comm, ← Nat.shiftLeft_add_eq_or_of_lt h, Nat.shiftLeft_eq, Nat.add_comm]

private theorem or_shift {acc w : Nat} {bs : List UInt8} (b : UInt8) (hacc : acc = value bs)
    (hw : 8 * bs.length + 8 ≤ w) :
    acc ||| (b.toNat <<< (8 * bs.length)) % 2 ^ w = value (bs ++ [b]) := by
  have hpow : 256 ^ bs.length = 2 ^ (8 * bs.length) := by rw [Nat.pow_mul]
  have hfits : b.toNat <<< (8 * bs.length) < 2 ^ w := by
    calc b.toNat <<< (8 * bs.length) = b.toNat * 2 ^ (8 * bs.length) := Nat.shiftLeft_eq _ _
      _ < 2 ^ 8 * 2 ^ (8 * bs.length) :=
        Nat.mul_lt_mul_of_pos_right b.toNat_lt (Nat.two_pow_pos _)
      _ = 2 ^ (8 * bs.length + 8) := by rw [Nat.mul_comm, Nat.pow_add]
      _ ≤ 2 ^ w := Nat.pow_le_pow_right (by decide) hw
  have hbelow : acc < 2 ^ (8 * bs.length) := by
    rw [hacc, ← hpow]
    exact value_lt bs
  rw [Nat.mod_eq_of_lt hfits, or_shiftLeft_eq _ hbelow, value_concat, hpow, hacc]

/-- A 32-bit word takes one more byte above the bytes it holds. -/
theorem toNat_or_shiftLeft32 {acc k : UInt32} {bs : List UInt8} (b : UInt8)
    (hacc : acc.toNat = value bs) (hk : k.toNat % 32 = 8 * bs.length) :
    (acc ||| (b.toUInt32 <<< k)).toNat = value (bs ++ [b]) := by
  rw [UInt32.toNat_or, UInt32.toNat_shiftLeft, UInt8.toNat_toUInt32, hk]
  exact or_shift b hacc (by omega)

/-- A 64-bit word takes one more byte above the bytes it holds. -/
theorem toNat_or_shiftLeft64 {acc k : UInt64} {bs : List UInt8} (b : UInt8)
    (hacc : acc.toNat = value bs) (hk : k.toNat % 64 = 8 * bs.length) :
    (acc ||| (b.toUInt64 <<< k)).toNat = value (bs ++ [b]) := by
  rw [UInt64.toNat_or, UInt64.toNat_shiftLeft, UInt8.toNat_toUInt64, hk]
  exact or_shift b hacc (by omega)

end LittleEndian
