import Mathlib.Data.List.TakeWhile
import Siliqua.Base.Positional
import Siliqua.Crypto.Primitives

/-!
# Numbers on the command line

`parse_port` and `parse_amount` of `Siliqua.cpp`, over `std::stoll` as the standard library
documents it for base ten and the C locale: blanks, an optional sign and digits, and the position
where it stopped. Strings are lists of ASCII bytes.
-/

namespace Siliqua.Network

open Positional

/-- `std::isspace`. -/
def isSpace (c : UInt8) : Bool := c == 32 || (9 ≤ c && c ≤ 13)

/-- `std::isdigit`. -/
def isDigit (c : UInt8) : Bool := 48 ≤ c && c ≤ 57

/-- Whether the number is negative, and the length of the sign. -/
def readSign : Bytes → Bool × ℕ
  | 45 :: _ => (true, 1)
  | 43 :: _ => (false, 1)
  | _ => (false, 0)

/-- `std::stoll`: the value and the number of characters used, or `none` where it throws
`std::invalid_argument` or `std::out_of_range`. -/
def stoll (text : Bytes) : Option (ℤ × ℕ) :=
  let spaces := (text.takeWhile isSpace).length
  let sign := readSign (text.drop spaces)
  let digits := (text.drop (spaces + sign.2)).takeWhile isDigit
  if digits.isEmpty then none
  else
    let magnitude : ℤ := value 10 (digits.map fun c ↦ c.toNat - 48)
    let number := if sign.1 then -magnitude else magnitude
    if number < -2 ^ 63 ∨ 2 ^ 63 ≤ number then none
    else some (number, spaces + sign.2 + digits.length)

/-- `Siliqua.cpp:55–68`. -/
def parsePort (text : Bytes) : Option UInt16 :=
  match stoll text with
  | none => none
  | some (number, used) =>
    if used ≠ text.length ∨ number < 1 ∨ number > 65535 then none
    else some (UInt16.ofNat number.toNat)

/-- `Siliqua.cpp:70–83`. -/
def parseAmount (text : Bytes) : Option Int64 :=
  match stoll text with
  | none => none
  | some (number, used) =>
    if used ≠ text.length ∨ number ≤ 0 then none
    else some (Int64.ofInt number)

/-! ## What is admitted -/

/-- The decimal form of a number. -/
def decimal (n : ℕ) : Bytes := (numeral 10 0 n).map fun d ↦ UInt8.ofNat (48 + d)

private theorem stoll_range {text : Bytes} {number : ℤ} {used : ℕ}
    (h : stoll text = some (number, used)) : -2 ^ 63 ≤ number ∧ number < 2 ^ 63 := by
  unfold stoll at h
  dsimp only at h
  rw [Option.ite_none_left_eq_some] at h
  obtain ⟨-, h⟩ := h
  rw [Option.ite_none_left_eq_some] at h
  obtain ⟨hrange, hsome⟩ := h
  obtain ⟨rfl, -⟩ := Prod.mk.inj (Option.some.inj hsome)
  rw [not_or, Int.not_lt, Int.not_le] at hrange
  exact hrange

private theorem numeral_ten_lt {n d : ℕ} (h : d ∈ numeral 10 0 n) : d < 10 :=
  lt_of_mem_numeral (by decide) h

private theorem isDigit_of_mem_decimal {n : ℕ} {c : UInt8} (h : c ∈ decimal n) :
    isDigit c = true ∧ isSpace c = false ∧ c ≠ 45 ∧ c ≠ 43 := by
  obtain ⟨d, hd, rfl⟩ := List.mem_map.mp h
  have hall : ∀ d < 10, isDigit (UInt8.ofNat (48 + d)) = true ∧
      isSpace (UInt8.ofNat (48 + d)) = false ∧ UInt8.ofNat (48 + d) ≠ 45 ∧
        UInt8.ofNat (48 + d) ≠ 43 := by
    decide
  exact hall d (numeral_ten_lt hd)

private theorem value_decimal (n : ℕ) :
    value 10 ((decimal n).map fun c ↦ c.toNat - 48) = n := by
  have hdigits : (decimal n).map (fun c ↦ c.toNat - 48) = numeral 10 0 n := by
    rw [decimal, List.map_map]
    conv_rhs => rw [← List.map_id (numeral 10 0 n)]
    refine List.map_congr_left fun d hd ↦ ?_
    have hlt := numeral_ten_lt hd
    simp only [Function.comp_apply, UInt8.toNat_ofNat', id_eq]
    omega
  rw [hdigits, value_numeral]

/-- `std::stoll` reads a decimal form to its end. -/
theorem stoll_decimal {n : ℕ} (hpos : 0 < n) (hlt : n < 2 ^ 63) :
    stoll (decimal n) = some ((n : ℤ), (decimal n).length) := by
  have hne : decimal n ≠ [] := by
    intro hnil
    have hvalue := value_decimal n
    rw [hnil, List.map_nil, value_nil] at hvalue
    omega
  obtain ⟨c, rest, hcons⟩ := List.exists_cons_of_ne_nil hne
  obtain ⟨-, hspace, hminus, hplus⟩ := isDigit_of_mem_decimal (n := n) (c := c) (by simp [hcons])
  have hspaces : (decimal n).takeWhile isSpace = [] := by simp [hcons, hspace]
  have hsign : readSign (decimal n) = (false, 0) := by
    rw [hcons]
    unfold readSign
    split
    · next heq => exact absurd (List.cons.inj heq).1 hminus
    · next heq => exact absurd (List.cons.inj heq).1 hplus
    · rfl
  have hdigits : (decimal n).takeWhile isDigit = decimal n :=
    List.takeWhile_eq_self_iff.mpr fun c hc ↦ (isDigit_of_mem_decimal hc).1
  unfold stoll
  rw [hspaces]
  simp only [List.length_nil, List.drop_zero, hsign, Nat.zero_add, hdigits, value_decimal]
  rw [if_neg (by simp [hne]), if_neg (by simp only [Bool.false_eq_true, if_false]; omega)]
  rfl

/-- `parse_port` admits exactly the ports from 1 to 65535. -/
theorem exists_parsePort_iff {port : UInt16} : (∃ text, parsePort text = some port) ↔ port ≠ 0 := by
  have hbound := port.toNat_lt
  constructor
  · rintro ⟨text, h⟩ rfl
    unfold parsePort at h
    split at h
    · cases h
    · next number used hnumber =>
      split at h
      · cases h
      · next hok =>
        have hnat := congrArg UInt16.toNat (Option.some.inj h)
        rw [UInt16.toNat_ofNat', UInt16.toNat_zero] at hnat
        omega
  · intro h
    have hpos : port.toNat ≠ 0 := fun hzero ↦ h (UInt16.toNat_inj.mp hzero)
    refine ⟨decimal port.toNat, ?_⟩
    rw [parsePort, stoll_decimal (by omega) (by omega)]
    dsimp only
    rw [if_neg (by omega), Int.toNat_natCast, UInt16.ofNat_toNat]

/-- `parse_amount` admits exactly the positive amounts. -/
theorem exists_parseAmount_iff {amount : Int64} :
    (∃ text, parseAmount text = some amount) ↔ 0 < amount := by
  constructor
  · rintro ⟨text, h⟩
    unfold parseAmount at h
    split at h
    · cases h
    · next number used hnumber =>
      split at h
      · cases h
      · next hok =>
        have hrange := stoll_range hnumber
        rw [← Option.some.inj h, Int64.lt_iff_toInt_lt,
          Int64.toInt_ofInt_of_le hrange.1 hrange.2]
        exact Int.not_le.mp fun hle ↦ hok (.inr hle)
  · intro h
    have hpos : 0 < amount.toInt := Int64.lt_iff_toInt_lt.mp h
    have hlt := Int64.toInt_lt amount
    refine ⟨decimal amount.toInt.toNat, ?_⟩
    rw [parseAmount, stoll_decimal (by omega) (by omega)]
    dsimp only
    rw [if_neg (by omega), Int.toNat_of_nonneg (by omega), Int64.ofInt_toInt]

end Siliqua.Network
