import Mathlib.Data.List.Induction
import Mathlib.Data.List.TakeWhile
import Mathlib.Data.Nat.Digits.Defs

/-!
# Positional numerals

General support: digit strings with the most significant digit first. A string is determined by
how many zeros it starts with and which number it is, so rewriting the number in another radix
behind as many zeros loses nothing. The loop that rewrites in place, digit by digit, computes this
conversion as long as its buffer is long enough.
-/

namespace Positional

variable {radix radix' : ℕ}

/-- The number of a digit string. -/
def value (radix : ℕ) (digits : List ℕ) : ℕ := Nat.ofDigits radix digits.reverse

/-- How many zeros a digit string starts with. -/
def leadingZeros (digits : List ℕ) : ℕ := (digits.takeWhile (· == 0)).length

/-- The digit string of a number behind zeros. -/
def numeral (radix zeros n : ℕ) : List ℕ := List.replicate zeros 0 ++ (Nat.digits radix n).reverse

/-- Rewriting a digit string in another radix. -/
def convert (radix radix' : ℕ) (digits : List ℕ) : List ℕ :=
  numeral radix' (leadingZeros digits) (value radix digits)

/-! ## Numerals -/

@[simp] theorem value_nil : value radix [] = 0 := rfl

/-- One more digit. -/
theorem value_concat (digits : List ℕ) (digit : ℕ) :
    value radix (digits ++ [digit]) = digit + radix * value radix digits := by
  rw [value, List.reverse_append, List.reverse_singleton, List.singleton_append,
    Nat.ofDigits_cons, value]

theorem value_lt (h : 1 < radix) {digits : List ℕ} (hd : ∀ d ∈ digits, d < radix) :
    value radix digits < radix ^ digits.length := by
  have hlt := Nat.ofDigits_lt_base_pow_length h fun d hmem ↦ hd d (List.mem_reverse.mp hmem)
  rwa [List.length_reverse] at hlt

/-- Zeros in front do not count. -/
theorem value_replicate_append (zeros : ℕ) (digits : List ℕ) :
    value radix (List.replicate zeros 0 ++ digits) = value radix digits := by
  rw [value, List.reverse_append, List.reverse_replicate, Nat.ofDigits_append_replicate_zero, value]

theorem takeWhile_eq_replicate (digits : List ℕ) :
    digits.takeWhile (· == 0) = List.replicate (leadingZeros digits) 0 := by
  apply List.eq_replicate_of_mem
  intro d hd
  exact beq_iff_eq.mp (List.mem_takeWhile_imp (p := (· == 0)) hd)

theorem replicate_append_dropWhile (digits : List ℕ) :
    List.replicate (leadingZeros digits) 0 ++ digits.dropWhile (· == 0) = digits := by
  rw [← takeWhile_eq_replicate, List.takeWhile_append_dropWhile]

theorem drop_leadingZeros (digits : List ℕ) :
    digits.drop (leadingZeros digits) = digits.dropWhile (· == 0) := by
  conv_lhs => rw [← replicate_append_dropWhile digits]
  exact List.drop_left' (by rw [List.length_replicate, replicate_append_dropWhile])

theorem value_dropWhile (digits : List ℕ) :
    value radix (digits.dropWhile (· == 0)) = value radix digits := by
  conv_rhs => rw [← replicate_append_dropWhile digits]
  exact (value_replicate_append _ _).symm

/-- Without its leading zeros a digit string is the one Mathlib computes for its number. -/
theorem dropWhile_eq (h : 1 < radix) {digits : List ℕ} (hd : ∀ d ∈ digits, d < radix) :
    digits.dropWhile (· == 0) = (Nat.digits radix (value radix digits)).reverse := by
  rw [← value_dropWhile, value, Nat.digits_ofDigits radix h, List.reverse_reverse]
  · intro d hmem
    exact hd d ((List.dropWhile_sublist _).subset (List.mem_reverse.mp hmem))
  · intro hne
    have hne' : digits.dropWhile (· == 0) ≠ [] := by simpa using hne
    have hhead := List.head_dropWhile_not (· == 0) hne'
    rw [List.getLast_reverse]
    simpa using hhead

/-- A digit string is its leading zeros and its number. -/
theorem numeral_eq (h : 1 < radix) {digits : List ℕ} (hd : ∀ d ∈ digits, d < radix) :
    numeral radix (leadingZeros digits) (value radix digits) = digits := by
  rw [numeral, ← dropWhile_eq h hd, ← takeWhile_eq_replicate, List.takeWhile_append_dropWhile]

theorem value_numeral (zeros n : ℕ) : value radix (numeral radix zeros n) = n := by
  rw [numeral, value_replicate_append, value, List.reverse_reverse, Nat.ofDigits_digits]

theorem leadingZeros_numeral (h : 1 < radix) (zeros n : ℕ) :
    leadingZeros (numeral radix zeros n) = zeros := by
  have hdigits : ((Nat.digits radix n).reverse.takeWhile (· == 0)) = [] := by
    have hlt : ∀ d ∈ (Nat.digits radix n).reverse, d < radix := fun d hd ↦
      Nat.digits_lt_base h (List.mem_reverse.mp hd)
    have hdrop := dropWhile_eq h hlt
    rw [value, List.reverse_reverse, Nat.ofDigits_digits] at hdrop
    have hsplit := List.takeWhile_append_dropWhile (p := (· == 0))
      (l := (Nat.digits radix n).reverse)
    rw [hdrop] at hsplit
    exact List.append_left_eq_self.mp hsplit
  rw [leadingZeros, numeral, List.takeWhile_append_of_pos (by simp), hdigits]
  simp

theorem lt_of_mem_numeral (h : 1 < radix) {zeros n d : ℕ} (hd : d ∈ numeral radix zeros n) :
    d < radix := by
  rcases List.mem_append.mp hd with hzero | hdigit
  · rw [List.eq_of_mem_replicate hzero]
    omega
  · exact Nat.digits_lt_base h (List.mem_reverse.mp hdigit)

/-- Converting back gives the digit string back. -/
theorem convert_convert (h : 1 < radix) (h' : 1 < radix') {digits : List ℕ}
    (hd : ∀ d ∈ digits, d < radix) :
    convert radix' radix (convert radix radix' digits) = digits := by
  rw [convert, convert, leadingZeros_numeral h', value_numeral, numeral_eq h hd]

/-! ## Conversion in place -/

/-- One more digit for a buffer that has its least significant position first: every position is
multiplied and takes the carry, until the carry is used up and the positions in use are done. Also
returns how many positions are in use then. -/
def mulAdd (radix mult length : ℕ) : ℕ → ℕ → List ℕ → List ℕ × ℕ
  | _, j, [] => ([], j)
  | carry, j, digit :: rest =>
    if carry ≠ 0 ∨ j < length then
      let carry := carry + mult * digit
      let (rest, j) := mulAdd radix mult length (carry / radix) (j + 1) rest
      (carry % radix :: rest, j)
    else (digit :: rest, j)

/-- The buffer and the positions in use after some digits, from a buffer of zeros. -/
def convertInto (radix mult size : ℕ) (digits : List ℕ) : List ℕ × ℕ :=
  digits.foldl (fun s digit ↦ mulAdd radix mult s.2 digit 0 s.1) (List.replicate size 0, 0)

/-- The buffer holds a number in its positions in use. -/
structure Holds (radix : ℕ) (buffer : List ℕ) (length n : ℕ) : Prop where
  lt : ∀ d ∈ buffer, d < radix
  value : Nat.ofDigits radix buffer = n
  unused : ∀ d ∈ buffer.drop length, d = 0

private theorem ofDigits_eq_zero {buffer : List ℕ} (h : ∀ d ∈ buffer, d = 0) :
    Nat.ofDigits radix buffer = 0 := by
  rw [List.eq_replicate_of_mem h, Nat.ofDigits_replicate_zero]

/-- Behind the first position the buffer holds what is left of the number. -/
theorem Holds.tail {digit : ℕ} {rest : List ℕ} {length j n : ℕ}
    (h : Holds radix (digit :: rest) (length - j) n) :
    Holds radix rest (length - (j + 1)) (Nat.ofDigits radix rest) := by
  refine ⟨(List.forall_mem_cons.mp h.lt).2, rfl, fun d hd ↦ ?_⟩
  apply h.unused
  by_cases hj : j < length
  · rw [show length - j = (length - (j + 1)) + 1 by omega]
    exact hd
  · -- the loop is past the positions in use, so the whole tail is zero
    rw [show length - j = 0 by omega]
    exact List.mem_cons_of_mem _ (List.mem_of_mem_drop hd)

/-- With no position in use the number is zero. -/
theorem Holds.eq_zero {buffer : List ℕ} {n : ℕ} (h : Holds radix buffer 0 n) : n = 0 := by
  rw [← h.value]
  exact ofDigits_eq_zero h.unused

/-- From position `j` on, the loop multiplies the number in the buffer and adds the carry, if there
is room for the result. -/
theorem mulAdd_spec (h : 1 < radix) {mult length carry j n : ℕ} {buffer : List ℕ}
    (hbuffer : Holds radix buffer (length - j) n)
    (hfits : carry + mult * n < radix ^ buffer.length) :
    (mulAdd radix mult length carry j buffer).1.length = buffer.length ∧
      j ≤ (mulAdd radix mult length carry j buffer).2 ∧
      Holds radix (mulAdd radix mult length carry j buffer).1
        ((mulAdd radix mult length carry j buffer).2 - j) (carry + mult * n) := by
  induction buffer generalizing carry j n with
  | nil =>
    obtain rfl : n = 0 := hbuffer.value.symm
    obtain rfl : carry = 0 := by simpa using hfits
    exact ⟨rfl, Nat.le_refl j, hbuffer.lt, by simp [mulAdd], by simp [mulAdd]⟩
  | cons digit rest ih =>
    unfold mulAdd
    split
    · next hgo =>
      have htotal : carry + mult * n =
          (carry + mult * digit) + radix * (mult * Nat.ofDigits radix rest) := by
        rw [← hbuffer.value, Nat.ofDigits_cons]
        ring
      have hroom : (carry + mult * digit) / radix + mult * Nat.ofDigits radix rest <
          radix ^ rest.length := by
        rw [htotal, List.length_cons, pow_succ'] at hfits
        rw [← Nat.add_mul_div_left _ _ (by omega : 0 < radix)]
        exact Nat.div_lt_of_lt_mul hfits
      obtain ⟨hlen, hle, hholds⟩ := ih hbuffer.tail hroom
      refine ⟨by simp [hlen], by dsimp only; omega, ?_, ?_, ?_⟩
      · exact List.forall_mem_cons.mpr ⟨Nat.mod_lt _ (by omega), hholds.lt⟩
      · have hdivision := Nat.mod_add_div (carry + mult * digit) radix
        dsimp only
        rw [Nat.ofDigits_cons, hholds.value, htotal, Nat.mul_add]
        omega
      · dsimp only
        generalize hlast : (mulAdd radix mult length _ (j + 1) rest).2 = last at hle hholds ⊢
        rw [show last - j = (last - (j + 1)) + 1 by omega]
        exact hholds.unused
    · next hstop =>
      obtain ⟨rfl, hlast⟩ : carry = 0 ∧ length - j = 0 := by omega
      rw [hlast] at hbuffer
      obtain rfl : n = 0 := hbuffer.eq_zero
      refine ⟨rfl, Nat.le_refl j, hbuffer.lt, ?_, ?_⟩
      · rw [hbuffer.value]
        omega
      · rw [Nat.sub_self]
        exact hbuffer.unused

/-- The buffer holds the number of the digits so far, if it is long enough for that many. -/
theorem convertInto_spec (h : 1 < radix) {mult size : ℕ} (hmult : 1 < mult) {digits : List ℕ}
    (hd : ∀ d ∈ digits, d < mult) (hsize : mult ^ digits.length ≤ radix ^ size) :
    (convertInto radix mult size digits).1.length = size ∧
      Holds radix (convertInto radix mult size digits).1 (convertInto radix mult size digits).2
        (value mult digits) := by
  induction digits using List.reverseRecOn with
  | nil =>
    refine ⟨by simp [convertInto], ?_, ?_, ?_⟩
    · intro d hmem
      rw [List.eq_of_mem_replicate hmem]
      omega
    · exact Nat.ofDigits_replicate_zero
    · intro d hmem
      exact List.eq_of_mem_replicate hmem
  | append_singleton digits digit ih =>
    have hlt := value_lt hmult hd
    have hgrows : mult ^ digits.length ≤ mult ^ (digits ++ [digit]).length :=
      Nat.pow_le_pow_right (by omega) (by simp)
    obtain ⟨hlen, hholds⟩ := ih (fun d hmem ↦ hd d (List.mem_append_left _ hmem))
      (Nat.le_trans hgrows hsize)
    rw [value_concat] at hlt ⊢
    rw [convertInto, List.foldl_append, List.foldl_cons, List.foldl_nil, ← convertInto]
    have hstep := @mulAdd_spec _ h mult _ digit 0 _ _ hholds (by rw [hlen]; omega)
    exact ⟨hstep.1.trans hlen, hstep.2.2⟩

/-- The positions in use, read from the most significant one and without leading zeros, are the
digits of the number. -/
theorem Holds.dropWhile_eq (h : 1 < radix) {buffer : List ℕ} {length n : ℕ}
    (hbuffer : Holds radix buffer length n) :
    (buffer.take length).reverse.dropWhile (· == 0) = (Nat.digits radix n).reverse := by
  have hlt : ∀ d ∈ (buffer.take length).reverse, d < radix := fun d hd ↦
    hbuffer.lt d (List.mem_of_mem_take (List.mem_reverse.mp hd))
  have hvalue : Positional.value radix (buffer.take length).reverse = n := by
    rw [Positional.value, List.reverse_reverse, ← hbuffer.value]
    conv_rhs => rw [← List.take_append_drop length buffer, List.eq_replicate_of_mem hbuffer.unused,
      Nat.ofDigits_append_replicate_zero]
  rw [Positional.dropWhile_eq h hlt, hvalue]

/-- Converting in place behind as many zeros is conversion, if the buffer is long enough. -/
theorem convert_eq (h' : 1 < radix') {digits buffer : List ℕ} {length : ℕ}
    (hbuffer : Holds radix' buffer length (value radix (digits.drop (leadingZeros digits)))) :
    List.replicate (leadingZeros digits) 0 ++
      (buffer.take length).reverse.dropWhile (· == 0) = convert radix radix' digits := by
  rw [hbuffer.dropWhile_eq h', drop_leadingZeros, value_dropWhile]
  rfl

/-- A buffer whose length is a rounded fraction of the digits is long enough if the fraction is at
least the ratio of the logarithms. -/
theorem pow_le_of_ratio {p q : ℕ} (hq : 0 < q) (hratio : radix ^ q ≤ radix' ^ p) (h' : 0 < radix')
    (n : ℕ) : radix ^ n ≤ radix' ^ (n * p / q + 1) := by
  have hexp : n * p ≤ q * (n * p / q + 1) := by
    have hdivision := Nat.div_add_mod (n * p) q
    have hmod := Nat.mod_lt (n * p) hq
    rw [Nat.mul_add]
    omega
  apply (Nat.pow_le_pow_iff_left (by omega : q ≠ 0)).mp
  calc (radix ^ n) ^ q = (radix ^ q) ^ n := by rw [← pow_mul, ← pow_mul, Nat.mul_comm]
    _ ≤ (radix' ^ p) ^ n := Nat.pow_le_pow_left hratio n
    _ = radix' ^ (n * p) := by rw [← pow_mul, Nat.mul_comm]
    _ ≤ radix' ^ (q * (n * p / q + 1)) := Nat.pow_le_pow_right h' hexp
    _ = (radix' ^ (n * p / q + 1)) ^ q := by rw [← pow_mul, Nat.mul_comm]

end Positional
