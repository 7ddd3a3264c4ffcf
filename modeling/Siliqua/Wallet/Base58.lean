import Mathlib.Data.List.GetD
import Siliqua.Base.Positional
import Siliqua.Crypto.Picosha2
import Siliqua.Wallet.Signing

/-!
# Base58 and addresses

`wallet/base58.h`: bytes as base 58 strings and back, and addresses with a version byte and a
checksum. Strings are lists of ASCII bytes. The buffers are kept as the loops walk over them, from
the back; every `uint8_t` in them is a remainder below 256, so they hold numbers. No vector has the
`2^57` bytes at which the sizes would leave `size_t`.
-/

namespace Siliqua.Wallet

open Positional

/-- `base58.h:17`. -/
def BASE58_ALPHABET : Bytes :=
  (['1', '2', '3', '4', '5', '6', '7', '8', '9', 'A', 'B', 'C', 'D', 'E', 'F', 'G', 'H', 'J', 'K',
    'L', 'M', 'N', 'P', 'Q', 'R', 'S', 'T', 'U', 'V', 'W', 'X', 'Y', 'Z', 'a', 'b', 'c', 'd', 'e',
    'f', 'g', 'h', 'i', 'j', 'k', 'm', 'n', 'o', 'p', 'q', 'r', 's', 't', 'u', 'v', 'w', 'x', 'y',
    'z'] : List Char).map fun c ↦ UInt8.ofNat c.toNat

/-- `base58.h:21`. -/
def ADDRESS_VERSION_BYTE : UInt8 := 0x1E

/-- The character `'1'`. -/
def ONE : UInt8 := 49

/-- `std::strchr`: where the character stands in a string, its terminating zero included. -/
def strchr (text : Bytes) (c : UInt8) : Option ℕ := (text ++ [0]).findIdx? (· == c)

/-- The loop over the bytes, into a buffer of the given size; `base58.h:33–44`. -/
def encodeLoop (size : ℕ) (input : Bytes) : List ℕ × ℕ :=
  input.foldl (fun s b ↦ mulAdd 58 256 s.2 b.toNat 0 s.1) (List.replicate size 0, 0)

/-- Buffer size for some bytes. -/
def digitsSize (n : ℕ) : ℕ := n * 138 / 100 + 1

/-- `base58.h:26–56`. -/
def base58Encode (input : Bytes) : Bytes :=
  let leadingZeros := (input.takeWhile (· == 0)).length
  let rest := input.drop leadingZeros
  let (digits, length) := encodeLoop (digitsSize rest.length) rest
  List.replicate leadingZeros ONE ++
    ((digits.take length).reverse.dropWhile (· == 0)).map fun d ↦ BASE58_ALPHABET.getD d 0

/-- One turn of the loop over the characters; `base58.h:71–82`. -/
def decodeChar (s : List ℕ × ℕ) (c : UInt8) : Except String (List ℕ × ℕ) :=
  match strchr BASE58_ALPHABET c with
  | none => .error "base58_decode: invalid character in input"
  | some pos =>
    if c = 0 then .error "base58_decode: invalid character in input"
    else .ok (mulAdd 256 58 s.2 pos 0 s.1)

/-- The loop over the characters, into a buffer of the given size; `base58.h:68–83`. -/
def decodeLoop (size : ℕ) (str : Bytes) : Except String (List ℕ × ℕ) :=
  str.foldlM decodeChar (List.replicate size 0, 0)

/-- Buffer size for some characters. -/
def bytesSize (n : ℕ) : ℕ := n * 733 / 1000 + 1

/-- `base58.h:61–93`. -/
def base58Decode (str : Bytes) : Except String Bytes := do
  let leadingOnes := (str.takeWhile (· == ONE)).length
  let rest := str.drop leadingOnes
  let (bytes, length) ← decodeLoop (bytesSize rest.length) rest
  pure (List.replicate leadingOnes 0 ++
    ((bytes.take length).reverse.dropWhile (· == 0)).map UInt8.ofNat)

section

variable [Crypto]

/-- `base58.h:100–110`. -/
def encodeAddress (address : Address) : Bytes :=
  let payload := ADDRESS_VERSION_BYTE :: address.toList
  let checksum := hashDoubleSha256 payload
  base58Encode (payload ++ checksum.toList.take 4)

/-- `base58.h:116–135`. -/
def decodeAddress (text : Bytes) : Except String Address :=
  match base58Decode text with
  | .error e => .error e
  | .ok decoded =>
    if h : decoded.length = 1 + ADDRESS_SIZE + 4 then
      if decoded[0] ≠ ADDRESS_VERSION_BYTE then
        .error "decode_address: not a Siliqua address (wrong version byte)"
      else
        let payload := decoded.take (decoded.length - 4)
        let checksum := hashDoubleSha256 payload
        if decoded.drop (decoded.length - 4) ≠ checksum.toList.take 4 then
          .error "decode_address: checksum mismatch (typo?)"
        else .ok ⟨(decoded.drop 1).take ADDRESS_SIZE, by
          rw [List.length_take, List.length_drop, h, ADDRESS_SIZE]
          rfl⟩
    else .error "decode_address: wrong length for a Siliqua address"

end

/-! ## The alphabet -/

/-- The character of a digit. -/
def base58Char (d : ℕ) : UInt8 := BASE58_ALPHABET.getD d 0

theorem strchr_base58Char {d : ℕ} (h : d < 58) :
    strchr BASE58_ALPHABET (base58Char d) = some d ∧ base58Char d ≠ 0 := by
  have hall : ∀ d < 58, strchr BASE58_ALPHABET (base58Char d) = some d ∧ base58Char d ≠ 0 := by
    decide +kernel
  exact hall d h

/-- The characters of the alphabet are those of the digits. -/
theorem mem_alphabet_iff {c : UInt8} : c ∈ BASE58_ALPHABET ↔ ∃ d < 58, base58Char d = c := by
  have hlen : BASE58_ALPHABET.length = 58 := by decide
  rw [List.mem_iff_getElem]
  constructor
  · rintro ⟨d, hd, rfl⟩
    exact ⟨d, by omega, List.getD_eq_getElem _ _ hd⟩
  · rintro ⟨d, hd, rfl⟩
    exact ⟨d, by omega, (List.getD_eq_getElem _ _ _).symm⟩

/-- Any other character is refused, the terminating zero too. -/
theorem decodeChar_eq {s : List ℕ × ℕ} {c : UInt8} :
    (c ∉ BASE58_ALPHABET → ∃ e, decodeChar s c = .error e) ∧
      ∀ d < 58, base58Char d = c → decodeChar s c = .ok (mulAdd 256 58 s.2 d 0 s.1) := by
  constructor
  · intro hc
    unfold decodeChar
    split
    · exact ⟨_, rfl⟩
    · next pos hpos =>
      obtain ⟨hlt, heq, -⟩ := List.findIdx?_eq_some_iff_getElem.mp hpos
      have hmem := List.getElem_mem hlt
      rw [beq_iff_eq.mp heq, List.mem_append, List.mem_singleton] at hmem
      rw [if_pos (hmem.resolve_left hc)]
      exact ⟨_, rfl⟩
  · rintro d hd rfl
    obtain ⟨hpos, hne⟩ := strchr_base58Char hd
    rw [decodeChar, hpos]
    dsimp only
    rw [if_neg hne]

/-- A string over the alphabet is a string of digits. -/
theorem exists_digits {str : Bytes} (h : ∀ c ∈ str, c ∈ BASE58_ALPHABET) :
    ∃ digits : List ℕ, (∀ d ∈ digits, d < 58) ∧ digits.map base58Char = str := by
  induction str with
  | nil => exact ⟨[], by simp, rfl⟩
  | cons c rest ih =>
    obtain ⟨hc, hrest⟩ := List.forall_mem_cons.mp h
    obtain ⟨d, hd, rfl⟩ := mem_alphabet_iff.mp hc
    obtain ⟨digits, hdigits, rfl⟩ := ih hrest
    exact ⟨d :: digits, List.forall_mem_cons.mpr ⟨hd, hdigits⟩, rfl⟩

/-- The characters `'1'` in front are the zeros in front. -/
theorem length_takeWhile_ONE (digits : List ℕ) :
    ((digits.map base58Char).takeWhile (· == ONE)).length = leadingZeros digits := by
  have hzero : ((· == ONE) ∘ base58Char) = ((· == 0) : ℕ → Bool) := by
    funext d
    by_cases hd : d < 58
    · have hall : ∀ d < 58, (base58Char d == ONE) = (d == 0) := by decide +kernel
      exact hall d hd
    · have hdefault : base58Char d = 0 := List.getD_eq_default _ _ (Nat.le_of_not_lt hd)
      have hne : d ≠ 0 := by omega
      show (base58Char d == ONE) = (d == 0)
      rw [hdefault, beq_eq_false_iff_ne.mpr hne]
      rfl
  rw [List.takeWhile_map, hzero, List.length_map]
  rfl

/-! ## The loops -/

theorem encodeLoop_eq (size : ℕ) (input : Bytes) :
    encodeLoop size input = convertInto 58 256 size (input.map UInt8.toNat) := by
  rw [encodeLoop, convertInto, List.foldl_map]

private theorem toNat_lt_of_mem {input : Bytes} {d : ℕ} (h : d ∈ input.map UInt8.toNat) :
    d < 256 := by
  obtain ⟨b, -, rfl⟩ := List.mem_map.mp h
  exact b.toNat_lt

/-- After each byte the buffer holds the number of the bytes so far. -/
theorem encodeLoop_holds (input rest : Bytes) :
    let s := encodeLoop (digitsSize (input ++ rest).length) input
    Holds 58 s.1 s.2 (value 256 (input.map UInt8.toNat)) := by
  have hsize : 256 ^ (input.map UInt8.toNat).length ≤ 58 ^ digitsSize (input ++ rest).length := by
    rw [List.length_map]
    apply Nat.le_trans (Nat.pow_le_pow_right (by decide) (List.length_append ▸ Nat.le_add_right ..))
    exact pow_le_of_ratio (by decide) (by decide +kernel) (by decide) _
  rw [encodeLoop_eq]
  exact (convertInto_spec (by decide) (by decide) (fun d ↦ toNat_lt_of_mem) hsize).2

theorem decodeLoop_eq (size : ℕ) {digits : List ℕ} (hd : ∀ d ∈ digits, d < 58) :
    decodeLoop size (digits.map base58Char) = .ok (convertInto 256 58 size digits) := by
  have hfold (s : List ℕ × ℕ) : (digits.map base58Char).foldlM decodeChar s =
      .ok (digits.foldl (fun s digit ↦ mulAdd 256 58 s.2 digit 0 s.1) s) := by
    induction digits generalizing s with
    | nil => rfl
    | cons d rest ih =>
      obtain ⟨hd, hrest⟩ := List.forall_mem_cons.mp hd
      rw [List.map_cons, List.foldlM_cons, decodeChar_eq.2 d hd rfl]
      exact ih hrest _
  exact hfold _

/-- After each character the buffer holds the number of the digits so far. -/
theorem decodeLoop_holds {digits : List ℕ} (hd : ∀ d ∈ digits, d < 58) (rest : Bytes) :
    ∃ s, decodeLoop (bytesSize (digits.map base58Char ++ rest).length) (digits.map base58Char) =
      .ok s ∧ Holds 256 s.1 s.2 (value 58 digits) := by
  refine ⟨_, decodeLoop_eq _ hd, ?_⟩
  have hsize : 58 ^ digits.length ≤ 256 ^ bytesSize (digits.map base58Char ++ rest).length := by
    rw [List.length_append, List.length_map]
    apply Nat.le_trans (Nat.pow_le_pow_right (by decide) (Nat.le_add_right _ _))
    exact pow_le_of_ratio (by decide) (by decide +kernel) (by decide) _
  exact (convertInto_spec (by decide) (by decide) hd hsize).2

/-- A character outside the alphabet stops the loop. -/
theorem decodeLoop_eq_error {str : Bytes} (h : ∃ c ∈ str, c ∉ BASE58_ALPHABET) (size : ℕ) :
    ∃ e, decodeLoop size str = .error e := by
  have hfold (s : List ℕ × ℕ) : ∃ e, str.foldlM decodeChar s = .error e := by
    induction str generalizing s with
    | nil =>
      obtain ⟨c, hc, -⟩ := h
      cases hc
    | cons c rest ih =>
      rw [List.foldlM_cons]
      by_cases hc : c ∈ BASE58_ALPHABET
      · obtain ⟨d, hd, rfl⟩ := mem_alphabet_iff.mp hc
        obtain ⟨c', hmem, hbad⟩ := h
        have hrest : c' ∈ rest := (List.mem_cons.mp hmem).resolve_left fun heq ↦ hbad (heq ▸ hc)
        rw [decodeChar_eq.2 d hd rfl]
        exact ih ⟨c', hrest, hbad⟩ _
      · obtain ⟨e, he⟩ := (decodeChar_eq (s := s)).1 hc
        exact ⟨e, by rw [he]; rfl⟩
  exact hfold _

/-! ## Both directions are conversions -/

/-- Encoding rewrites base 256 in base 58. -/
theorem base58Encode_eq (input : Bytes) :
    base58Encode input = (convert 256 58 (input.map UInt8.toNat)).map base58Char := by
  have hzeros : (input.takeWhile (· == 0)).length = leadingZeros (input.map UInt8.toNat) := by
    have hzero : ((· == 0) ∘ UInt8.toNat) = ((· == 0) : UInt8 → Bool) := by
      funext b
      rw [Bool.eq_iff_iff, Function.comp_apply, beq_iff_eq, beq_iff_eq, ← UInt8.toNat_inj]
      rfl
    rw [leadingZeros, List.takeWhile_map, hzero, List.length_map]
  have hholds := encodeLoop_holds (input.drop (leadingZeros (input.map UInt8.toNat))) []
  rw [List.append_nil, List.map_drop] at hholds
  rw [base58Encode, hzeros, ← convert_eq (by decide) hholds, List.map_append, List.map_replicate]
  rfl

/-- `"12g"`. -/
example : base58Encode [0, 97] = [49, 50, 103] := by decide

/-- Decoding rewrites base 58 in base 256. -/
theorem base58Decode_eq {digits : List ℕ} (hd : ∀ d ∈ digits, d < 58) :
    base58Decode (digits.map base58Char) =
      .ok ((convert 58 256 digits).map UInt8.ofNat) := by
  have hrest : ∀ d ∈ digits.drop (leadingZeros digits), d < 58 := fun d hmem ↦
    hd d (List.mem_of_mem_drop hmem)
  obtain ⟨s, hloop, hholds⟩ := decodeLoop_holds hrest []
  rw [List.append_nil] at hloop
  rw [base58Decode, length_takeWhile_ONE, ← List.map_drop, hloop, ← convert_eq (by decide) hholds,
    List.map_append, List.map_replicate]
  rfl

/-- Decoding refuses what has a character outside the alphabet. -/
theorem base58Decode_eq_error {str : Bytes} (h : ∃ c ∈ str, c ∉ BASE58_ALPHABET) :
    ∃ e, base58Decode str = .error e := by
  obtain ⟨c, hc, hbad⟩ := h
  have hdrop : c ∈ str.drop (str.takeWhile (· == ONE)).length := by
    have hsplit := List.takeWhile_append_dropWhile (p := (· == ONE)) (l := str)
    have hmem : c ∈ str.takeWhile (· == ONE) ∨ c ∈ str.dropWhile (· == ONE) := by
      rw [← List.mem_append, hsplit]
      exact hc
    have hrest : str.drop (str.takeWhile (· == ONE)).length = str.dropWhile (· == ONE) := by
      conv_lhs => rw [← hsplit]
      exact List.drop_left' (by rw [hsplit])
    rw [hrest]
    refine hmem.resolve_left fun hone ↦ hbad ?_
    rw [beq_iff_eq.mp (List.mem_takeWhile_imp (p := (· == ONE)) hone)]
    decide
  obtain ⟨e, he⟩ := decodeLoop_eq_error ⟨c, hdrop, hbad⟩
    (bytesSize (str.drop (str.takeWhile (· == ONE)).length).length)
  rw [base58Decode, he]
  exact ⟨e, rfl⟩

/-! ## Round trips -/

private theorem map_ofNat_toNat (bytes : Bytes) :
    (bytes.map UInt8.toNat).map UInt8.ofNat = bytes := by
  rw [List.map_map]
  conv_rhs => rw [← List.map_id bytes]
  exact List.map_congr_left fun b _ ↦ UInt8.ofNat_toNat

private theorem map_toNat_ofNat {digits : List ℕ} (h : ∀ d ∈ digits, d < 256) :
    (digits.map UInt8.ofNat).map UInt8.toNat = digits := by
  rw [List.map_map]
  conv_rhs => rw [← List.map_id digits]
  exact List.map_congr_left fun d hd ↦ UInt8.toNat_ofNat_of_lt' (h d hd)

theorem base58Decode_base58Encode (bytes : Bytes) :
    base58Decode (base58Encode bytes) = .ok bytes := by
  have hdigits : ∀ d ∈ convert 256 58 (bytes.map UInt8.toNat), d < 58 := fun d hd ↦
    lt_of_mem_numeral (by decide) hd
  rw [base58Encode_eq, base58Decode_eq hdigits,
    convert_convert (by decide) (by decide) fun d ↦ toNat_lt_of_mem, map_ofNat_toNat]

/-- Decoding fails exactly on a character outside the alphabet, and is undone by encoding. -/
theorem base58Decode_cases (str : Bytes) :
    ((∃ c ∈ str, c ∉ BASE58_ALPHABET) ∧ ∃ e, base58Decode str = .error e) ∨
      ((∀ c ∈ str, c ∈ BASE58_ALPHABET) ∧
        ∃ bytes, base58Decode str = .ok bytes ∧ base58Encode bytes = str) := by
  by_cases hbad : ∃ c ∈ str, c ∉ BASE58_ALPHABET
  · exact .inl ⟨hbad, base58Decode_eq_error hbad⟩
  · have hall : ∀ c ∈ str, c ∈ BASE58_ALPHABET := fun c hc ↦ by
      by_contra hno
      exact hbad ⟨c, hc, hno⟩
    obtain ⟨digits, hdigits, rfl⟩ := exists_digits hall
    have hbytes : ∀ d ∈ convert 58 256 digits, d < 256 := fun d hd ↦
      lt_of_mem_numeral (by decide) hd
    refine .inr ⟨hall, _, base58Decode_eq hdigits, ?_⟩
    rw [base58Encode_eq, map_toNat_ofNat hbytes, convert_convert (by decide) (by decide) hdigits]

theorem base58Encode_of_base58Decode {str bytes : Bytes} (h : base58Decode str = .ok bytes) :
    base58Encode bytes = str := by
  rcases base58Decode_cases str with ⟨-, e, he⟩ | ⟨-, found, hok, hstr⟩
  · rw [he] at h
    cases h
  · rw [hok, Except.ok.injEq] at h
    rwa [← h]

section

variable [Crypto]

/-- What `encode_address` hands to `base58_encode`. -/
private def checked (address : Address) : Bytes :=
  ADDRESS_VERSION_BYTE :: address.toList ++
    (hashDoubleSha256 (ADDRESS_VERSION_BYTE :: address.toList)).toList.take 4

private theorem length_checked (address : Address) : (checked address).length = 25 := by
  simp [checked]

/-- Bytes pass the checks of `decode_address` if they are those of an address. -/
private theorem decodeAddress_of_base58Decode {text decoded : Bytes} {address : Address}
    (h : base58Decode text = .ok decoded) :
    decodeAddress text = .ok address ↔ decoded = checked address := by
  unfold decodeAddress
  rw [h]
  dsimp only
  constructor
  · intro hok
    split at hok
    · next hlen =>
      split at hok
      · cases hok
      next hversion =>
      split at hok
      · cases hok
      next hsum =>
      rw [ne_eq, Decidable.not_not] at hversion hsum
      cases hok
      obtain ⟨version, rest, rfl⟩ := List.exists_cons_of_length_eq_add_one hlen
      have hrest : rest.length = 24 := by simpa [ADDRESS_SIZE] using hlen
      have hpayload : (version :: rest).take 21 = version :: rest.take 20 := rfl
      rw [List.length_cons, hrest] at hsum
      simp only [Nat.reduceAdd, Nat.reduceSub, hpayload] at hsum
      rw [List.getElem_cons_zero] at hversion
      subst hversion
      calc ADDRESS_VERSION_BYTE :: rest
        _ = (ADDRESS_VERSION_BYTE :: rest).take 21 ++ (ADDRESS_VERSION_BYTE :: rest).drop 21 :=
          (List.take_append_drop 21 _).symm
        _ = ADDRESS_VERSION_BYTE :: rest.take 20 ++
            (hashDoubleSha256 (ADDRESS_VERSION_BYTE :: rest.take 20)).toList.take 4 := by
          rw [hsum, hpayload]
    · cases hok
  · rintro rfl
    have hlen : (checked address).length = 1 + ADDRESS_SIZE + 4 := length_checked address
    have hpayload : (checked address).take ((checked address).length - 4) =
        ADDRESS_VERSION_BYTE :: address.toList := by
      rw [length_checked]
      exact List.take_left' (by simp)
    have hsum : (checked address).drop ((checked address).length - 4) =
        (hashDoubleSha256 (ADDRESS_VERSION_BYTE :: address.toList)).toList.take 4 := by
      rw [length_checked]
      exact List.drop_left' (by simp)
    rw [dif_pos hlen, if_neg (by simp [checked]), hpayload, hsum, if_neg (by simp)]
    congr 1
    apply Subtype.ext
    exact List.take_left' (by simp [ADDRESS_SIZE])

/-- An address has one spelling. -/
theorem decodeAddress_eq_ok_iff {text : Bytes} {address : Address} :
    decodeAddress text = .ok address ↔ text = encodeAddress address := by
  constructor
  · intro h
    cases hd : base58Decode text with
    | error e =>
      rw [decodeAddress, hd] at h
      cases h
    | ok decoded =>
      obtain rfl := (decodeAddress_of_base58Decode hd).mp h
      exact (base58Encode_of_base58Decode hd).symm
  · rintro rfl
    exact (decodeAddress_of_base58Decode (base58Decode_base58Encode (checked address))).mpr rfl

end

/-- Base58 is a bijection between byte strings and strings over its alphabet, on the way the
buffers always hold the whole number of what was read, and addresses have one spelling. -/
theorem base58_bijective :
    (∀ bytes, base58Decode (base58Encode bytes) = .ok bytes) ∧
    (∀ str, (∃ e, base58Decode str = .error e) ↔ ∃ c ∈ str, c ∉ BASE58_ALPHABET) ∧
    (∀ str bytes, base58Decode str = .ok bytes → base58Encode bytes = str) ∧
    (∀ input rest,
      Nat.ofDigits 58 (encodeLoop (digitsSize (input ++ rest).length) input).1 =
        value 256 (input.map UInt8.toNat)) ∧
    (∀ (digits : List ℕ) (rest : Bytes), (∀ d ∈ digits, d < 58) →
      ∃ s, decodeLoop (bytesSize (digits.map base58Char ++ rest).length)
          (digits.map base58Char) = .ok s ∧ Nat.ofDigits 256 s.1 = value 58 digits) ∧
    ∀ [Crypto] (text : Bytes) (address : Address),
      decodeAddress text = .ok address ↔ text = encodeAddress address := by
  refine ⟨base58Decode_base58Encode, fun str ↦ ?_, fun str bytes ↦ base58Encode_of_base58Decode,
    fun input rest ↦ (encodeLoop_holds input rest).value, fun digits rest hd ↦ ?_,
    fun text address ↦ decodeAddress_eq_ok_iff⟩
  · rcases base58Decode_cases str with ⟨hbad, herror⟩ | ⟨hall, bytes, hok, -⟩
    · exact ⟨fun _ ↦ hbad, fun _ ↦ herror⟩
    · constructor
      · rintro ⟨e, he⟩
        rw [hok] at he
        cases he
      · rintro ⟨c, hc, hbad⟩
        exact absurd (hall c hc) hbad
  · obtain ⟨s, hloop, hholds⟩ := decodeLoop_holds hd rest
    exact ⟨s, hloop, hholds.value⟩

end Siliqua.Wallet
