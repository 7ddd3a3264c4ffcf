import Mathlib.Data.Nat.Digits.Defs
import Siliqua.Base.BlockFold
import Siliqua.Crypto.Picosha2

/-!
# SHA-256 one piece at a time

`hash256_one_by_one`, the hasher behind every hash of the node: a buffer that never fills a block,
the length so far in four digits of 16 bits, and the digest of the blocks so far. A message has the
same hash in any pieces, and it is the hash of the standard's padded message, block after block.
-/

namespace Siliqua.Picosha2

open BlockFold

/-! ## The length -/

/-- The loop of `add_to_data_length`; `picosha2.h:249–257`. -/
def addCarry : Word → List Word → List Word
  | _, [] => []
  | carry, digit :: rest =>
    let digit := digit + carry
    if 65536 ≤ digit then digit % 65536 :: addCarry (digit >>> 16) rest else digit :: rest

/-- The loop of `write_data_bit_length`; `picosha2.h:264–271`. -/
def bitLengthDigits : Word → List Word → List Word
  | _, [] => []
  | carry, beforeVal :: rest =>
    (beforeVal <<< 3 ||| carry) % 65536 :: bitLengthDigits ((beforeVal >>> (16 - 3)) % 65536) rest

/-- The length in bits, highest byte first; `picosha2.h:259–278`. -/
def writeDataBitLength (digits : List Word) : Bytes :=
  (bitLengthDigits 0 digits).reverse.flatMap fun digit ↦
    [UInt8.ofNat (digit >>> 8), UInt8.ofNat digit]

theorem length_addCarry (carry : Nat) (digits : List Nat) :
    (addCarry carry digits).length = digits.length := by
  induction digits generalizing carry with
  | nil => rfl
  | cons digit rest ih =>
    rw [addCarry]
    split
    · rw [List.length_cons, ih, List.length_cons]
    · rfl

theorem addCarry_lt {carry : Nat} {digits : List Nat} (h : ∀ digit ∈ digits, digit < 65536) :
    ∀ digit ∈ addCarry carry digits, digit < 65536 := by
  induction digits generalizing carry with
  | nil => exact h
  | cons digit rest ih =>
    rw [List.forall_mem_cons] at h
    rw [addCarry]
    split
    · exact List.forall_mem_cons.mpr ⟨Nat.mod_lt _ (by decide), ih h.2⟩
    · next hlt => exact List.forall_mem_cons.mpr ⟨Nat.not_le.mp hlt, h.2⟩

/-- The digits count with carries; what does not fit is dropped. -/
theorem ofDigits_addCarry {carry : Nat} {digits : List Nat}
    (h : ∀ digit ∈ digits, digit < 65536) :
    Nat.ofDigits 65536 (addCarry carry digits) =
      (carry + Nat.ofDigits 65536 digits) % 65536 ^ digits.length := by
  induction digits generalizing carry with
  | nil => rw [addCarry, Nat.ofDigits_nil, List.length_nil, Nat.pow_zero, Nat.mod_one]
  | cons digit rest ih =>
    rw [List.forall_mem_cons] at h
    have hrest := Nat.ofDigits_lt_base_pow_length (by decide : 1 < 65536) h.2
    rw [addCarry]
    split
    · have hlow : (carry + (digit + 65536 * Nat.ofDigits 65536 rest)) % 65536 =
          (digit + carry) % 65536 := by omega
      have hhigh : (carry + (digit + 65536 * Nat.ofDigits 65536 rest)) / 65536 =
          (digit + carry) / 2 ^ 16 + Nat.ofDigits 65536 rest := by omega
      rw [Nat.ofDigits_cons, ih h.2, Nat.ofDigits_cons, List.length_cons, Nat.pow_succ',
        Nat.mod_mul, Nat.shiftRight_eq_div_pow, hlow, hhigh]
    · next hstop =>
      have hsum : digit + carry < 65536 := Nat.not_le.mp hstop
      rw [Nat.ofDigits_cons, Nat.ofDigits_cons, List.length_cons, Nat.pow_succ', Nat.mod_eq_of_lt]
      · omega
      · omega

/-- So does the shift by three bits. -/
theorem ofDigits_bitLengthDigits {carry : Nat} {digits : List Nat} (hcarry : carry < 8)
    (h : ∀ digit ∈ digits, digit < 65536) :
    Nat.ofDigits 65536 (bitLengthDigits carry digits) =
      (carry + 8 * Nat.ofDigits 65536 digits) % 65536 ^ digits.length := by
  induction digits generalizing carry with
  | nil =>
    rw [bitLengthDigits, Nat.ofDigits_nil, List.length_nil, Nat.pow_zero, Nat.mod_one]
  | cons beforeVal rest ih =>
    rw [List.forall_mem_cons] at h
    have hshift : beforeVal <<< 3 ||| carry = beforeVal * 8 + carry := by
      rw [← Nat.shiftLeft_add_eq_or_of_lt hcarry, Nat.shiftLeft_eq]
    have hnext : (beforeVal >>> (16 - 3)) % 65536 = beforeVal / 8192 := by
      rw [Nat.shiftRight_eq_div_pow]
      omega
    have hlow : (carry + 8 * (beforeVal + 65536 * Nat.ofDigits 65536 rest)) % 65536 =
        (beforeVal * 8 + carry) % 65536 := by omega
    have hhigh : (carry + 8 * (beforeVal + 65536 * Nat.ofDigits 65536 rest)) / 65536 =
        beforeVal / 8192 + 8 * Nat.ofDigits 65536 rest := by omega
    rw [bitLengthDigits, hshift, hnext, Nat.ofDigits_cons, ih (by omega) h.2, Nat.ofDigits_cons,
      List.length_cons, Nat.pow_succ', Nat.mod_mul, hlow, hhigh]

theorem length_bitLengthDigits (carry : Nat) (digits : List Nat) :
    (bitLengthDigits carry digits).length = digits.length := by
  induction digits generalizing carry with
  | nil => rfl
  | cons beforeVal rest ih => rw [bitLengthDigits, List.length_cons, ih, List.length_cons]

theorem bitLengthDigits_lt (carry : Nat) (digits : List Nat) :
    ∀ digit ∈ bitLengthDigits carry digits, digit < 65536 := by
  induction digits generalizing carry with
  | nil => exact List.forall_mem_nil _
  | cons beforeVal rest ih => exact List.forall_mem_cons.mpr ⟨Nat.mod_lt _ (by decide), ih _⟩

/-! ## Bytes of a number -/

theorem length_bigEndian (count n : Nat) : (bigEndian count n).length = count := by
  rw [bigEndian, List.length_map, List.length_range]

/-- The last byte is the lowest one. -/
theorem bigEndian_succ (count n : Nat) :
    bigEndian (count + 1) n = bigEndian count (n / 256) ++ [UInt8.ofNat n] := by
  rw [bigEndian, List.range_succ, List.map_append, List.map_singleton, bigEndian]
  congr 1
  · apply List.map_congr_left
    intro i hi
    have hlt := List.mem_range.mp hi
    have hshift : 8 * (count + 1 - 1 - i) = 8 + 8 * (count - 1 - i) := by omega
    rw [hshift, Nat.shiftRight_add, Nat.shiftRight_eq_div_pow n 8]
  · rw [Nat.add_sub_cancel, Nat.sub_self, Nat.mul_zero, Nat.shiftRight_zero]

private theorem ofNat_congr {m n : Nat} (h : m % 256 = n % 256) :
    UInt8.ofNat m = UInt8.ofNat n := by
  apply UInt8.toNat_inj.mp
  rw [UInt8.toNat_ofNat', UInt8.toNat_ofNat']
  exact h

/-- Higher bytes than are written do not matter. -/
theorem bigEndian_mod (count n : Nat) : bigEndian count (n % 256 ^ count) = bigEndian count n := by
  induction count generalizing n with
  | zero => rfl
  | succ count ih =>
    have hdiv : n % 256 ^ (count + 1) / 256 = n / 256 % 256 ^ count := by
      rw [Nat.pow_succ', Nat.mod_mul_right_div_self]
    have hmod : n % 256 ^ (count + 1) % 256 = n % 256 := by
      rw [Nat.pow_succ', Nat.mod_mul_right_mod]
    rw [bigEndian_succ, hdiv, ih, ofNat_congr hmod, ← bigEndian_succ]

/-- Digits of 16 bits are two bytes each. -/
theorem flatMap_digits {digits : List Nat} (h : ∀ digit ∈ digits, digit < 65536) :
    (digits.reverse.flatMap fun digit ↦ [UInt8.ofNat (digit >>> 8), UInt8.ofNat digit]) =
      bigEndian (2 * digits.length) (Nat.ofDigits 65536 digits) := by
  induction digits with
  | nil => rfl
  | cons digit rest ih =>
    rw [List.forall_mem_cons] at h
    have hhigh : (digit + 65536 * Nat.ofDigits 65536 rest) / 256 / 256 =
        Nat.ofDigits 65536 rest := by omega
    rw [List.reverse_cons, List.flatMap_append, ih h.2, List.length_cons, Nat.mul_succ,
      bigEndian_succ, bigEndian_succ, Nat.ofDigits_cons, hhigh, List.append_assoc,
      List.flatMap_singleton, Nat.shiftRight_eq_div_pow]
    congr 1
    exact congrArg₂ (fun a b ↦ [a, b]) (ofNat_congr (by omega)) (ofNat_congr (by omega))

/-- Four digits of a length are written as the length in bits. -/
theorem writeDataBitLength_eq {digits : List Nat} {n : Nat} (hlen : digits.length = 4)
    (h : ∀ digit ∈ digits, digit < 65536) (hvalue : Nat.ofDigits 65536 digits = n % 2 ^ 64) :
    writeDataBitLength digits = bigEndian 8 (8 * n) := by
  have hbits : Nat.ofDigits 65536 (bitLengthDigits 0 digits) = 8 * n % 256 ^ 8 := by
    rw [ofDigits_bitLengthDigits (by decide) h, hvalue, hlen]
    omega
  rw [writeDataBitLength, flatMap_digits (bitLengthDigits_lt 0 digits), length_bitLengthDigits,
    hlen, hbits, bigEndian_mod]

/-! ## The count -/

/-- `data_length_digits_`, lowest digit first; `picosha2.h:281`. -/
structure DataLength where
  digits : List Word
  length_eq : digits.length = 4
  lt : ∀ digit ∈ digits, digit < 65536

namespace DataLength

/-- No length yet. -/
def zero : DataLength := ⟨[0, 0, 0, 0], rfl, by decide⟩

/-- `picosha2.h:246–258`. A message is shorter than a word can count, so the first sum is not
cut. -/
def add (n : Word) (length : DataLength) : DataLength where
  digits := addCarry n length.digits
  length_eq := (length_addCarry _ _).trans length.length_eq
  lt := addCarry_lt length.lt

/-- The length modulo `2^64`. -/
def value (length : DataLength) : Nat := Nat.ofDigits 65536 length.digits

end DataLength

/-! ## The hasher -/

/-- `hash256_one_by_one`; `picosha2.h:182–283`. -/
structure Hash256OneByOne where
  buffer : Bytes
  dataLength : DataLength
  h : Digest
  remains : buffer.length < 64

namespace Hash256OneByOne

/-- `picosha2.h:186–191`. -/
def init : Hash256OneByOne := ⟨[], DataLength.zero, initialMessageDigest, by decide⟩

/-- `picosha2.h:194–203`. -/
def process (s : Hash256OneByOne) (data : Bytes) : Hash256OneByOne where
  buffer := leftover 64 (s.buffer ++ data)
  dataLength := s.dataLength.add data.length
  h := (wholeBlocks 64 (s.buffer ++ data)).foldl hash256Block s.h
  remains := length_leftover_lt (by decide) _

/-- The digest behind the padding; `picosha2.h:205–233`. -/
def finish (s : Hash256OneByOne) : Digest :=
  let remains := s.buffer.length
  let temp := s.buffer ++ 0x80 :: List.replicate (63 - remains) 0
  let length := writeDataBitLength s.dataLength.digits
  if 55 < remains then
    let temp' := List.replicate 60 0 ++ temp.drop 60
    hash256Block (hash256Block s.h temp) (temp'.take 56 ++ length)
  else hash256Block s.h (temp.take 56 ++ length)

end Hash256OneByOne

/-- What every `hash256` of the node comes to; `picosha2.h:299–307`. -/
def hash256Impl (data : Bytes) : Hash256 := getHashBytes (Hash256OneByOne.init.process data).finish

/-! ## Padding -/

/-- The message of the standard: the data, a one bit, zeros, and the length in bits. -/
def padded (data : Bytes) : Bytes :=
  data ++ 0x80 :: List.replicate ((119 - data.length % 64) % 64) 0 ++ bigEndian 8 (8 * data.length)

/-- The blocks of the padded message are the whole ones of the data and what the rest is padded
to. -/
theorem paddedBlocks_eq (bitLength : Bytes) (data : Bytes) :
    paddedBlocks bitLength (data.length / 64 + 1) data =
      wholeBlocks 64 data ++ paddedBlocks bitLength 1 (leftover 64 data) := by
  induction data using block_induction (by decide : 0 < 64) with
  | short data h =>
    rw [wholeBlocks_of_lt h, leftover_of_lt h, Nat.div_eq_of_lt h, List.nil_append]
  | block block data h ih =>
    have hlen : (block ++ data).length = data.length + 64 := by
      rw [List.length_append, h, Nat.add_comm]
    rw [wholeBlocks_block_append (by decide) h, leftover_block_append (by decide) h,
      List.cons_append, ← ih, hlen, Nat.add_div_right _ (by decide), paddedBlocks,
      if_pos (by omega), List.take_left' h, List.drop_left' h]

private theorem paddedBlocks_one {bitLength : Bytes} (hlen : bitLength.length = 8) {rest : Bytes}
    (h : rest.length < 64) :
    (∀ block ∈ paddedBlocks bitLength 1 rest, block.length = 64) ∧
      (paddedBlocks bitLength 1 rest).flatten =
        rest ++ 0x80 :: List.replicate ((119 - rest.length) % 64) 0 ++ bitLength := by
  rw [paddedBlocks, if_neg (Nat.not_le.mpr h)]
  split
  · next hlt =>
    refine ⟨?_, ?_⟩
    · simp only [List.mem_cons, List.not_mem_nil, or_false, forall_eq_or_imp, forall_eq,
        List.length_append, List.length_cons, List.length_replicate, hlen, and_true]
      omega
    · have hzeros : (119 - rest.length) % 64 = (63 - rest.length) + 56 := by omega
      rw [hzeros, ← List.replicate_append_replicate]
      simp only [List.flatten_cons, List.flatten_nil, List.append_nil, List.append_assoc,
        List.cons_append]
  · refine ⟨?_, ?_⟩
    · simp only [List.mem_cons, List.not_mem_nil, or_false, forall_eq,
        List.length_append, List.length_cons, List.length_replicate, hlen]
      omega
    · have hzeros : (119 - rest.length) % 64 = 55 - rest.length := by omega
      rw [hzeros]
      simp only [List.flatten_cons, List.flatten_nil, List.append_nil]

/-- The padded message consists of whole blocks, the ones that are hashed. -/
theorem wholeBlocks_padded (data : Bytes) :
    wholeBlocks 64 (padded data) =
        paddedBlocks (bigEndian 8 (8 * data.length)) (data.length / 64 + 1) data ∧
      leftover 64 (padded data) = [] := by
  obtain ⟨hblocks, hflatten⟩ := paddedBlocks_one (length_bigEndian 8 (8 * data.length))
    (length_leftover_lt (by decide) data)
  have hall : ∀ block ∈ paddedBlocks (bigEndian 8 (8 * data.length)) (data.length / 64 + 1) data,
      block.length = 64 := by
    rw [paddedBlocks_eq]
    intro block hmem
    rcases List.mem_append.mp hmem with hwhole | hpadding
    · exact length_of_mem_wholeBlocks (by decide) hwhole
    · exact hblocks block hpadding
  have hpadded : padded data =
      (paddedBlocks (bigEndian 8 (8 * data.length)) (data.length / 64 + 1) data).flatten := by
    rw [paddedBlocks_eq, List.flatten_append, hflatten, length_leftover, ← List.append_assoc,
      ← List.append_assoc, flatten_wholeBlocks_append (by decide), padded]
  rw [hpadded]
  exact wholeBlocks_flatten (by decide) hall

/-! ## Any pieces -/

/-- One piece after the other, the hasher folds the blocks of the whole. -/
theorem foldl_process (pieces : List Bytes) (s : Hash256OneByOne) :
    ((pieces.foldl Hash256OneByOne.process s).h,
        (pieces.foldl Hash256OneByOne.process s).buffer) =
      feed 64 hash256Block (s.h, s.buffer) pieces.flatten := by
  rw [← foldl_feed hash256Block (by decide) pieces s.remains]
  exact (List.foldl_hom (fun s : Hash256OneByOne ↦ (s.h, s.buffer)) fun _ _ ↦ rfl).symm

/-- And it counts the length of the whole. -/
theorem value_foldl_process (pieces : List Bytes) (s : Hash256OneByOne) :
    (pieces.foldl Hash256OneByOne.process s).dataLength.value =
      (s.dataLength.value + pieces.flatten.length) % 2 ^ 64 := by
  induction pieces generalizing s with
  | nil =>
    have hlt := Nat.ofDigits_lt_base_pow_length (by decide : 1 < 65536) s.dataLength.lt
    rw [s.dataLength.length_eq] at hlt
    exact (Nat.mod_eq_of_lt hlt).symm
  | cons piece pieces ih =>
    have hadd : (s.process piece).dataLength.value =
        (piece.length + s.dataLength.value) % 65536 ^ s.dataLength.digits.length :=
      ofDigits_addCarry s.dataLength.lt
    rw [s.dataLength.length_eq] at hadd
    rw [List.foldl_cons, ih, hadd, List.flatten_cons, List.length_append]
    omega

/-- Finishing folds the padding. -/
theorem Hash256OneByOne.finish_eq (s : Hash256OneByOne) :
    s.finish = (paddedBlocks (writeDataBitLength s.dataLength.digits) 1 s.buffer).foldl hash256Block
      s.h := by
  have hlt := s.remains
  rw [Hash256OneByOne.finish, paddedBlocks, if_neg (Nat.not_le.mpr hlt)]
  split
  -- of the second block only the length is not overwritten with zeros
  · rfl
  · next hle =>
    rw [List.foldl_cons, List.foldl_nil]
    congr 2
    have hzeros : 63 - s.buffer.length = (55 - s.buffer.length) + 8 := by omega
    have hfront : (s.buffer ++ 0x80 :: List.replicate (55 - s.buffer.length) 0).length = 56 := by
      rw [List.length_append, List.length_cons, List.length_replicate]
      omega
    rw [hzeros, ← List.replicate_append_replicate, ← List.cons_append, ← List.append_assoc,
      List.take_left' hfront]

/-- A hasher that has folded the blocks of a message and counted its length has its hash. -/
private theorem getHashBytes_finish {data : Bytes} {s : Hash256OneByOne}
    (hfold : (s.h, s.buffer) = feed 64 hash256Block (initialMessageDigest, []) data)
    (hlength : s.dataLength.value = data.length % 2 ^ 64) :
    getHashBytes s.finish = hash256 data := by
  obtain ⟨hh, hbuffer⟩ := Prod.mk.inj hfold
  rw [List.nil_append] at hh hbuffer
  rw [s.finish_eq, hbuffer, hh, hash256, paddedBlocks_eq, List.foldl_append,
    writeDataBitLength_eq s.dataLength.length_eq s.dataLength.lt hlength]

/-- In whatever pieces a message is fed, the hasher comes to the same: the compression of the
padded message, block after block. -/
theorem hash256OneByOne_spec (pieces : List Bytes) :
    getHashBytes (pieces.foldl Hash256OneByOne.process .init).finish =
        hash256Impl pieces.flatten ∧
      hash256Impl pieces.flatten = hash256 pieces.flatten ∧
      hash256 pieces.flatten =
        getHashBytes ((wholeBlocks 64 (padded pieces.flatten)).foldl hash256Block
          initialMessageDigest) ∧
      leftover 64 (padded pieces.flatten) = [] := by
  have hany (pieces : List Bytes) :
      getHashBytes (pieces.foldl Hash256OneByOne.process .init).finish =
        hash256 pieces.flatten := by
    refine getHashBytes_finish (foldl_process pieces .init) ?_
    rw [value_foldl_process]
    exact congrArg (· % 2 ^ 64) (Nat.zero_add _)
  have hwhole : hash256Impl pieces.flatten = hash256 pieces.flatten := by
    have hone := hany [pieces.flatten]
    rwa [List.flatten_singleton] at hone
  obtain ⟨hblocks, hleft⟩ := wholeBlocks_padded pieces.flatten
  refine ⟨?_, hwhole, ?_, hleft⟩
  · rw [hwhole]
    exact hany pieces
  · rw [hblocks]
    rfl

/-- `"abc"` in two pieces. -/
example : (getHashBytes ((Hash256OneByOne.init.process [97]).process [98, 99]).finish).toList =
    bigEndian 32 0xba7816bf8f01cfea414140de5dae2223b00361a396177a9cb410ff61f20015ad := by
  decide +kernel

end Siliqua.Picosha2
