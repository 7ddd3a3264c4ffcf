import Siliqua.Crypto.Primitives

/-!
# SHA-256 as the node computes it

`picosha2.h`, the bundled SHA-256. `word_t` is an `unsigned long`: every word that is kept is
masked to 32 bits and no sum in between reaches `2^64`, so words are natural numbers.
-/

namespace Siliqua.Picosha2

/-- `word_t`; `picosha2.h:40`. -/
abbrev Word := Nat

/-- `picosha2.h:48`. -/
def mask32bit (x : Word) : Word := x % 4294967296

/-- `picosha2.h:50–61`. -/
def addConstant : List Word := [
  0x428a2f98, 0x71374491, 0xb5c0fbcf, 0xe9b5dba5, 0x3956c25b, 0x59f111f1,
  0x923f82a4, 0xab1c5ed5, 0xd807aa98, 0x12835b01, 0x243185be, 0x550c7dc3,
  0x72be5d74, 0x80deb1fe, 0x9bdc06a7, 0xc19bf174, 0xe49b69c1, 0xefbe4786,
  0x0fc19dc6, 0x240ca1cc, 0x2de92c6f, 0x4a7484aa, 0x5cb0a9dc, 0x76f988da,
  0x983e5152, 0xa831c66d, 0xb00327c8, 0xbf597fc7, 0xc6e00bf3, 0xd5a79147,
  0x06ca6351, 0x14292967, 0x27b70a85, 0x2e1b2138, 0x4d2c6dfc, 0x53380d13,
  0x650a7354, 0x766a0abb, 0x81c2c92e, 0x92722c85, 0xa2bfe8a1, 0xa81a664b,
  0xc24b8b70, 0xc76c51a3, 0xd192e819, 0xd6990624, 0xf40e3585, 0x106aa070,
  0x19a4c116, 0x1e376c08, 0x2748774c, 0x34b0bcb5, 0x391c0cb3, 0x4ed8aa4a,
  0x5b9cca4f, 0x682e6ff3, 0x748f82ee, 0x78a5636f, 0x84c87814, 0x8cc70208,
  0x90befffa, 0xa4506ceb, 0xbef9a3f7, 0xc67178f2]

/-- The eight working words `a` to `h`, also the digest between blocks. -/
structure Digest where
  a : Word
  b : Word
  c : Word
  d : Word
  e : Word
  f : Word
  g : Word
  h : Word
  deriving DecidableEq

/-- `picosha2.h:63–65`. -/
def initialMessageDigest : Digest :=
  ⟨0x6a09e667, 0xbb67ae85, 0x3c6ef372, 0xa54ff53a, 0x510e527f, 0x9b05688c, 0x1f83d9ab,
    0x5be0cd19⟩

/-- `(x & y) ^ (~x & z)`, with `~x & z` written `z ^ (x & z)`; `picosha2.h:67`. -/
def ch (x y z : Word) : Word := (x &&& y) ^^^ (z ^^^ (x &&& z))

/-- `picosha2.h:69–71`. -/
def maj (x y z : Word) : Word := (x &&& y) ^^^ (x &&& z) ^^^ (y &&& z)

/-- `picosha2.h:73–76`. -/
def rotr (x n : Word) : Word := mask32bit ((x >>> n) ||| (x <<< (32 - n)))

/-- `picosha2.h:78`. -/
def bsig0 (x : Word) : Word := rotr x 2 ^^^ rotr x 13 ^^^ rotr x 22

/-- `picosha2.h:80`. -/
def bsig1 (x : Word) : Word := rotr x 6 ^^^ rotr x 11 ^^^ rotr x 25

/-- `picosha2.h:87`. -/
def ssig0 (x : Word) : Word := rotr x 7 ^^^ rotr x 18 ^^^ (x >>> 3)

/-- `picosha2.h:89`. -/
def ssig1 (x : Word) : Word := rotr x 17 ^^^ rotr x 19 ^^^ (x >>> 10)

/-- The first sixteen words of the schedule, big-endian; `picosha2.h:97–102`. -/
def blockWords : Bytes → List Word
  | b0 :: b1 :: b2 :: b3 :: rest =>
    ((b0.toNat <<< 24) ||| (b1.toNat <<< 16) ||| (b2.toNat <<< 8) ||| b3.toNat) ::
      blockWords rest
  | _ => []

/-- The next words of the schedule from a window of the last sixteen; `picosha2.h:103–106`. -/
def schedule : Nat → List Word → List Word
  | n + 1, w16 :: window =>
    let w := mask32bit (ssig1 (window.getD 13 0) + window.getD 8 0 + ssig0 (window.getD 0 0) + w16)
    w16 :: schedule n (window ++ [w])
  | _, _ => []

/-- One of the 64 rounds, with its constant and schedule word; `picosha2.h:117–128`. -/
def round (s : Digest) (kw : Word × Word) : Digest :=
  let temp1 := s.h + bsig1 s.e + ch s.e s.f s.g + kw.1 + kw.2
  let temp2 := bsig0 s.a + maj s.a s.b s.c
  { a := mask32bit (temp1 + temp2), b := s.a, c := s.b, d := s.c
    e := mask32bit (s.d + temp1), f := s.e, g := s.f, h := s.g }

/-- Compress one 64-byte block into the digest; `picosha2.h:91–140`. -/
def hash256Block (digest : Digest) (block : Bytes) : Digest :=
  let s := (addConstant.zip (schedule 64 (blockWords block))).foldl round digest
  { a := mask32bit (digest.a + s.a), b := mask32bit (digest.b + s.b)
    c := mask32bit (digest.c + s.c), d := mask32bit (digest.d + s.d)
    e := mask32bit (digest.e + s.e), f := mask32bit (digest.f + s.f)
    g := mask32bit (digest.g + s.g), h := mask32bit (digest.h + s.h) }

/-- The blocks of the padded message: the data, `0x80`, zeros, the bit length in the last eight
bytes; `process` and `finish`, `picosha2.h:194–233`. The fuel is the number of whole blocks. -/
def paddedBlocks (bitLength : Bytes) : Nat → Bytes → List Bytes
  | fuel + 1, buffer =>
    if 64 ≤ buffer.length then buffer.take 64 :: paddedBlocks bitLength fuel (buffer.drop 64)
    else if 55 < buffer.length then
      [buffer ++ 0x80 :: List.replicate (63 - buffer.length) 0, List.replicate 56 0 ++ bitLength]
    else [buffer ++ 0x80 :: List.replicate (55 - buffer.length) 0 ++ bitLength]
  | 0, _ => []

/-- Big-endian bytes of a number, the low eight bits of each shift. -/
def bigEndian (count n : Nat) : Bytes :=
  (List.range count).map fun i ↦ UInt8.ofNat (n >>> (8 * (count - 1 - i)))

/-- The 32 digest bytes; `picosha2.h:235–243`. -/
def getHashBytes (digest : Digest) : Hash256 :=
  ⟨[digest.a, digest.b, digest.c, digest.d, digest.e, digest.f, digest.g, digest.h].flatMap
    (bigEndian 4), by simp [bigEndian]⟩

/-- `picosha2::hash256`; `picosha2.h:299–307`. -/
def hash256 (data : Bytes) : Hash256 :=
  getHashBytes ((paddedBlocks (bigEndian 8 (8 * data.length)) (data.length / 64 + 1) data).foldl
    hash256Block initialMessageDigest)

/-- Padding keeps the data, ends it with `0x80` and zeros, and closes with the bit length. -/
theorem flatten_paddedBlocks (bitLength : Bytes) {fuel : Nat} {buffer : Bytes}
    (h : buffer.length / 64 < fuel) :
    ∃ zeros, (paddedBlocks bitLength fuel buffer).flatten =
      buffer ++ 0x80 :: List.replicate zeros 0 ++ bitLength := by
  induction fuel generalizing buffer with
  | zero => omega
  | succ fuel ih =>
    rw [paddedBlocks]
    split
    · next hl =>
      have hrest : (buffer.drop 64).length / 64 < fuel := by
        rw [List.length_drop]
        omega
      obtain ⟨zeros, hz⟩ := ih hrest
      refine ⟨zeros, ?_⟩
      rw [List.flatten_cons, hz, List.append_assoc, ← List.append_assoc (buffer.take 64),
        List.take_append_drop, List.append_assoc]
    · split
      · refine ⟨63 - buffer.length + 56, ?_⟩
        rw [← List.replicate_append_replicate]
        simp only [List.flatten_cons, List.flatten_nil, List.append_nil, List.append_assoc,
          List.cons_append]
      · exact ⟨55 - buffer.length, by simp⟩

end Siliqua.Picosha2

namespace Siliqua

/-- A hash from its big-endian value. -/
def Hash256.ofBigEndian (n : Nat) : Hash256 :=
  ⟨Picosha2.bigEndian 32 n, by simp [Picosha2.bigEndian]⟩

/-- SHA-256 as the node computes it, in a world without keys: no signature or public key
parses, and RIPEMD-160 is constant. For concrete inputs that use neither. -/
@[reducible] def keylessCrypto : Crypto where
  hashSha256 := Picosha2.hash256
  hashRipemd160 _ := List.Vector.replicate 20 0
  ecdsaSignatureParseCompact _ := false
  ecPubkeyParse _ := false
  ecdsaVerify _ _ _ := false

end Siliqua
