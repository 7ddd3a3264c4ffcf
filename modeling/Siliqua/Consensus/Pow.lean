import Mathlib.Algebra.Order.Field.Rat
import Siliqua.Core.Block

/-!
# Proof of work

`consensus/pow.h`: compact targets, the check of a header, mining, retargeting and chain
work. The source computes the last two in `double`; here they are exact rationals.
-/

namespace Siliqua.Consensus

open Siliqua.Core

/-- Write three mantissa bytes into an all-zero target; `pow.h:42–44,49–53`. -/
def placeMantissa (offset : Nat) (mantissa : UInt32) : Hash256 :=
  ⟨((Hash256.zero.toList.set offset ((mantissa >>> 16) &&& 0xFF).toUInt8).set (offset + 1)
    ((mantissa >>> 8) &&& 0xFF).toUInt8).set (offset + 2) (mantissa &&& 0xFF).toUInt8, by
    simp only [List.length_set, List.Vector.toList_length]⟩

/-- Compact difficulty to a 256-bit big-endian target; `pow.h:20–58`. -/
def bitsToTarget (bits : UInt32) : Hash256 :=
  let exponent := bits >>> 24
  let mantissa := bits &&& 0x007FFFFF
  if bits &&& 0x00800000 ≠ 0 then Hash256.zero
  else if exponent > 32 then Hash256.zero
  else if exponent ≤ 3 then placeMantissa 29 (mantissa >>> (8 * (3 - exponent)))
  else placeMantissa (32 - exponent.toNat) mantissa

/-- Exponent byte of a compact difficulty. -/
def exponentOf (bits : UInt32) : Nat := (bits >>> 24).toNat

/-- The 23 mantissa bits of a compact difficulty. -/
def mantissaOf (bits : UInt32) : Nat := (bits &&& 0x007FFFFF).toNat

/-- The loop that divides by 256 until the mantissa is below `2^24`; `pow.h:153–158`. Targets
below `256^256` need less fuel than is given. -/
def renormalise : Nat → Nat → ℚ → Nat × ℚ
  | 0, exponent, m => (exponent, m)
  | fuel + 1, exponent, m =>
    if 16777216 ≤ m then renormalise fuel (exponent + 1) (m / 256) else (exponent, m)

/-- The scaled target before renormalisation; `pow.h:148–151`. -/
def scaledTarget (currentBits : UInt32) (actualTimespan : ℤ) (targetTimespan : Nat) : ℚ :=
  (mantissaOf currentBits : ℚ) * (2 : ℚ) ^ (8 * ((exponentOf currentBits : ℤ) - 3)) *
    ((actualTimespan : ℚ) / (targetTimespan : ℚ))

/-- Encode a scaled target as `nBits`; `pow.h:153–160`. -/
def encodeTarget (value : ℚ) : UInt32 :=
  let (newExponent, m) := renormalise 256 3 value
  let newMantissa := UInt32.ofNat m.floor.toNat &&& 0x007FFFFF
  (UInt32.ofNat newExponent <<< 24) ||| newMantissa

/-- Elapsed time between two headers, clamped to a quarter and four times the target;
`pow.h:136–143`. -/
def clampedTimespan (periodStart periodEnd : CBlockHeader) (targetTimespan : Nat) : ℤ :=
  let actual := (periodEnd.nTime.toNat : ℤ) - (periodStart.nTime.toNat : ℤ)
  let minTimespan := (targetTimespan : ℤ) / 4
  let maxTimespan := (targetTimespan : ℤ) * 4
  let actual := if actual < minTimespan then minTimespan else actual
  if actual > maxTimespan then maxTimespan else actual

/-- The next block's difficulty, or `none` where an empty history throws; `pow.h:120–165`. -/
def getNextWorkRequired (headers : List CBlockHeader) (retargetInterval : Nat)
    (targetTimespan : Nat) : Option UInt32 :=
  match headers.getLast? with
  | none => none
  | some periodEnd =>
    if headers.length % retargetInterval ≠ 0 then some periodEnd.nBits
    else do
      let periodStart ← headers[headers.length - retargetInterval]?
      let actualTimespan := clampedTimespan periodStart periodEnd targetTimespan
      some (encodeTarget (scaledTarget periodEnd.nBits actualTimespan targetTimespan))

/-- Work of one block, `2^256` over its target; `pow.h:174–182`. -/
def calculateBlockWork (nBits : UInt32) : ℚ :=
  if mantissaOf nBits = 0 then 0
  else (2 : ℚ) ^ (280 - 8 * (exponentOf nBits : ℤ)) / (mantissaOf nBits : ℚ)

/-- Work of a chain, the sum over its headers; `pow.h:191–197`. -/
def calculateChainWork (headers : List CBlockHeader) : ℚ :=
  headers.foldl (fun total header ↦ total + calculateBlockWork header.nBits) 0

variable [Crypto]

/-- The hash, read as a big-endian number, is at most the target; `pow.h:64–75`. -/
def checkProofOfWork (header : CBlockHeader) : Bool :=
  decide (header.getHash.toList ≤ (bitsToTarget header.nBits).toList)

/-- One failed attempt: the next nonce, or a later time once the nonces are used up;
`pow.h:92–101`. -/
def nextAttempt (header : CBlockHeader) : CBlockHeader :=
  if header.nNonce = 0xFFFFFFFF then { header with nNonce := 0, nTime := header.nTime + 1 }
  else { header with nNonce := header.nNonce + 1 }

/-- The search loop, given up when the fuel runs out; `pow.h:91–102`. -/
def mineLoop (target : Hash256) : Nat → CBlockHeader → Option CBlockHeader
  | 0, _ => none
  | fuel + 1, header =>
    if target.toList < header.getHash.toList then mineLoop target fuel (nextAttempt header)
    else some header

/-- Search for a nonce that meets the target. The source's loop has no bound, so a run that
ends is one for which some fuel is enough; `pow.h:81–108`. -/
def mineBlock (fuel : Nat) (header : CBlockHeader) (nBitsTarget : UInt32) : Option CBlockHeader :=
  let header := { header with nBits := nBitsTarget, nNonce := 0 }
  mineLoop (bitsToTarget header.nBits) fuel header

end Siliqua.Consensus
