import Siliqua.Crypto.Primitives

/-!
# Raw signatures

`wallet/signing.h`: raw signatures over a sighash, made and checked over its message hash.
-/

namespace Siliqua.Wallet

/-- Length of an address; `signing.h:16`. -/
def ADDRESS_SIZE : Nat := 20

/-- Length of a compact signature; `signing.h:17`. -/
def SIGNATURE_SIZE : Nat := 64

/-- Length of a compressed public key; `signing.h:18`. -/
def PUBKEY_SIZE : Nat := 33

/-- Lower-case hex digit of a value below sixteen, as an ASCII byte. -/
def hexDigit (d : UInt8) : UInt8 := if d < 10 then 48 + d else 87 + d

/-- Two hex digits for each byte; `utils.h:70–77`. -/
def bytesToHex (data : Bytes) : Bytes :=
  data.flatMap fun b : UInt8 ↦ [hexDigit (b >>> 4), hexDigit (b &&& 15)]

/-- Signature over the hex form of a sighash, which `generate_sign` hashes; `none` where
`sign_raw` throws. `signing.h:33–43`. -/
def signRaw [SigningCrypto] (seckey : SecretKey) (sighash : Hash256) :
    Option (List.Vector UInt8 64) :=
  generateSign (bytesToHex sighash.toList) seckey

variable [Crypto]

/-- SHA-256 of the hex form of a sighash; `signing.h:23–28`. -/
def sighashToMessageHash (sighash : Hash256) : Hash256 :=
  Crypto.hashSha256 (bytesToHex sighash.toList)

/-- Check the two sizes, then verify over the message hash; `signing.h:49–63`. -/
def verifyRawSignature (sigBytes pubkeyBytes : Bytes) (sighash : Hash256) : Bool :=
  if sigBytes.length ≠ SIGNATURE_SIZE ∨ pubkeyBytes.length ≠ PUBKEY_SIZE then false
  else verifySign sigBytes pubkeyBytes (sighashToMessageHash sighash)

end Siliqua.Wallet
