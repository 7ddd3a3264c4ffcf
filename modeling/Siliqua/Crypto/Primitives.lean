import Mathlib.Data.Vector.Defs

/-!
# Hash functions and signature verification

The cryptographic calls of the node (`crypto/ecdsa.h`, `crypto/ecdsa.cpp`) rest on SHA-256,
RIPEMD-160 and the secp256k1 library. They are the parameters of the whole model: every
result holds for all of them unless it names the ones it needs.
-/

namespace Siliqua

/-- A byte string, `std::vector<uint8_t>`. -/
abbrev Bytes := List UInt8

/-- A 32-byte hash, `std::array<uint8_t, 32>`. -/
abbrev Hash256 := List.Vector UInt8 32

/-- A 20-byte address, `std::array<uint8_t, ADDRESS_SIZE>`. -/
abbrev Address := List.Vector UInt8 20

/-- The all-zero array, `std::array<uint8_t, 32>{}`. -/
def Hash256.zero : Hash256 := List.Vector.replicate 32 0

/-- The primitives the code calls without looking inside. The secp256k1 calls take the
serialized signature and public key, which determine the parsed objects. -/
class Crypto where
  /-- `picosha2::hash256`. -/
  hashSha256 : Bytes → Hash256
  /-- `CryptoPP::RIPEMD160::CalculateDigest`. -/
  hashRipemd160 : Bytes → Address
  /-- `secp256k1_ecdsa_signature_parse_compact`. -/
  ecdsaSignatureParseCompact : Bytes → Bool
  /-- `secp256k1_ec_pubkey_parse`. -/
  ecPubkeyParse : Bytes → Bool
  /-- `secp256k1_ecdsa_verify` of a parsed signature, a message hash and a parsed key. -/
  ecdsaVerify : Bytes → Hash256 → Bytes → Bool

/-- A 32-byte secret key, `unsigned char[32]`. -/
abbrev SecretKey := List.Vector UInt8 32

/-- The secp256k1 calls that take a secret key, beside the others; each is `none` or `false`
where the call returns 0. -/
class SigningCrypto extends Crypto where
  /-- `secp256k1_ec_seckey_verify`. -/
  ecSeckeyVerify : SecretKey → Bool
  /-- `secp256k1_ec_pubkey_create`, serialized in compressed form. -/
  ecPubkeyCreate : SecretKey → Option (List.Vector UInt8 33)
  /-- `secp256k1_ecdsa_sign` of a message hash with the default nonce function, serialized in
  compact form. -/
  ecdsaSign : Hash256 → SecretKey → Option (List.Vector UInt8 64)

/-- Hash the input, then sign the hash; `none` stands for `EXIT_FAILURE`. `ecdsa.cpp:92–130`. -/
def generateSign [SigningCrypto] (input : Bytes) (seckey : SecretKey) :
    Option (List.Vector UInt8 64) :=
  SigningCrypto.ecdsaSign (Crypto.hashSha256 input) seckey

variable [Crypto]

/-- SHA-256 applied twice; `ecdsa.h:72–89`. -/
def hashDoubleSha256 (input : Bytes) : Hash256 :=
  Crypto.hashSha256 (Crypto.hashSha256 input).toList

/-- RIPEMD-160 of SHA-256; `ecdsa.cpp:68–90`. -/
def createAddressFromPubkey (compressedPubkey : Bytes) : Address :=
  Crypto.hashRipemd160 (Crypto.hashSha256 compressedPubkey).toList

/-- Parse both arguments, then verify; `true` stands for `EXIT_SUCCESS`. `ecdsa.cpp:132–156`. -/
def verifySign (serializedSignature compressedPubkey : Bytes) (inputHash : Hash256) : Bool :=
  if !Crypto.ecdsaSignatureParseCompact serializedSignature then false
  else if !Crypto.ecPubkeyParse compressedPubkey then false
  else Crypto.ecdsaVerify serializedSignature inputHash compressedPubkey

end Siliqua
