import Siliqua.Core.Transaction

/-!
# Blocks

`core/block.h` and `core/block.cpp`: the 80-byte header, its hash, the Merkle root and the
block's byte format.
-/

namespace Siliqua.Core

open ByteDecoder

/-- Block header; `block.h:12–38`. -/
structure CBlockHeader where
  nVersion : Int32
  hashPrevBlock : Hash256
  hashMerkleRoot : Hash256
  nTime : UInt32
  nBits : UInt32
  nNonce : UInt32
  deriving DecidableEq

/-- Block: a header and its transactions; `block.h:40–70`. -/
structure CBlock extends CBlockHeader where
  vtx : List Transaction
  deriving DecidableEq

namespace CBlockHeader

/-- `block.cpp:10–46`. -/
def serialize (header : CBlockHeader) : Bytes :=
  let buffer := writeUint32LE [] header.nVersion.toUInt32
  let buffer := writeBytes buffer header.hashPrevBlock.toList
  let buffer := writeBytes buffer header.hashMerkleRoot.toList
  let buffer := writeUint32LE buffer header.nTime
  let buffer := writeUint32LE buffer header.nBits
  writeUint32LE buffer header.nNonce

/-- `block.cpp:48–57`. -/
def deserialize : Decoder CBlockHeader := do
  let nVersion ← readUint32LE
  let hashPrevBlock ← readBytes32
  let hashMerkleRoot ← readBytes32
  let nTime ← readUint32LE
  let nBits ← readUint32LE
  let nNonce ← readUint32LE
  pure ⟨nVersion.toInt32, hashPrevBlock, hashMerkleRoot, nTime, nBits, nNonce⟩

variable [Crypto]

/-- Double SHA-256 of the serialized header; `block.cpp:59–66`. -/
def getHash (header : CBlockHeader) : Hash256 := hashDoubleSha256 header.serialize

end CBlockHeader

/-- One layer up: neighbours are concatenated and hashed, an odd last one with itself;
`block.cpp:82–93`. -/
def nextLayer [Crypto] : List Hash256 → List Hash256
  | [] => []
  | [left] => [hashDoubleSha256 (left.toList ++ left.toList)]
  | left :: right :: rest => hashDoubleSha256 (left.toList ++ right.toList) :: nextLayer rest

/-- Repeat `nextLayer` until one hash is left; the fuel is the number of leaves. -/
def merkleLoop [Crypto] : Nat → List Hash256 → List Hash256
  | 0, layers => layers
  | fuel + 1, layers => if layers.length > 1 then merkleLoop fuel (nextLayer layers) else layers

namespace CBlock

variable [Crypto]

/-- Hash of the header part. -/
def getHash (blk : CBlock) : Hash256 := blk.toCBlockHeader.getHash

/-- Fold the cached transaction hashes up to one; `block.cpp:68–99`. -/
def buildMerkleRoot (blk : CBlock) : Hash256 :=
  let layers := blk.vtx.map Transaction.txHash
  (merkleLoop layers.length layers).headD Hash256.zero

/-- `block.cpp:101–103`. -/
def isMerkleRootValid (blk : CBlock) : Bool := blk.buildMerkleRoot == blk.hashMerkleRoot

/-- `block.cpp:109–123`. -/
def serialize (blk : CBlock) : Bytes :=
  let buffer := blk.toCBlockHeader.serialize
  let buffer := writeVarInt32 buffer blk.vtx.length
  buffer ++ blk.vtx.flatMap Transaction.serialize

/-- `block.cpp:125–136`. -/
def deserialize : Decoder CBlock := do
  let header ← CBlockHeader.deserialize
  let txCount ← readVarInt32
  let vtx ← Decoder.many Transaction.deserialize txCount.toNat
  pure ⟨header, vtx⟩

end CBlock

/-! ## The Merkle loop ends on a single hash -/

section Merkle

variable [Crypto]

/-- A layer has half as many hashes as the one below, rounded up. -/
theorem length_nextLayer : ∀ layers : List Hash256,
    (nextLayer layers).length = (layers.length + 1) / 2
  | [] => by simp [nextLayer]
  | [_] => by simp [nextLayer]
  | _ :: _ :: rest => by
    simp only [nextLayer, List.length_cons, length_nextLayer rest]
    omega

/-- With one unit of fuel for each leaf the loop stops because a single hash is left. -/
theorem length_merkleLoop_le {fuel : Nat} {layers : List Hash256} (h : layers.length ≤ fuel) :
    (merkleLoop fuel layers).length ≤ 1 := by
  induction fuel generalizing layers with
  | zero =>
    rw [merkleLoop]
    omega
  | succ fuel ih =>
    rw [merkleLoop]
    split
    · apply ih
      rw [length_nextLayer]
      omega
    · omega

end Merkle

end Siliqua.Core
