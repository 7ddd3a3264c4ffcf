import Siliqua.Base.ByteDecoder
import Siliqua.Crypto.Primitives

/-!
# Little-endian fields

`core/serializer.h`: writers append to a buffer, readers move an offset over one and throw
`std::out_of_range` past its end. Offsets and lengths stay far below `2^64` in memory, so
`size_t` is `Nat`.
-/

namespace Siliqua.Core

open ByteDecoder

/-- Append a 32-bit value, low byte first; `serializer.h:14–19`. -/
def writeUint32LE (out : Bytes) (value : UInt32) : Bytes :=
  out ++ [(value &&& 0xFF).toUInt8, ((value >>> 8) &&& 0xFF).toUInt8,
    ((value >>> 16) &&& 0xFF).toUInt8, ((value >>> 24) &&& 0xFF).toUInt8]

/-- Append a 64-bit value, low byte first; `serializer.h:24–33`. -/
def writeUint64LE (out : Bytes) (value : UInt64) : Bytes :=
  out ++ [(value &&& 0xFF).toUInt8, ((value >>> 8) &&& 0xFF).toUInt8,
    ((value >>> 16) &&& 0xFF).toUInt8, ((value >>> 24) &&& 0xFF).toUInt8,
    ((value >>> 32) &&& 0xFF).toUInt8, ((value >>> 40) &&& 0xFF).toUInt8,
    ((value >>> 48) &&& 0xFF).toUInt8, ((value >>> 56) &&& 0xFF).toUInt8]

/-- The count field, four plain bytes; `serializer.h:39–41`. A size is cast to 32 bits. -/
def writeVarInt32 (out : Bytes) (size : Nat) : Bytes := writeUint32LE out (UInt32.ofNat size)

/-- Append raw bytes; `serializer.h:46–48`. -/
def writeBytes (out data : Bytes) : Bytes := out ++ data

/-- Read 32 bits, low byte first; `serializer.h:55–62`. -/
def readUint32LE : Decoder UInt32 := do
  let b0 ← Decoder.peek 0
  let b1 ← Decoder.peek 1
  let b2 ← Decoder.peek 2
  let b3 ← Decoder.peek 3
  Decoder.advance 4
  pure (b0.toUInt32 ||| (b1.toUInt32 <<< 8) ||| (b2.toUInt32 <<< 16) ||| (b3.toUInt32 <<< 24))

/-- Read 64 bits, low byte first; `serializer.h:69–76`. -/
def readUint64LE : Decoder UInt64 := do
  let b0 ← Decoder.peek 0
  let b1 ← Decoder.peek 1
  let b2 ← Decoder.peek 2
  let b3 ← Decoder.peek 3
  let b4 ← Decoder.peek 4
  let b5 ← Decoder.peek 5
  let b6 ← Decoder.peek 6
  let b7 ← Decoder.peek 7
  Decoder.advance 8
  pure (b0.toUInt64 ||| (b1.toUInt64 <<< 8) ||| (b2.toUInt64 <<< 16) ||| (b3.toUInt64 <<< 24) |||
    (b4.toUInt64 <<< 32) ||| (b5.toUInt64 <<< 40) ||| (b6.toUInt64 <<< 48) |||
    (b7.toUInt64 <<< 56))

/-- Read a count field; `serializer.h:81–83`. -/
def readVarInt32 : Decoder UInt32 := readUint32LE

/-- Read `len` raw bytes; `serializer.h:91–98`. -/
def readBytes (len : Nat) : Decoder Bytes := Decoder.take len

/-- Read a 32-byte hash; `serializer.h:105–113`. -/
def readBytes32 : Decoder Hash256 := fun input offset ↦
  if h : offset + 32 ≤ input.length then
    .ok (⟨(input.drop offset).take 32, by rw [List.length_take, List.length_drop]; omega⟩,
      offset + 32)
  else .error .outOfRange

end Siliqua.Core
