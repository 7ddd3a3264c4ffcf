import Siliqua.Core.Serializer

/-!
# Message frames

`network/message.h`: magic, zero-padded command, length, checksum, payload. A connection is
the finite byte stream the other side sends before it closes; a read that wants more bytes
than are left fails, as `recv_exact` does.
-/

namespace Siliqua.Network

open ByteDecoder Siliqua.Core

/-- `"SILQ"`; `message.h:17`. -/
def MAGIC_BYTES : Bytes := [0x53, 0x49, 0x4C, 0x51]

/-- `message.h:18`. -/
def COMMAND_SIZE : Nat := 12

/-- `message.h:19`. -/
def HEADER_SIZE : Nat := 4 + COMMAND_SIZE + 4 + 4

/-- `message.h:20`. -/
def MAX_PAYLOAD_SIZE : Nat := 4 * 1024 * 1024

/-- `message.h:21`. -/
def PROTOCOL_VERSION : UInt32 := 1

namespace Command

/-- `"version"` -/
def VERSION : Bytes := [118, 101, 114, 115, 105, 111, 110]
/-- `"verack"` -/
def VERACK : Bytes := [118, 101, 114, 97, 99, 107]
/-- `"inv"` -/
def INV : Bytes := [105, 110, 118]
/-- `"getdata"` -/
def GETDATA : Bytes := [103, 101, 116, 100, 97, 116, 97]
/-- `"block"` -/
def BLOCK : Bytes := [98, 108, 111, 99, 107]
/-- `"tx"` -/
def TX : Bytes := [116, 120]
/-- `"getblocks"` -/
def GETBLOCKS : Bytes := [103, 101, 116, 98, 108, 111, 99, 107, 115]
/-- `"chain"` -/
def CHAIN : Bytes := [99, 104, 97, 105, 110]

end Command

/-- A decoded message; `message.h:34–37`. -/
structure Message where
  command : Bytes
  payload : Bytes
  deriving DecidableEq

/-- `message.h:43–47`. -/
def buildVersionPayload : Bytes := writeUint32LE [] PROTOCOL_VERSION

variable [Crypto]

/-- First four bytes of the payload's double SHA-256; `message.h:69–72,121–123`. -/
def checksum (payload : Bytes) : Bytes := (hashDoubleSha256 payload).toList.take 4

/-- The bytes `send_message` puts on the wire; `message.h:55–75`. -/
def sendMessage (cmd payload : Bytes) : Bytes :=
  let buffer := writeBytes [] MAGIC_BYTES
  let cmdField := cmd.take COMMAND_SIZE ++ List.replicate (COMMAND_SIZE - cmd.length) 0
  let buffer := writeBytes buffer cmdField
  let buffer := writeUint32LE buffer (UInt32.ofNat payload.length)
  let buffer := writeBytes buffer (checksum payload)
  buffer ++ payload

/-- Receive one message: the message and the rest of the stream, or `none` where the source
returns `false`; `message.h:89–130`. -/
def receiveMessage (stream : Bytes) : Option (Message × Bytes) :=
  if stream.length < HEADER_SIZE then none
  else
    let header := stream.take HEADER_SIZE
    let stream := stream.drop HEADER_SIZE
    if header.take 4 ≠ MAGIC_BYTES then none
    else
      let rawCmd := (header.drop 4).take COMMAND_SIZE
      let command := rawCmd.takeWhile (· != 0)
      match readUint32LE header 16 with
      | .error _ => none
      | .ok (length, offset) =>
        if length.toNat > MAX_PAYLOAD_SIZE then none
        else if stream.length < length.toNat then none
        else
          let payload := stream.take length.toNat
          if (header.drop offset).take 4 ≠ checksum payload then none
          else some (⟨command, payload⟩, stream.drop length.toNat)

/-- The messages repeated calls of `receive_message` deliver before one fails. Each takes a
whole header off the stream, so the stream's length is enough fuel. -/
def receiveAll : Nat → Bytes → List Message
  | 0, _ => []
  | fuel + 1, stream =>
    match receiveMessage stream with
    | none => []
    | some (msg, rest) => msg :: receiveAll fuel rest

/-- All messages of a finite stream, in order. -/
def messages (stream : Bytes) : List Message := receiveAll stream.length stream

/-! ## Receiving without fuel -/

/-- A received message takes at least its header off the stream. -/
theorem length_of_receiveMessage {stream rest : Bytes} {msg : Message}
    (h : receiveMessage stream = some (msg, rest)) : rest.length + HEADER_SIZE ≤ stream.length := by
  unfold receiveMessage at h
  split at h
  · cases h
  · next hl =>
    dsimp only at h
    split at h
    · cases h
    · split at h
      · cases h
      · split at h
        · cases h
        · split at h
          · cases h
          · split at h
            · cases h
            · simp only [Option.some.injEq, Prod.mk.injEq] at h
              rw [← h.2, List.length_drop, List.length_drop]
              omega

private theorem receiveAll_fuel {fuel fuel' : Nat} {stream : Bytes}
    (h : stream.length ≤ fuel) (h' : stream.length ≤ fuel') :
    receiveAll fuel stream = receiveAll fuel' stream := by
  induction fuel generalizing fuel' stream with
  | zero =>
    obtain rfl : stream = [] := List.length_eq_zero_iff.mp (by omega)
    cases fuel' with
    | zero => rfl
    | succ k' => simp [receiveAll, receiveMessage, HEADER_SIZE]
  | succ k ih =>
    cases fuel' with
    | zero =>
      obtain rfl : stream = [] := List.length_eq_zero_iff.mp (by omega)
      simp [receiveAll, receiveMessage, HEADER_SIZE]
    | succ k' =>
      simp only [receiveAll]
      cases hr : receiveMessage stream with
      | none => rfl
      | some p =>
        obtain ⟨msg, rest⟩ := p
        have hl := length_of_receiveMessage hr
        have hpos : 0 < HEADER_SIZE := by decide
        exact congrArg (msg :: ·) (ih (by omega) (by omega))

/-- The messages of a stream: the first one received, then those of the rest. -/
theorem messages_eq (stream : Bytes) :
    messages stream = match receiveMessage stream with
      | none => []
      | some (msg, rest) => msg :: messages rest := by
  unfold messages
  cases hs : stream.length with
  | zero =>
    obtain rfl : stream = [] := List.length_eq_zero_iff.mp hs
    simp [receiveAll, receiveMessage, HEADER_SIZE]
  | succ k =>
    simp only [receiveAll]
    cases hr : receiveMessage stream with
    | none => rfl
    | some p =>
      obtain ⟨msg, rest⟩ := p
      have hl := length_of_receiveMessage hr
      have hpos : 0 < HEADER_SIZE := by decide
      exact congrArg (msg :: ·) (receiveAll_fuel (by omega) (Nat.le_refl _))

end Siliqua.Network
