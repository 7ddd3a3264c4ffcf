import Siliqua.Core.Codec
import Siliqua.Network.Message

/-!
# Frames on the wire

What `receive_message` makes of the bytes of `send_message`: a payload within the receiver's
bound arrives as it was sent, and one that is longer does not arrive.
-/

namespace Siliqua.Network

open ByteDecoder Siliqua.Core

/-- The name fits the command field and does not hold its padding. -/
def IsCommand (cmd : Bytes) : Prop := cmd.length ≤ COMMAND_SIZE ∧ 0 ∉ cmd

instance (cmd : Bytes) : Decidable (IsCommand cmd) := inferInstanceAs (Decidable (_ ∧ _))

theorem isCommand_INV : IsCommand Command.INV := by decide
theorem isCommand_GETDATA : IsCommand Command.GETDATA := by decide
theorem isCommand_BLOCK : IsCommand Command.BLOCK := by decide
theorem isCommand_CHAIN : IsCommand Command.CHAIN := by decide

/-- The command field of a frame. -/
def commandField (cmd : Bytes) : Bytes :=
  cmd.take COMMAND_SIZE ++ List.replicate (COMMAND_SIZE - cmd.length) 0

theorem length_commandField (cmd : Bytes) : (commandField cmd).length = COMMAND_SIZE := by
  rw [commandField, List.length_append, List.length_take, List.length_replicate]
  omega

/-- Reading the command field up to its padding. -/
theorem takeWhile_commandField {cmd : Bytes} (h : IsCommand cmd) :
    (commandField cmd).takeWhile (· != 0) = cmd := by
  have hall : ∀ b ∈ cmd, (b != 0) = true := fun b hb ↦
    bne_iff_ne.mpr fun h0 ↦ h.2 (h0 ▸ hb)
  rw [commandField, List.take_of_length_le h.1, List.takeWhile_append_of_pos hall]
  cases COMMAND_SIZE - cmd.length with
  | zero => exact List.append_nil cmd
  | succ k => simp [List.replicate_succ]

variable [Crypto]

theorem length_checksum (payload : Bytes) : (checksum payload).length = 4 := by
  rw [checksum, List.length_take, List.Vector.toList_length]
  rfl

/-- A frame is its header and its payload. -/
theorem sendMessage_eq (cmd payload : Bytes) :
    sendMessage cmd payload = MAGIC_BYTES ++ (commandField cmd ++
      (writeUint32LE [] (UInt32.ofNat payload.length) ++ (checksum payload ++ payload))) := by
  simp only [sendMessage, writeBytes, commandField, writeUint32LE, List.nil_append,
    List.append_assoc]

/-- The 24 bytes before the payload. -/
private def frameHeader (cmd payload : Bytes) : Bytes :=
  MAGIC_BYTES ++ (commandField cmd ++
    (writeUint32LE [] (UInt32.ofNat payload.length) ++ checksum payload))

private theorem sendMessage_append (cmd payload rest : Bytes) :
    sendMessage cmd payload ++ rest = frameHeader cmd payload ++ (payload ++ rest) := by
  rw [sendMessage_eq, frameHeader]
  simp only [List.append_assoc]

private theorem length_frameHeader (cmd payload : Bytes) :
    (frameHeader cmd payload).length = HEADER_SIZE := by
  simp only [frameHeader, List.length_append, length_commandField, length_checksum]
  rfl

private theorem readUint32LE_frameHeader (cmd payload : Bytes) :
    readUint32LE (frameHeader cmd payload) 16 = .ok (UInt32.ofNat payload.length, 20) := by
  have hreads := reads_of_append (MAGIC_BYTES ++ commandField cmd)
    (writeUint32LE [] (UInt32.ofNat payload.length)) (checksum payload)
  have hpre : (MAGIC_BYTES ++ commandField cmd).length = 16 := by
    rw [List.length_append, length_commandField]
    rfl
  rw [hpre, List.append_assoc, List.append_assoc] at hreads
  exact ((codec_readUint32LE _ _ _ _).mpr ⟨trivial, hreads⟩).2

/-- What the receiver reads off a stream that starts with a frame: the length field holds the
payload's length modulo `2 ^ 32`. -/
theorem receiveMessage_sendMessage (cmd payload rest : Bytes) :
    receiveMessage (sendMessage cmd payload ++ rest) =
      if MAX_PAYLOAD_SIZE < payload.length % 2 ^ 32 then none
      else if checksum payload ≠ checksum (payload.take (payload.length % 2 ^ 32)) then none
      else some (⟨(commandField cmd).takeWhile (· != 0), payload.take (payload.length % 2 ^ 32)⟩,
        (payload ++ rest).drop (payload.length % 2 ^ 32)) := by
  have hlen := length_frameHeader cmd payload
  have hmod : payload.length % 2 ^ 32 ≤ payload.length := Nat.mod_le _ _
  have htake : (frameHeader cmd payload ++ (payload ++ rest)).take HEADER_SIZE =
      frameHeader cmd payload := List.take_left' hlen
  have hdrop : (frameHeader cmd payload ++ (payload ++ rest)).drop HEADER_SIZE =
      payload ++ rest := List.drop_left' hlen
  have hmagic : (frameHeader cmd payload).take 4 = MAGIC_BYTES := List.take_left' rfl
  have hfield : ((frameHeader cmd payload).drop 4).take COMMAND_SIZE = commandField cmd := by
    have hskip : (frameHeader cmd payload).drop 4 = commandField cmd ++
        (writeUint32LE [] (UInt32.ofNat payload.length) ++ checksum payload) :=
      List.drop_left' rfl
    rw [hskip, List.take_left' (length_commandField cmd)]
  have hsum : ((frameHeader cmd payload).drop 20).take 4 = checksum payload := by
    have hpre : (MAGIC_BYTES ++ (commandField cmd ++
        writeUint32LE [] (UInt32.ofNat payload.length))).length = 20 := by
      simp only [List.length_append, length_commandField]
      rfl
    rw [frameHeader, ← List.append_assoc (commandField cmd), ← List.append_assoc,
      List.drop_left' hpre, List.take_of_length_le (Nat.le_of_eq (length_checksum payload))]
  have hbody : (payload ++ rest).take (payload.length % 2 ^ 32) =
      payload.take (payload.length % 2 ^ 32) := List.take_append_of_le_length hmod
  have hnat : (UInt32.ofNat payload.length).toNat = payload.length % 2 ^ 32 :=
    UInt32.toNat_ofNat'
  rw [sendMessage_append, receiveMessage, if_neg (by rw [List.length_append, hlen]; omega)]
  simp only [htake, hdrop, hmagic, hfield, readUint32LE_frameHeader, hnat, hsum, hbody, ne_eq,
    not_true_eq_false, if_false]
  rw [if_neg (c := (payload ++ rest).length < payload.length % 2 ^ 32)
    (by rw [List.length_append]; omega)]

/-- A payload within the bound arrives. -/
theorem receiveMessage_of_le {cmd payload : Bytes} (hcmd : IsCommand cmd)
    (hle : payload.length ≤ MAX_PAYLOAD_SIZE) (rest : Bytes) :
    receiveMessage (sendMessage cmd payload ++ rest) = some (⟨cmd, payload⟩, rest) := by
  have hmod : payload.length % 2 ^ 32 = payload.length := by
    apply Nat.mod_eq_of_lt
    rw [MAX_PAYLOAD_SIZE] at hle
    omega
  rw [receiveMessage_sendMessage, hmod, if_neg (Nat.not_lt.mpr hle), List.take_length,
    if_neg (not_not_intro rfl), takeWhile_commandField hcmd, List.drop_left]

/-- Of a payload beyond the bound at most a proper part arrives. -/
theorem payload_of_receiveMessage {cmd payload rest rest' : Bytes} {msg : Message}
    (hcmd : IsCommand cmd) (hlt : MAX_PAYLOAD_SIZE < payload.length)
    (h : receiveMessage (sendMessage cmd payload ++ rest) = some (msg, rest')) :
    msg.command = cmd ∧ msg.payload <+: payload ∧ msg.payload.length < payload.length := by
  rw [receiveMessage_sendMessage] at h
  split at h
  · cases h
  · next hle =>
    split at h
    · cases h
    · simp only [Option.some.injEq, Prod.mk.injEq] at h
      obtain ⟨rfl, -⟩ := h
      refine ⟨takeWhile_commandField hcmd, List.take_prefix _ _, ?_⟩
      rw [List.length_take]
      omega

/-! ## Streams of frames -/

/-- The bytes on the wire for some messages. -/
def frames (msgs : List Message) : Bytes :=
  msgs.flatMap fun msg ↦ sendMessage msg.command msg.payload

theorem frames_cons (msg : Message) (msgs : List Message) :
    frames (msg :: msgs) = sendMessage msg.command msg.payload ++ frames msgs :=
  List.flatMap_cons

/-- The message arrives as it was sent. -/
def Message.Arrives (msg : Message) : Prop :=
  IsCommand msg.command ∧ msg.payload.length ≤ MAX_PAYLOAD_SIZE

instance (msg : Message) : Decidable msg.Arrives := inferInstanceAs (Decidable (_ ∧ _))

/-- Messages within the bound arrive in order, ahead of what follows. -/
theorem messages_frames_append {msgs : List Message} (h : ∀ msg ∈ msgs, msg.Arrives)
    (rest : List Message) : messages (frames (msgs ++ rest)) = msgs ++ messages (frames rest) := by
  induction msgs with
  | nil => rfl
  | cons msg msgs ih =>
    obtain ⟨hmsg, hmsgs⟩ := List.forall_mem_cons.mp h
    rw [List.cons_append, frames_cons, messages_eq, receiveMessage_of_le hmsg.1 hmsg.2]
    exact congrArg (msg :: ·) (ih hmsgs)

/-- So does the first one, whatever follows. -/
theorem messages_frames_cons {msg : Message} (h : msg.Arrives) (rest : List Message) :
    messages (frames (msg :: rest)) = msg :: messages (frames rest) :=
  messages_frames_append (List.forall_mem_singleton.mpr h) rest

/-- Messages within the bound all arrive. -/
theorem messages_frames {msgs : List Message} (h : ∀ msg ∈ msgs, msg.Arrives) :
    messages (frames msgs) = msgs := by
  have hall := messages_frames_append h []
  rw [List.append_nil] at hall
  rw [hall]
  exact List.append_nil msgs

/-- A message beyond the bound ends the stream, or a proper part of its payload passes for the
whole. -/
theorem messages_frames_oversize {cmd payload : Bytes} (hcmd : IsCommand cmd)
    (hlt : MAX_PAYLOAD_SIZE < payload.length) (rest : List Message) :
    messages (frames (⟨cmd, payload⟩ :: rest)) = [] ∨
      ∃ part later, messages (frames (⟨cmd, payload⟩ :: rest)) = ⟨cmd, part⟩ :: later ∧
        part <+: payload ∧ part ≠ payload := by
  rw [frames_cons, messages_eq]
  cases hreceive : receiveMessage (sendMessage cmd payload ++ frames rest) with
  | none => exact Or.inl rfl
  | some received =>
    obtain ⟨⟨cmd', part⟩, later⟩ := received
    obtain ⟨rfl, hpart, hshort⟩ := payload_of_receiveMessage hcmd hlt hreceive
    exact Or.inr ⟨part, messages later, rfl, hpart,
      fun heq ↦ Nat.ne_of_lt hshort (congrArg List.length heq)⟩

/-- A message of less than `2 ^ 32` bytes beyond the bound ends the stream. -/
theorem messages_frames_of_lt {cmd payload : Bytes} (hlt : MAX_PAYLOAD_SIZE < payload.length)
    (hlt' : payload.length < 2 ^ 32) (rest : List Message) :
    messages (frames (⟨cmd, payload⟩ :: rest)) = [] := by
  rw [frames_cons, messages_eq, receiveMessage_sendMessage, Nat.mod_eq_of_lt hlt', if_pos hlt]

end Siliqua.Network
