import Siliqua.Base.Chunks
import Siliqua.Crypto.Picosha2
import Siliqua.Network.Frames

/-!
# Partial transfers

`network/socket.h`: the loops that send and receive exactly as many bytes as asked for, over a
socket that accepts and delivers them in pieces. `receive_message` on such a socket does what it
does on the bytes put together.
-/

namespace Siliqua.Network

open ByteDecoder Siliqua.Core

/-! ## Sending -/

/-- The loop of `send_all`: the `attempt`-th call of `send` accepts `accepted attempt` of the bytes
that are left, or all of them. Returns success, the bytes accepted and the next attempt;
`socket.h:170–181`. -/
def sendLoop (accepted : Nat → Nat) : Nat → Nat → Bytes → Bool × Bytes × Nat
  | _, attempt, [] => (true, [], attempt)
  | 0, attempt, _ => (false, [], attempt)
  | fuel + 1, attempt, data =>
    if accepted attempt = 0 then (false, [], attempt + 1)
    else
      let (ok, wire, attempt') :=
        sendLoop accepted fuel (attempt + 1) (data.drop (accepted attempt))
      (ok, data.take (accepted attempt) ++ wire, attempt')

/-- Send all of the bytes. An attempt that goes on takes one byte at least, so their number is
enough fuel; `socket.h:168–182`. -/
def sendAll (accepted : Nat → Nat) (attempt : Nat) (data : Bytes) : Bool × Bytes × Nat :=
  sendLoop accepted data.length attempt data

private theorem sendLoop_of_pos {accepted : Nat → Nat} (h : ∀ attempt, 0 < accepted attempt)
    {fuel : Nat} (attempt : Nat) {data : Bytes} (hle : data.length ≤ fuel) :
    ∃ attempt', sendLoop accepted fuel attempt data = (true, data, attempt') := by
  induction fuel generalizing attempt data with
  | zero =>
    obtain rfl : data = [] := List.length_eq_zero_iff.mp (by omega)
    exact ⟨attempt, rfl⟩
  | succ fuel ih =>
    cases data with
    | nil => exact ⟨attempt, rfl⟩
    | cons b bs =>
      have hpos := h attempt
      have hshort : ((b :: bs).drop (accepted attempt)).length ≤ fuel := by
        rw [List.length_drop]
        omega
      obtain ⟨attempt', hrest⟩ := ih (attempt + 1) hshort
      refine ⟨attempt', ?_⟩
      rw [sendLoop, if_neg (by omega), hrest]
      · dsimp only
        rw [List.take_append_drop]
      · exact List.cons_ne_nil b bs

/-- When every attempt takes some byte, all bytes go out. -/
theorem sendAll_of_pos {accepted : Nat → Nat} (h : ∀ attempt, 0 < accepted attempt)
    (attempt : Nat) (data : Bytes) :
    ∃ attempt', sendAll accepted attempt data = (true, data, attempt') :=
  sendLoop_of_pos h attempt (Nat.le_refl _)

/-! ## Receiving -/

/-- The loop of `recv_exact`, `want` bytes to go; `socket.h:189–200`. -/
def recvLoop : Nat → Nat → Delivery UInt8 → Option (Bytes × Delivery UInt8)
  | _, 0, d => some ([], d)
  | 0, _ + 1, _ => none
  | fuel + 1, want + 1, d =>
    let (chunk, d) := d.recv (want + 1)
    if chunk = [] then none
    else
      match recvLoop fuel (want + 1 - chunk.length) d with
      | none => none
      | some (bytes, d) => some (chunk ++ bytes, d)

/-- Receive exactly `len` bytes, or `none` where the connection ends first. A `recv` that goes on
brings one byte at least, so `len` is enough fuel; `socket.h:187–201`. -/
def recvExact (len : Nat) (d : Delivery UInt8) : Option (Bytes × Delivery UInt8) :=
  recvLoop len len d

private theorem recvLoop_eq {fuel want : Nat} (hle : want ≤ fuel) (d : Delivery UInt8) :
    (recvLoop fuel want d).map (Prod.map id Delivery.content) =
      if d.content.length < want then none
      else some (d.content.take want, d.content.drop want) := by
  induction fuel generalizing want d with
  | zero =>
    obtain rfl : want = 0 := by omega
    rfl
  | succ fuel ih =>
    cases want with
    | zero => rfl
    | succ want =>
      have happend := d.recv_append (want + 1)
      have hlen := d.length_recv_le (want + 1)
      have hend := d.recv_eq_nil_iff (Nat.succ_pos want)
      rw [recvLoop]
      generalize d.recv (want + 1) = read at happend hlen hend
      obtain ⟨chunk, d'⟩ := read
      dsimp only at happend hlen hend ⊢
      split
      · next hnil =>
        rw [hend.mp hnil]
        rfl
      · next hne =>
        have hpos := List.length_pos_iff.mpr hne
        have hrest := @ih (want + 1 - chunk.length) (by omega) d'
        rw [← happend, List.length_append, List.take_append, List.drop_append,
          List.take_of_length_le hlen, List.drop_eq_nil_of_le hlen, List.nil_append]
        rcases Nat.lt_or_ge d'.content.length (want + 1 - chunk.length) with hshort | hlong
        · rw [if_pos hshort, Option.map_eq_none_iff] at hrest
          rw [hrest, if_pos (by omega)]
          rfl
        · rw [if_neg (Nat.not_lt.mpr hlong), Option.map_eq_some_iff] at hrest
          obtain ⟨⟨bytes, d''⟩, hread, heq⟩ := hrest
          obtain ⟨rfl, hleft⟩ := Prod.mk.inj heq
          rw [hread, if_neg (by omega)]
          exact congrArg some (Prod.ext rfl hleft)

/-- Whether and which bytes are received, and what is left, depends only on the chunks put
together. -/
theorem recvExact_eq (len : Nat) (d : Delivery UInt8) :
    (recvExact len d).map (Prod.map id Delivery.content) =
      if d.content.length < len then none
      else some (d.content.take len, d.content.drop len) :=
  recvLoop_eq (Nat.le_refl len) d

/-- Enough bytes are left: they are received, whatever the chunks. -/
theorem recvExact_of_le {len : Nat} {d : Delivery UInt8} (h : len ≤ d.content.length) :
    ∃ d', recvExact len d = some (d.content.take len, d') ∧ d'.content = d.content.drop len := by
  have heq := recvExact_eq len d
  rw [if_neg (Nat.not_lt.mpr h), Option.map_eq_some_iff] at heq
  obtain ⟨⟨bytes, d'⟩, hread, hpair⟩ := heq
  obtain ⟨rfl, hleft⟩ := Prod.mk.inj hpair
  exact ⟨d', hread, hleft⟩

/-- The connection ends before. -/
theorem recvExact_of_lt {len : Nat} {d : Delivery UInt8} (h : d.content.length < len) :
    recvExact len d = none := by
  have heq := recvExact_eq len d
  rw [if_pos h, Option.map_eq_none_iff] at heq
  exact heq

private theorem recvPayload_eq (len : Nat) (d : Delivery UInt8) :
    (if len > 0 then recvExact len d else some ([], d)) = recvExact len d := by
  split
  · rfl
  · next h =>
    obtain rfl : len = 0 := by omega
    rfl

section

variable [Crypto]

/-- Receive one message over a socket that delivers chunks; `message.h:89–130`. -/
def receiveMessageFrom (d : Delivery UInt8) : Option (Message × Delivery UInt8) :=
  match recvExact HEADER_SIZE d with
  | none => none
  | some (header, d) =>
    if header.take 4 ≠ MAGIC_BYTES then none
    else
      let rawCmd := (header.drop 4).take COMMAND_SIZE
      let command := rawCmd.takeWhile (· != 0)
      match readUint32LE header 16 with
      | .error _ => none
      | .ok (length, offset) =>
        if length.toNat > MAX_PAYLOAD_SIZE then none
        else
          -- an empty payload is not waited for
          match if length.toNat > 0 then recvExact length.toNat d else some ([], d) with
          | none => none
          | some (payload, d) =>
            if (header.drop offset).take 4 ≠ checksum payload then none
            else some (⟨command, payload⟩, d)

/-- Over chunks a message is received as over the bytes put together. -/
theorem receiveMessageFrom_eq (d : Delivery UInt8) :
    (receiveMessageFrom d).map (Prod.map id Delivery.content) = receiveMessage d.content := by
  rw [receiveMessageFrom, receiveMessage]
  rcases Nat.lt_or_ge d.content.length HEADER_SIZE with hshort | hlong
  · rw [recvExact_of_lt hshort, if_pos hshort]
    rfl
  obtain ⟨d', hheader, hleft⟩ := recvExact_of_le hlong
  rw [hheader, if_neg (Nat.not_lt.mpr hlong)]
  dsimp only
  rw [← hleft]
  split
  · rfl
  cases readUint32LE (d.content.take HEADER_SIZE) 16 with
  | error e => rfl
  | ok read =>
    obtain ⟨length, offset⟩ := read
    dsimp only
    rw [recvPayload_eq]
    split
    · rfl
    rcases Nat.lt_or_ge d'.content.length length.toNat with hend | hpayload
    · rw [recvExact_of_lt hend, if_pos hend]
      rfl
    · obtain ⟨d'', hread, hrest⟩ := recvExact_of_le hpayload
      rw [hread, if_neg (Nat.not_lt.mpr hpayload)]
      dsimp only
      split
      · rfl
      · rw [← hrest]
        rfl

/-! ## A conversation -/

/-- The bytes of consecutive messages on a socket that accepts them in pieces, `none` where a
`send_message` fails. -/
def sendMessages (accepted : Nat → Nat) : Nat → List Message → Option Bytes
  | _, [] => some []
  | attempt, msg :: msgs =>
    match sendAll accepted attempt (sendMessage msg.command msg.payload) with
    | (false, _, _) => none
    | (true, wire, attempt) => (sendMessages accepted attempt msgs).map (wire ++ ·)

/-- Repeated calls return these messages in order, each taking exactly its own frame, and leave
nothing. -/
def ReceivesEach : Delivery UInt8 → List Message → Prop
  | d, [] => d.content = []
  | d, msg :: msgs => ∃ d', receiveMessageFrom d = some (msg, d') ∧
    d.content = sendMessage msg.command msg.payload ++ d'.content ∧ ReceivesEach d' msgs

theorem sendMessages_of_pos {accepted : Nat → Nat} (h : ∀ attempt, 0 < accepted attempt)
    (attempt : Nat) (msgs : List Message) :
    sendMessages accepted attempt msgs = some (frames msgs) := by
  induction msgs generalizing attempt with
  | nil => rfl
  | cons msg msgs ih =>
    obtain ⟨attempt', hsend⟩ := sendAll_of_pos h attempt (sendMessage msg.command msg.payload)
    rw [sendMessages, hsend]
    dsimp only
    rw [ih attempt', frames_cons]
    rfl

/-- The frames of messages within the bounds are received one by one. -/
theorem receivesEach_frames {msgs : List Message} (h : ∀ msg ∈ msgs, msg.Arrives)
    {d : Delivery UInt8} (hd : d.content = frames msgs) : ReceivesEach d msgs := by
  induction msgs generalizing d with
  | nil => exact hd
  | cons msg msgs ih =>
    obtain ⟨hmsg, hmsgs⟩ := List.forall_mem_cons.mp h
    rw [frames_cons] at hd
    have heq := receiveMessageFrom_eq d
    rw [hd, receiveMessage_of_le hmsg.1 hmsg.2, Option.map_eq_some_iff] at heq
    obtain ⟨⟨msg', d'⟩, hreceive, hpair⟩ := heq
    obtain ⟨rfl, hrest⟩ := Prod.mk.inj hpair
    exact ⟨d', hreceive, hd.trans (congrArg _ hrest.symm), ih hmsgs hrest⟩

/-- Messages sent in any pieces and delivered in any chunks are received as they were sent. -/
theorem framing_any_chunking {msgs : List Message} (h : ∀ msg ∈ msgs, msg.Arrives)
    {accepted : Nat → Nat} (hpos : ∀ attempt, 0 < accepted attempt) :
    ∃ wire, sendMessages accepted 0 msgs = some wire ∧
      ∀ d : Delivery UInt8, d.content = wire → ReceivesEach d msgs :=
  ⟨frames msgs, sendMessages_of_pos hpos 0 msgs, fun _ ↦ receivesEach_frames h⟩

end

/-- A handshake answer without a payload and a request, sent byte by byte. -/
theorem framing_any_chunking_handshake :
    ∃ wire, @sendMessages keylessCrypto (fun _ ↦ 1) 0
        [⟨Command.VERACK, []⟩, ⟨Command.GETDATA, List.replicate 32 7⟩] = some wire ∧
      ∀ d : Delivery UInt8, d.content = wire →
        @ReceivesEach keylessCrypto d
          [⟨Command.VERACK, []⟩, ⟨Command.GETDATA, List.replicate 32 7⟩] :=
  @framing_any_chunking keylessCrypto _ (by decide) _ fun _ ↦ Nat.one_pos

end Siliqua.Network
