import Siliqua.Ledger.DirectAccept

/-!
# Hostile peers

Which byte streams make an exception leave `Node::HandleConnection` or `Node::PollPeer`: the
frames are checked, but transactions, blocks and chains are decoded outside any `try`. And which
sends keep them from returning: nothing handles the signal a send to a closed connection raises.
-/

namespace Siliqua.Network

open ByteDecoder Siliqua.Core Siliqua.Consensus Siliqua.Storage Splits

section

variable [Crypto]

/-- The loop of `HandleConnection` goes on after such a message. -/
def Served (msg : Message) : Prop :=
  msg.command = Command.GETDATA ∨ msg.command = Command.GETBLOCKS ∨ msg.command = Command.TX

/-- The payload decodes as a transaction. -/
def DecodesTx (msg : Message) : Prop :=
  ∃ tx next, Transaction.deserialize msg.payload 0 = .ok (tx, next)

/-- Every `tx` message that the loop reaches decodes. -/
def TxsDecode (msgs : List Message) : Prop :=
  ∀ pre msg post, msgs = pre ++ msg :: post → (∀ m ∈ pre, Served m) → msg.command = Command.TX →
    DecodesTx msg

theorem txsDecode_nil : TxsDecode [] := by
  intro pre msg post heq
  simp at heq

/-- The loop stops at a message it does not serve, decodes a `tx`, and goes on otherwise. -/
theorem txsDecode_cons {msg : Message} {rest : List Message} :
    TxsDecode (msg :: rest) ↔
      (msg.command = Command.TX → DecodesTx msg) ∧ (Served msg → TxsDecode rest) := by
  rw [TxsDecode, forall_split_cons]
  simp only [List.not_mem_nil, false_imp_iff, implies_true, true_imp_iff, List.forall_mem_cons]
  constructor
  · rintro ⟨hone, hrest⟩
    exact ⟨hone, fun hs pre m post heq hpre ↦ hrest pre m post heq ⟨hs, hpre⟩⟩
  · rintro ⟨hone, hrest⟩
    exact ⟨hone, fun pre m post heq hpre ↦ hrest hpre.1 pre m post heq hpre.2⟩

/-- The serving loop returns exactly when every transaction it reaches decodes. -/
theorem Node.serve_isOk_iff {node : Node} (hne : node.chain ≠ []) (msgs sent : List Message) :
    (node.serve msgs sent).isOk = true ↔ TxsDecode msgs := by
  induction msgs generalizing node sent with
  | nil => exact iff_of_true rfl txsDecode_nil
  | cons msg rest ih =>
    rw [txsDecode_cons, Node.serve]
    obtain ⟨tip, htip⟩ : ∃ tip, node.chain.getLast? = some tip :=
      ⟨_, List.getLast?_eq_some_getLast hne⟩
    split
    · next hget =>
      have hnot : msg.command ≠ Command.TX := by rw [hget]; decide
      have hserved : Served msg := Or.inl hget
      rw [htip]
      dsimp only
      rw [ih hne]
      exact ⟨fun h ↦ ⟨fun htx ↦ absurd htx hnot, fun _ ↦ h⟩, fun h ↦ h.2 hserved⟩
    split
    · next _ hblocks =>
      have hnot : msg.command ≠ Command.TX := by rw [hblocks]; decide
      have hserved : Served msg := Or.inr (Or.inl hblocks)
      rw [ih hne]
      exact ⟨fun h ↦ ⟨fun htx ↦ absurd htx hnot, fun _ ↦ h⟩, fun h ↦ h.2 hserved⟩
    split
    · next _ _ htx =>
      have hserved : Served msg := Or.inr (Or.inr htx)
      cases hd : Transaction.deserialize msg.payload 0 with
      | error e => simp [htx, DecodesTx, hd, Except.isOk, Except.toBool]
      | ok p =>
        have hchain : (node.acceptTransaction p.1).chain ≠ [] := by
          rwa [Node.chain_acceptTransaction]
        have hdec : DecodesTx msg := ⟨p.1, p.2, hd⟩
        dsimp only
        rw [ih hchain]
        exact ⟨fun h ↦ ⟨fun _ ↦ hdec, fun _ ↦ h⟩, fun h ↦ h.2 hserved⟩
    · next hget hblocks htx =>
      have hserved : ¬ Served msg := by
        rintro (h | h | h)
        · exact hget h
        · exact hblocks h
        · exact htx h
      simp [htx, hserved, Except.isOk, Except.toBool]

/-- The whole stream of an inbound connection: after the handshake, every transaction reached
decodes. -/
def ConnectionDecodes (stream : Bytes) : Prop :=
  ∀ version verack rest, messages stream = version :: verack :: rest →
    version.command = Command.VERSION → verack.command = Command.VERACK → TxsDecode rest

/-- `HandleConnection` returns exactly when every transaction it reaches decodes. -/
theorem Node.handleConnection_isOk_iff {node : Node} (hne : node.chain ≠ []) (stream : Bytes) :
    (node.handleConnection stream).isOk = true ↔ ConnectionDecodes stream := by
  obtain ⟨tip, htip⟩ : ∃ tip, node.chain.getLast? = some tip :=
    ⟨_, List.getLast?_eq_some_getLast hne⟩
  unfold Node.handleConnection ConnectionDecodes
  rcases messages stream with - | ⟨version, - | ⟨verack, rest⟩⟩
  · exact iff_of_true rfl (by simp)
  · dsimp only
    split <;> exact iff_of_true rfl (by simp)
  · dsimp only
    split
    · next hv => exact iff_of_true rfl (by intro _ _ _ heq hver; simp_all)
    · next hv =>
      split
      · next hk => exact iff_of_true rfl (by intro _ _ _ heq _ hack; simp_all)
      · next hk =>
        rw [htip]
        rw [ne_eq, Decidable.not_not] at hv hk
        dsimp only
        rw [serve_isOk_iff hne]
        simp [hv, hk]

/-- The payload decodes as a block, and if that block does not extend the chain but could be a
tip, a `chain` message that answers `getblocks` decodes too. -/
def BlockDecodes (chain : List CBlock) (payload : Bytes) (rest : List Message) : Prop :=
  ∃ blk next, CBlock.deserialize payload 0 = .ok (blk, next) ∧
    ((tryExtendChain chain blk).1 = false → blk.isMerkleRootValid = true →
      checkProofOfWork blk.toCBlockHeader = true →
      ∀ reply rest', rest = reply :: rest' → reply.command = Command.CHAIN →
        ∃ peerChain, deserializeChain reply.payload = .ok peerChain)

theorem Node.fst_pollExtend (node : Node) (blk : CBlock) :
    (node.pollExtend blk).1 = (tryExtendChain node.chain blk).1 := by
  unfold Node.pollExtend
  rcases tryExtendChain node.chain blk with ⟨_ | _, chain⟩ <;> rfl

/-- The part of `PollPeer` after the block has arrived. -/
theorem Node.pollBlock_isOk_iff (node : Node) (others : Node → Node) (payload : Bytes)
    (rest sent : List Message) :
    (node.pollBlock others payload rest sent).isOk = true ↔
      BlockDecodes node.chain payload rest := by
  unfold Node.pollBlock BlockDecodes
  cases hd : CBlock.deserialize payload 0 with
  | error e => simp [Except.isOk, Except.toBool]
  | ok p =>
    obtain ⟨blk, next⟩ := p
    have hone : ∀ {P : CBlock → Prop}, (∃ blk' next', (Except.ok (blk, next) : Except ReadError _) =
        .ok (blk', next') ∧ P blk') ↔ P blk := by
      intro P
      constructor
      · rintro ⟨blk', next', heq, hP⟩
        obtain ⟨rfl, -⟩ := Prod.mk.inj (Except.ok.inj heq)
        exact hP
      · exact fun hP ↦ ⟨blk, next, rfl, hP⟩
    rw [hone, ← Node.fst_pollExtend]
    dsimp only
    rcases node.pollExtend blk with ⟨_ | _, node'⟩
    · dsimp only
      split
      · next hbad =>
        refine iff_of_true rfl fun _ hm hw ↦ ?_
        simp [hm, hw] at hbad
      · next hgood =>
        simp only [Bool.or_eq_true, Bool.not_eq_true', not_or, Bool.not_eq_false] at hgood
        cases rest with
        | nil => exact iff_of_true rfl (by simp)
        | cons reply rest' =>
          dsimp only
          split
          · next hcmd =>
            refine iff_of_true rfl fun _ _ _ r rs heq hc ↦ ?_
            obtain ⟨rfl, rfl⟩ := List.cons.inj heq
            exact absurd hc hcmd
          · next hcmd =>
            rw [ne_eq, Decidable.not_not] at hcmd
            cases hchain : deserializeChain reply.payload with
            | error e =>
              refine iff_of_false (by simp [Except.isOk, Except.toBool]) fun h ↦ ?_
              obtain ⟨peerChain, hok⟩ := h rfl hgood.1 hgood.2 reply rest' rfl hcmd
              rw [hchain] at hok
              cases hok
            | ok peerChain =>
              refine iff_of_true rfl fun _ _ _ r rs heq _ ↦ ?_
              obtain ⟨rfl, rfl⟩ := List.cons.inj heq
              exact ⟨peerChain, hchain⟩
    · exact iff_of_true rfl (by simp)

/-- A polled stream: once the handshake, the announcement and a block have arrived, they
decode. -/
def PollDecodes (chain : List CBlock) (stream : Bytes) : Prop :=
  ∀ version verack inv block rest, messages stream = version :: verack :: inv :: block :: rest →
    version.command = Command.VERSION → verack.command = Command.VERACK →
    inv.command = Command.INV → block.command = Command.BLOCK →
    BlockDecodes chain block.payload rest

/-- `PollPeer` returns exactly when what it decodes decodes. -/
theorem Node.pollPeer_isOk_iff (node : Node) (others : Node → Node) (stream : Bytes) :
    (node.pollPeer others stream).isOk = true ↔ PollDecodes node.chain stream := by
  unfold Node.pollPeer PollDecodes
  rcases messages stream with - | ⟨version, - | ⟨verack, - | ⟨inv, - | ⟨block, rest⟩⟩⟩⟩
  · exact iff_of_true rfl (by simp)
  · dsimp only
    split <;> exact iff_of_true rfl (by simp)
  · dsimp only
    split <;> exact iff_of_true rfl (by simp)
  · dsimp only
    split
    · exact iff_of_true rfl (by simp)
    · split <;> exact iff_of_true rfl (by simp)
  · dsimp only
    split
    · next hv => exact iff_of_true rfl (by intro _ _ _ _ _ heq hver; simp_all)
    split
    · next hk => exact iff_of_true rfl (by intro _ _ _ _ _ heq _ hack hinv; simp_all)
    split
    · next hb => exact iff_of_true rfl (by intro _ _ _ _ _ heq _ _ _ hblock; simp_all)
    next hv hk hb =>
    simp only [ne_eq, not_or, Decidable.not_not] at hv hk hb
    rw [Node.pollBlock_isOk_iff]
    constructor
    · intro h _ _ _ _ _ heq _ _ _ _
      simp only [List.cons.injEq] at heq
      obtain ⟨-, -, -, rfl, rfl⟩ := heq
      exact h
    · intro h
      exact h version verack inv block rest rfl hv hk.1 hk.2 hb

/-! ## Sends that fail -/

/-- What a call of `send_message` comes to. `send` is called without flags and no handler is
installed: on a connection that the peer has closed it raises SIGPIPE, which ends the process. While
the peer reads nothing it may wait forever; `socket.h:168–182`. -/
inductive SendOutcome where
  | sent
  | failed
  | killed
  | stuck
  deriving DecidableEq

/-- The call comes back, with `true` or with `false`. -/
def SendOutcome.returns : SendOutcome → Bool
  | .sent | .failed => true
  | .killed | .stuck => false

/-- Why a handler does not return. -/
inductive Abort where
  | exception (error : ReadError)
  | killed
  | stuck
  deriving DecidableEq

/-- The calls of `Peer::Send` a handler has made, and the messages that went out. -/
structure Outbox where
  made : Nat
  sent : List Message

/-- One more call. No caller of `Peer::Send` looks at what it returns. -/
def Outbox.send (outcome : Nat → SendOutcome) (out : Outbox) (msg : Message) :
    Except Abort Outbox :=
  match outcome out.made with
  | .sent => .ok ⟨out.made + 1, out.sent ++ [msg]⟩
  | .failed => .ok ⟨out.made + 1, out.sent⟩
  | .killed => .error .killed
  | .stuck => .error .stuck

namespace Node

/-- `serve`, where the calls of `Peer::Send` come to what `outcome` says. -/
def serveOver (outcome : Nat → SendOutcome) (node : Node) :
    List Message → Outbox → Except Abort (Node × Outbox)
  | [], out => .ok (node, out)
  | msg :: rest, out =>
    if msg.command = Command.GETDATA then
      match node.chain.getLast? with
      | none => .ok (node, out)
      | some tip =>
        (out.send outcome ⟨Command.BLOCK, tip.serialize⟩).bind (serveOver outcome node rest)
    else if msg.command = Command.GETBLOCKS then
      (out.send outcome ⟨Command.CHAIN, serializeChain node.chain⟩).bind
        (serveOver outcome node rest)
    else if msg.command = Command.TX then
      match Transaction.deserialize msg.payload 0 with
      | .error e => .error (.exception e)
      | .ok (tx, _) => serveOver outcome (node.acceptTransaction tx) rest out
    else .ok (node, out)

/-- `handleConnection`, where sends may fail; `daemon.h:82–121`. -/
def handleConnectionOver (outcome : Nat → SendOutcome) (node : Node) (stream : Bytes) :
    Except Abort (Node × Outbox) :=
  match messages stream with
  | [] => .ok (node, ⟨0, []⟩)
  | msg :: rest =>
    if msg.command ≠ Command.VERSION then .ok (node, ⟨0, []⟩)
    else
      (Outbox.send outcome ⟨0, []⟩ ⟨Command.VERSION, buildVersionPayload⟩).bind fun out ↦
      match rest with
      | [] => .ok (node, out)
      | msg :: rest =>
        if msg.command ≠ Command.VERACK then .ok (node, out)
        else
          (out.send outcome ⟨Command.VERACK, []⟩).bind fun out ↦
          match node.chain.getLast? with
          | none => .ok (node, out)
          | some tip =>
            (out.send outcome ⟨Command.INV, tip.getHash.toList⟩).bind
              (node.serveOver outcome rest)

/-- `pollBlock`, where the send may fail; `daemon.h:219–255`. -/
def pollBlockOver (outcome : Nat → SendOutcome) (node : Node) (others : Node → Node)
    (payload : Bytes) (rest : List Message) (out : Outbox) : Except Abort (Node × Outbox) :=
  match CBlock.deserialize payload 0 with
  | .error e => .error (.exception e)
  | .ok (receivedBlock, _) =>
    match node.pollExtend receivedBlock with
    | (true, node) => .ok (node, out)
    | (false, node) =>
      if !receivedBlock.isMerkleRootValid || !checkProofOfWork receivedBlock.toCBlockHeader then
        .ok (node, out)
      else
        (out.send outcome ⟨Command.GETBLOCKS, []⟩).bind fun out ↦
        match rest with
        | [] => .ok (others node, out)
        | msg :: _ =>
          if msg.command ≠ Command.CHAIN then .ok (others node, out)
          else
            match deserializeChain msg.payload with
            | .error e => .error (.exception e)
            | .ok peerChain => .ok (((others node).pollReorg peerChain).2, out)

/-- `pollPeer`, where sends may fail; `daemon.h:189–255`. -/
def pollPeerOver (outcome : Nat → SendOutcome) (node : Node) (others : Node → Node)
    (stream : Bytes) : Except Abort (Node × Outbox) :=
  (Outbox.send outcome ⟨0, []⟩ ⟨Command.VERSION, buildVersionPayload⟩).bind fun out ↦
  match messages stream with
  | [] => .ok (node, out)
  | version :: rest =>
    if version.command ≠ Command.VERSION then .ok (node, out)
    else
      (out.send outcome ⟨Command.VERACK, []⟩).bind fun out ↦
      match rest with
      | verack :: inv :: rest =>
        if verack.command ≠ Command.VERACK ∨ inv.command ≠ Command.INV then .ok (node, out)
        else
          (out.send outcome ⟨Command.GETDATA, inv.payload⟩).bind fun out ↦
          match rest with
          | [] => .ok (node, out)
          | block :: rest =>
            if block.command ≠ Command.BLOCK then .ok (node, out)
            else node.pollBlockOver outcome others block.payload rest out
      | _ => .ok (node, out)

end Node

/-! ## Sends that go out -/

section

variable {outcome : Nat → SendOutcome}

/-- The result of a handler whose messages all go out. -/
def delivered : Except ReadError (Node × List Message) → Except Abort (Node × Outbox)
  | .error e => .error (.exception e)
  | .ok (node, sent) => .ok (node, ⟨sent.length, sent⟩)

variable (hsent : ∀ k, outcome k = .sent)
include hsent

omit [Crypto] in
theorem Outbox.send_of_sent (sent : List Message) (msg : Message) :
    Outbox.send outcome ⟨sent.length, sent⟩ msg =
      .ok ⟨(sent ++ [msg]).length, sent ++ [msg]⟩ := by
  rw [Outbox.send, hsent, List.length_append, List.length_singleton]

omit [Crypto] in
/-- The first three messages of a handler. -/
private theorem Outbox.handshake_of_sent :
    (∀ a, Outbox.send outcome ⟨0, []⟩ a = .ok ⟨1, [a]⟩) ∧
      (∀ a b, Outbox.send outcome ⟨1, [a]⟩ b = .ok ⟨2, [a, b]⟩) ∧
      ∀ a b c, Outbox.send outcome ⟨2, [a, b]⟩ c = .ok ⟨3, [a, b, c]⟩ :=
  ⟨Outbox.send_of_sent hsent [], fun a ↦ Outbox.send_of_sent hsent [a],
    fun a b ↦ Outbox.send_of_sent hsent [a, b]⟩

/-- Then the loop is `serve`. -/
theorem Node.serveOver_of_sent (node : Node) (msgs sent : List Message) :
    node.serveOver outcome msgs ⟨sent.length, sent⟩ = delivered (node.serve msgs sent) := by
  induction msgs generalizing node sent with
  | nil => rfl
  | cons msg rest ih =>
    rw [Node.serveOver, Node.serve]
    split
    · cases node.chain.getLast? with
      | none => rfl
      | some tip =>
        dsimp only
        rw [Outbox.send_of_sent hsent, ← ih]
        rfl
    split
    · rw [Outbox.send_of_sent hsent, ← ih]
      rfl
    split
    · cases Transaction.deserialize msg.payload 0 with
      | error e => rfl
      | ok p => exact ih _ sent
    · rfl

/-- And the whole handler is `handleConnection`. -/
theorem Node.handleConnectionOver_of_sent {node : Node} (hne : node.chain ≠ []) (stream : Bytes) :
    node.handleConnectionOver outcome stream = delivered (node.handleConnection stream) := by
  obtain ⟨hfirst, hsecond, hthird⟩ := Outbox.handshake_of_sent hsent
  obtain ⟨tip, htip⟩ : ∃ tip, node.chain.getLast? = some tip :=
    ⟨_, List.getLast?_eq_some_getLast hne⟩
  unfold Node.handleConnectionOver Node.handleConnection
  rcases messages stream with - | ⟨version, rest⟩
  · rfl
  dsimp only
  split
  · rfl
  rw [hfirst]
  rcases rest with - | ⟨verack, rest⟩
  · rfl
  dsimp only [Except.bind]
  split
  · rfl
  rw [hsecond, htip]
  dsimp only
  rw [hthird]
  exact Node.serveOver_of_sent hsent node rest [_, _, _]

/-- The same after the block. -/
theorem Node.pollBlockOver_of_sent (node : Node) (others : Node → Node) (payload : Bytes)
    (rest sent : List Message) :
    node.pollBlockOver outcome others payload rest ⟨sent.length, sent⟩ =
      delivered (node.pollBlock others payload rest sent) := by
  unfold Node.pollBlockOver Node.pollBlock
  cases CBlock.deserialize payload 0 with
  | error e => rfl
  | ok p =>
    dsimp only
    rcases node.pollExtend p.1 with ⟨_ | _, node'⟩
    · dsimp only
      split
      · rfl
      rw [Outbox.send_of_sent hsent]
      rcases rest with - | ⟨reply, rest'⟩
      · rfl
      dsimp only [Except.bind]
      split
      · rfl
      · cases deserializeChain reply.payload <;> rfl
    · rfl

/-- And for the whole poll. -/
theorem Node.pollPeerOver_of_sent (node : Node) (others : Node → Node) (stream : Bytes) :
    node.pollPeerOver outcome others stream = delivered (node.pollPeer others stream) := by
  obtain ⟨hfirst, hsecond, hthird⟩ := Outbox.handshake_of_sent hsent
  unfold Node.pollPeerOver Node.pollPeer
  rw [hfirst]
  rcases messages stream with - | ⟨version, rest⟩
  · rfl
  dsimp only [Except.bind]
  split
  · rfl
  rw [hsecond]
  rcases rest with - | ⟨verack, - | ⟨inv, rest⟩⟩
  · rfl
  · rfl
  dsimp only
  split
  · rfl
  rw [hthird]
  rcases rest with - | ⟨block, rest⟩
  · rfl
  dsimp only
  split
  · rfl
  exact Node.pollBlockOver_of_sent hsent node others block.payload rest [_, _, _]

end

/-! ## How many sends there are -/

/-- Requests that the loop of `HandleConnection` answers. -/
def requests : List Message → Nat
  | [] => 0
  | msg :: rest =>
    if msg.command = Command.GETDATA ∨ msg.command = Command.GETBLOCKS then requests rest + 1
    else if msg.command = Command.TX then requests rest
    else 0

/-- Calls of `Peer::Send` by `HandleConnection` on a stream. -/
def connectionSends (stream : Bytes) : Nat :=
  match messages stream with
  | [] => 0
  | version :: rest =>
    if version.command ≠ Command.VERSION then 0
    else
      match rest with
      | [] => 1
      | verack :: rest => if verack.command ≠ Command.VERACK then 1 else requests rest + 3

/-- `PollPeer` asks for the whole chain behind a mined block that does not extend its own. -/
def asksForChain (chain : List CBlock) (payload : Bytes) : Bool :=
  match CBlock.deserialize payload 0 with
  | .error _ => false
  | .ok (blk, _) => !(tryExtendChain chain blk).1 &&
      !(!blk.isMerkleRootValid || !checkProofOfWork blk.toCBlockHeader)

/-- Calls of `Peer::Send` by `PollPeer` on a stream. -/
def pollSends (chain : List CBlock) (stream : Bytes) : Nat :=
  match messages stream with
  | [] => 1
  | version :: rest =>
    if version.command ≠ Command.VERSION then 1
    else
      match rest with
      | verack :: inv :: rest =>
        if verack.command ≠ Command.VERACK ∨ inv.command ≠ Command.INV then 2
        else
          match rest with
          | [] => 3
          | block :: _ =>
            if block.command ≠ Command.BLOCK then 3
            else if asksForChain chain block.payload then 4 else 3
      | _ => 2

section

variable {outcome : Nat → SendOutcome}

/-- These calls come back. -/
def AllReturn (outcome : Nat → SendOutcome) (first count : Nat) : Prop :=
  ∀ k < count, (outcome (first + k)).returns = true

omit [Crypto] in
@[simp] theorem allReturn_zero (first : Nat) : AllReturn outcome first 0 := by simp [AllReturn]

omit [Crypto] in
theorem allReturn_succ {first count : Nat} : AllReturn outcome first (count + 1) ↔
    (outcome first).returns = true ∧ AllReturn outcome (first + 1) count := by
  rw [AllReturn, Nat.forall_lt_succ_left, Nat.add_zero, AllReturn]
  simp only [Nat.add_assoc, Nat.add_comm 1]

omit [Crypto] in
/-- A handler that sends and goes on returns if this send comes back, and then the later ones. -/
theorem Outbox.isOk_bind_send {α : Type} {out : Outbox} {msg : Message}
    {next : Outbox → Except Abort α} {P : Prop} {count : Nat}
    (h : ∀ out', out'.made = out.made + 1 →
      ((next out').isOk = true ↔ P ∧ AllReturn outcome out'.made count)) :
    ((out.send outcome msg).bind next).isOk = true ↔
      P ∧ AllReturn outcome out.made (count + 1) := by
  rw [allReturn_succ, and_left_comm]
  unfold Outbox.send
  cases outcome out.made with
  | sent => simpa [Except.bind, SendOutcome.returns] using h ⟨out.made + 1, _⟩ rfl
  | failed => simpa [Except.bind, SendOutcome.returns] using h ⟨out.made + 1, _⟩ rfl
  | killed => simp [Except.bind, Except.isOk, Except.toBool, SendOutcome.returns]
  | stuck => simp [Except.bind, Except.isOk, Except.toBool, SendOutcome.returns]

omit [Crypto] in
/-- A handler that is done returns. -/
theorem isOk_done {node : Node} {out : Outbox} {sent : List Message} :
    (Except.ok (node, out) : Except Abort (Node × Outbox)).isOk = true ↔
      (Except.ok (node, sent) : Except ReadError (Node × List Message)).isOk = true ∧
        AllReturn outcome out.made 0 :=
  iff_of_true rfl ⟨rfl, allReturn_zero _⟩

/-- The serving loop returns exactly when it does without failing sends and its sends come
back. -/
theorem Node.serveOver_isOk_iff {node : Node} (hne : node.chain ≠ []) (msgs sent : List Message)
    (out : Outbox) : (node.serveOver outcome msgs out).isOk = true ↔
      (node.serve msgs sent).isOk = true ∧ AllReturn outcome out.made (requests msgs) := by
  induction msgs generalizing node sent out with
  | nil => exact iff_of_true rfl ⟨rfl, allReturn_zero _⟩
  | cons msg rest ih =>
    obtain ⟨tip, htip⟩ : ∃ tip, node.chain.getLast? = some tip :=
      ⟨_, List.getLast?_eq_some_getLast hne⟩
    -- a request: one send, then the rest of the loop
    have hanswer (reply : Message) (sent' : List Message) :
        ((out.send outcome reply).bind (node.serveOver outcome rest)).isOk = true ↔
          (node.serve rest sent').isOk = true ∧ AllReturn outcome out.made (requests rest + 1) :=
      Outbox.isOk_bind_send fun out' _ ↦ ih hne sent' out'
    rw [Node.serveOver, Node.serve, requests]
    split
    · next hget =>
      rw [if_pos (Or.inl hget), htip]
      exact hanswer _ _
    split
    · next hblocks =>
      rw [if_pos (Or.inr hblocks)]
      exact hanswer _ _
    next hget hblocks =>
    rw [if_neg (not_or.mpr ⟨hget, hblocks⟩)]
    split
    · cases Transaction.deserialize msg.payload 0 with
      | error e => simp [Except.isOk, Except.toBool]
      | ok p =>
        have hchain : (node.acceptTransaction p.1).chain ≠ [] := by
          rwa [Node.chain_acceptTransaction]
        exact ih hchain sent out
    · exact iff_of_true rfl ⟨rfl, allReturn_zero _⟩

/-- So does `HandleConnection`. -/
theorem Node.handleConnectionOver_isOk_iff {node : Node} (hne : node.chain ≠ [])
    (stream : Bytes) : (node.handleConnectionOver outcome stream).isOk = true ↔
      (node.handleConnection stream).isOk = true ∧
        AllReturn outcome 0 (connectionSends stream) := by
  obtain ⟨tip, htip⟩ : ∃ tip, node.chain.getLast? = some tip :=
    ⟨_, List.getLast?_eq_some_getLast hne⟩
  unfold Node.handleConnectionOver Node.handleConnection connectionSends
  rcases messages stream with - | ⟨version, rest⟩
  · exact iff_of_true rfl ⟨rfl, allReturn_zero _⟩
  dsimp only
  split
  · exact iff_of_true rfl ⟨rfl, allReturn_zero _⟩
  rcases rest with - | ⟨verack, rest⟩
  · exact Outbox.isOk_bind_send fun _ _ ↦ isOk_done
  dsimp only
  split
  · exact Outbox.isOk_bind_send fun _ _ ↦ isOk_done
  rw [htip]
  dsimp only
  exact Outbox.isOk_bind_send fun out₁ _ ↦ Outbox.isOk_bind_send fun out₂ _ ↦
    Outbox.isOk_bind_send fun out₃ _ ↦ Node.serveOver_isOk_iff hne rest _ out₃

/-- So does `PollPeer` once the block has arrived. -/
theorem Node.pollBlockOver_isOk_iff (node : Node) (others : Node → Node) (payload : Bytes)
    (rest sent : List Message) (out : Outbox) :
    (node.pollBlockOver outcome others payload rest out).isOk = true ↔
      (node.pollBlock others payload rest sent).isOk = true ∧
        AllReturn outcome out.made (if asksForChain node.chain payload then 1 else 0) := by
  cases hd : CBlock.deserialize payload 0 with
  | error e => simp [Node.pollBlockOver, Node.pollBlock, hd, Except.isOk, Except.toBool]
  | ok p =>
    obtain ⟨blk, next⟩ := p
    have hasks : asksForChain node.chain payload = (!(node.pollExtend blk).1 &&
        !(!blk.isMerkleRootValid || !checkProofOfWork blk.toCBlockHeader)) := by
      rw [asksForChain, hd, Node.fst_pollExtend]
    rw [hasks, Node.pollBlockOver, Node.pollBlock, hd]
    dsimp only
    rcases node.pollExtend blk with ⟨_ | _, node'⟩
    · dsimp only
      split
      · next hbad =>
        rw [hbad, if_neg (by decide)]
        exact isOk_done
      · next hgood =>
        rw [Bool.eq_false_of_not_eq_true hgood, if_pos (by decide)]
        refine Outbox.isOk_bind_send fun _ _ ↦ ?_
        rcases rest with - | ⟨reply, rest'⟩
        · exact isOk_done
        dsimp only
        split
        · exact isOk_done
        · cases deserializeChain reply.payload with
          | error e => simp [Except.isOk, Except.toBool]
          | ok peerChain => exact isOk_done
    · exact isOk_done

/-- And from its start. -/
theorem Node.pollPeerOver_isOk_iff (node : Node) (others : Node → Node) (stream : Bytes) :
    (node.pollPeerOver outcome others stream).isOk = true ↔
      (node.pollPeer others stream).isOk = true ∧
        AllReturn outcome 0 (pollSends node.chain stream) := by
  unfold Node.pollPeerOver Node.pollPeer pollSends
  rcases messages stream with - | ⟨version, rest⟩
  · exact Outbox.isOk_bind_send fun _ _ ↦ isOk_done
  dsimp only
  split
  · exact Outbox.isOk_bind_send fun _ _ ↦ isOk_done
  rcases rest with - | ⟨verack, - | ⟨inv, rest⟩⟩
  · exact Outbox.isOk_bind_send fun _ _ ↦ Outbox.isOk_bind_send fun _ _ ↦ isOk_done
  · exact Outbox.isOk_bind_send fun _ _ ↦ Outbox.isOk_bind_send fun _ _ ↦ isOk_done
  dsimp only
  split
  · exact Outbox.isOk_bind_send fun _ _ ↦ Outbox.isOk_bind_send fun _ _ ↦ isOk_done
  rcases rest with - | ⟨block, rest⟩
  · exact Outbox.isOk_bind_send fun _ _ ↦ Outbox.isOk_bind_send fun _ _ ↦
      Outbox.isOk_bind_send fun _ _ ↦ isOk_done
  dsimp only
  split
  · exact Outbox.isOk_bind_send fun _ _ ↦ Outbox.isOk_bind_send fun _ _ ↦
      Outbox.isOk_bind_send fun _ _ ↦ isOk_done
  have hsends : (if asksForChain node.chain block.payload then 4 else 3) =
      (if asksForChain node.chain block.payload then 1 else 0) + 3 := by split <;> rfl
  rw [hsends]
  exact Outbox.isOk_bind_send fun _ _ ↦ Outbox.isOk_bind_send fun _ _ ↦
    Outbox.isOk_bind_send fun out _ ↦ Node.pollBlockOver_isOk_iff node others _ rest _ out

end

/-- With an accepted chain, whatever the other threads do and whatever becomes of each send:
`HandleConnection` returns exactly when the transactions it reaches decode and its sends come back,
and `PollPeer` exactly when the block and the chain it reaches decode and its sends come back. -/
theorem no_exception_iff {node : Node} (h : validateFullChain node.chain = true)
    (others : Node → Node) (outcome : Nat → SendOutcome) (stream : Bytes) :
    ((node.handleConnectionOver outcome stream).isOk = true ↔
        ConnectionDecodes stream ∧ AllReturn outcome 0 (connectionSends stream)) ∧
      ((node.pollPeerOver outcome others stream).isOk = true ↔
        PollDecodes node.chain stream ∧
          AllReturn outcome 0 (pollSends node.chain stream)) := by
  have hne := (Ledger.validateFullChain_iff.mp h).1
  constructor
  · rw [Node.handleConnectionOver_isOk_iff hne, Node.handleConnection_isOk_iff hne]
  · rw [Node.pollPeerOver_isOk_iff, Node.pollPeer_isOk_iff]

end

/-! ## An empty transaction, and an early end -/

/-- A handshake, then a `tx` message without payload. -/
def emptyTxStream : Bytes :=
  @sendMessage keylessCrypto Command.VERSION buildVersionPayload ++
    @sendMessage keylessCrypto Command.VERACK [] ++ @sendMessage keylessCrypto Command.TX []

/-- A handshake, then a request. -/
def getdataStream : Bytes :=
  @sendMessage keylessCrypto Command.VERSION buildVersionPayload ++
    @sendMessage keylessCrypto Command.VERACK [] ++
    @sendMessage keylessCrypto Command.GETDATA (List.replicate 32 0)

/-- The peer has closed the connection when its request is answered. -/
def closedBeforeBlock (k : Nat) : SendOutcome := if k < 3 then .sent else .killed

/-- The decoder throws on the empty payload, and nothing catches it; the answer to a peer that has
gone ends the process. -/
theorem exception_emptyTxStream :
    @validateFullChain keylessCrypto Ledger.openNode.chain = true ∧
      (@Node.handleConnectionOver keylessCrypto (fun _ ↦ .sent) Ledger.openNode
          emptyTxStream).map (fun _ ↦ ()) = .error (.exception .outOfRange) ∧
      (@Node.handleConnectionOver keylessCrypto closedBeforeBlock Ledger.openNode
          getdataStream).map (fun _ ↦ ()) = .error .killed :=
  ⟨Ledger.validateFullChain_openGenesis, by decide +kernel, by decide +kernel⟩

/-- The equivalences there. -/
theorem no_exception_iff_emptyTxStream :
    ((@Node.handleConnectionOver keylessCrypto (fun _ ↦ .sent) Ledger.openNode
          emptyTxStream).isOk = true ↔
        @ConnectionDecodes keylessCrypto emptyTxStream ∧
          AllReturn (fun _ ↦ .sent) 0 (@connectionSends keylessCrypto emptyTxStream)) ∧
      ((@Node.handleConnectionOver keylessCrypto closedBeforeBlock Ledger.openNode
          getdataStream).isOk = true ↔
        @ConnectionDecodes keylessCrypto getdataStream ∧
          AllReturn closedBeforeBlock 0 (@connectionSends keylessCrypto getdataStream)) ∧
      ((@Node.pollPeerOver keylessCrypto closedBeforeBlock Ledger.openNode id
          emptyTxStream).isOk = true ↔
        @PollDecodes keylessCrypto Ledger.openNode.chain emptyTxStream ∧
          AllReturn closedBeforeBlock 0
            (@pollSends keylessCrypto Ledger.openNode.chain emptyTxStream)) := by
  have hiff := @no_exception_iff keylessCrypto Ledger.openNode
    Ledger.validateFullChain_openGenesis id
  exact ⟨(hiff (fun _ ↦ .sent) emptyTxStream).1, (hiff closedBeforeBlock getdataStream).1,
    (hiff closedBeforeBlock emptyTxStream).2⟩

end Siliqua.Network
