import Siliqua.Ledger.ForkChoice
import Siliqua.Network.Frames
import Siliqua.Storage.RoundTrip

/-!
# One poll of an honest daemon

Both ends of a connection: `PollPeer` reads the frames `HandleConnection` sends and the other
way round. A poller with a lighter chain takes over the tip of the polled node exactly when what
it asks for gets through `receive_message`.
-/

namespace Siliqua.Network

open ByteDecoder Siliqua.Core Siliqua.Consensus Siliqua.Storage Siliqua.Ledger

section

variable [Crypto]

/-- A poll from its first to its last message: each side has read what the other sent until it
was through, and no other thread of either node got in between. -/
structure Exchange (poller server poller' server' : Node) (requests replies : List Message) :
    Prop where
  poll : poller.pollPeer id (frames replies) = .ok (poller', requests)
  serve : server.handleConnection (frames requests) = .ok (server', replies)

/-! ## The messages -/

/-- The handshake of both sides. -/
private def versionMessage : Message := ⟨Command.VERSION, buildVersionPayload⟩
private def verackMessage : Message := ⟨Command.VERACK, []⟩

/-- The announcement, the request for the announced block, and the block. -/
private def invMessage (tip : CBlock) : Message := ⟨Command.INV, tip.getHash.toList⟩
private def getdataMessage (tip : CBlock) : Message := ⟨Command.GETDATA, tip.getHash.toList⟩
private def blockMessage (tip : CBlock) : Message := ⟨Command.BLOCK, tip.serialize⟩

/-- The request for the whole chain, and the chain. -/
private def getblocksMessage : Message := ⟨Command.GETBLOCKS, []⟩
private def chainMessage (chain : List CBlock) : Message :=
  ⟨Command.CHAIN, serializeChain chain⟩

omit [Crypto] in
private theorem arrives_version : versionMessage.Arrives := by decide

omit [Crypto] in
private theorem arrives_verack : verackMessage.Arrives := by decide

omit [Crypto] in
private theorem arrives_getblocks : getblocksMessage.Arrives := by decide

private theorem arrives_inv (tip : CBlock) : (invMessage tip).Arrives := by
  refine ⟨isCommand_INV, ?_⟩
  rw [invMessage, List.Vector.toList_length]
  decide

private theorem arrives_getdata (tip : CBlock) : (getdataMessage tip).Arrives := by
  refine ⟨isCommand_GETDATA, ?_⟩
  rw [getdataMessage, List.Vector.toList_length]
  decide

/-! ## What each side does -/

/-- A poll gets no version, no announcement, no block, or a block. -/
theorem pollPeer_cases {node node' : Node} {stream : Bytes} {sent : List Message}
    (h : node.pollPeer id stream = .ok (node', sent)) :
    ((∀ p rest, messages stream ≠ ⟨Command.VERSION, p⟩ :: rest) ∧ node' = node ∧
      sent = [versionMessage]) ∨
    ((∀ p q inv rest, messages stream ≠
        ⟨Command.VERSION, p⟩ :: ⟨Command.VERACK, q⟩ :: ⟨Command.INV, inv⟩ :: rest) ∧
      node' = node ∧ sent = [versionMessage, verackMessage]) ∨
    ∃ p q inv rest, messages stream =
        ⟨Command.VERSION, p⟩ :: ⟨Command.VERACK, q⟩ :: ⟨Command.INV, inv⟩ :: rest ∧
      (((∀ block later, rest ≠ ⟨Command.BLOCK, block⟩ :: later) ∧ node' = node ∧
        sent = [versionMessage, verackMessage, ⟨Command.GETDATA, inv⟩]) ∨
      ∃ block later, rest = ⟨Command.BLOCK, block⟩ :: later ∧
        node.pollBlock id block later
          [versionMessage, verackMessage, ⟨Command.GETDATA, inv⟩] = .ok (node', sent)) := by
  unfold Node.pollPeer at h
  rcases hm : messages stream with - | ⟨⟨c1, p⟩, - | ⟨⟨c2, q⟩, - | ⟨⟨c3, inv⟩, rest⟩⟩⟩
  · simp only [hm, Except.ok.injEq, Prod.mk.injEq] at h
    obtain ⟨rfl, rfl⟩ := h
    exact Or.inl ⟨by simp, rfl, rfl⟩
  all_goals
    rw [hm] at h
    dsimp only at h
    split at h
    · next hc =>
      obtain ⟨rfl, rfl⟩ := Prod.mk.inj (Except.ok.inj h)
      exact Or.inl ⟨fun p' rest' heq ↦ hc (congrArg Message.command (List.cons.inj heq).1), rfl,
        rfl⟩
  · obtain ⟨rfl, rfl⟩ := Prod.mk.inj (Except.ok.inj h)
    exact Or.inr (Or.inl ⟨by simp, rfl, rfl⟩)
  · obtain ⟨rfl, rfl⟩ := Prod.mk.inj (Except.ok.inj h)
    exact Or.inr (Or.inl ⟨by simp, rfl, rfl⟩)
  next hversion =>
  obtain rfl : c1 = Command.VERSION := not_not.mp hversion
  split at h
  · next hc =>
    obtain ⟨rfl, rfl⟩ := Prod.mk.inj (Except.ok.inj h)
    refine Or.inr (Or.inl ⟨fun p' q' inv' rest' heq ↦ ?_, rfl, rfl⟩)
    simp only [List.cons.injEq, Message.mk.injEq] at heq
    obtain ⟨-, ⟨hc2, -⟩, ⟨hc3, -⟩, -⟩ := heq
    exact hc.elim (fun hne ↦ hne hc2) fun hne ↦ hne hc3
  · next hc =>
    obtain ⟨hc2, hc3⟩ := not_or.mp hc
    obtain rfl : c2 = Command.VERACK := not_not.mp hc2
    obtain rfl : c3 = Command.INV := not_not.mp hc3
    refine Or.inr (Or.inr ⟨p, q, inv, rest, rfl, ?_⟩)
    rcases rest with - | ⟨⟨c4, block⟩, later⟩
    · obtain ⟨rfl, rfl⟩ := Prod.mk.inj (Except.ok.inj h)
      exact Or.inl ⟨by simp, rfl, rfl⟩
    · dsimp only at h
      split at h
      · next hc4 =>
        obtain ⟨rfl, rfl⟩ := Prod.mk.inj (Except.ok.inj h)
        exact Or.inl ⟨by simpa using hc4, rfl, rfl⟩
      · next hc4 =>
        obtain rfl : c4 = Command.BLOCK := not_not.mp hc4
        exact Or.inr ⟨block, later, rfl, h⟩

/-- The part of a poll after the block only adds to what was sent. -/
theorem pollBlock_extends {node node' : Node} {payload : Bytes} {rest sent sent' : List Message}
    (h : node.pollBlock id payload rest sent = .ok (node', sent')) : sent <+: sent' := by
  unfold Node.pollBlock at h
  split at h
  · cases h
  · split at h
    · obtain ⟨-, rfl⟩ := Prod.mk.inj (Except.ok.inj h)
      exact List.prefix_rfl
    · split at h
      · obtain ⟨-, rfl⟩ := Prod.mk.inj (Except.ok.inj h)
        exact List.prefix_rfl
      · dsimp only at h
        split at h
        · obtain ⟨-, rfl⟩ := Prod.mk.inj (Except.ok.inj h)
          exact List.prefix_append _ _
        · split at h
          · obtain ⟨-, rfl⟩ := Prod.mk.inj (Except.ok.inj h)
            exact List.prefix_append _ _
          · split at h
            · cases h
            · obtain ⟨-, rfl⟩ := Prod.mk.inj (Except.ok.inj h)
              exact List.prefix_append _ _

/-- A poll extends its chain by a block that fits. -/
theorem pollBlock_of_fastFits {node : Node} (hne : node.chain ≠ []) {payload : Bytes} {tip : CBlock}
    {next : Nat} (hdecode : CBlock.deserialize payload 0 = .ok (tip, next))
    (hfits : FastFits node.chain tip) (rest sent : List Message) :
    node.pollBlock id payload rest sent = .ok (node.saveChain (node.chain ++ [tip]), sent) := by
  unfold Node.pollBlock Node.pollExtend
  rcases tryExtendChain_cases hne tip with ⟨-, heq⟩ | ⟨hmisfit, -⟩
  · simp only [hdecode, heq, if_true]
  · exact absurd hfits hmisfit

/-- A poll asks for the chain behind a mined block that does not fit. -/
theorem pollBlock_of_not_fastFits {node : Node} (hne : node.chain ≠ []) {payload : Bytes}
    {tip : CBlock} {next : Nat} (hdecode : CBlock.deserialize payload 0 = .ok (tip, next))
    (hmisfit : ¬ FastFits node.chain tip) (hmerkle : tip.isMerkleRootValid = true)
    (hwork : checkProofOfWork tip.toCBlockHeader = true) (rest sent : List Message) :
    node.pollBlock id payload rest sent =
      match rest with
      | [] => .ok (node, sent ++ [getblocksMessage])
      | msg :: _ =>
        if msg.command ≠ Command.CHAIN then .ok (node, sent ++ [getblocksMessage])
        else
          match deserializeChain msg.payload with
          | .error e => .error e
          | .ok peerChain => .ok ((node.pollReorg peerChain).2, sent ++ [getblocksMessage]) := by
  have hkeep : node.pollExtend tip = (false, node) := by
    rcases tryExtendChain_cases hne tip with ⟨hfits, -⟩ | ⟨-, heq⟩
    · exact absurd hfits hmisfit
    · simp only [Node.pollExtend, heq, Bool.false_eq_true, if_false]
  unfold Node.pollBlock
  simp only [hdecode, hkeep, hmerkle, hwork, Bool.not_true, Bool.or_self, Bool.false_eq_true,
    if_false]
  rfl

/-- What it ends with when no exception gets out. -/
theorem pollBlock_asks {node node' : Node} (hne : node.chain ≠ []) {payload : Bytes} {tip : CBlock}
    {next : Nat} (hdecode : CBlock.deserialize payload 0 = .ok (tip, next))
    (hmisfit : ¬ FastFits node.chain tip) (hmerkle : tip.isMerkleRootValid = true)
    (hwork : checkProofOfWork tip.toCBlockHeader = true) {rest sent sent' : List Message}
    (h : node.pollBlock id payload rest sent = .ok (node', sent')) :
    sent' = sent ++ [getblocksMessage] ∧
      (((∀ chain later, rest ≠ ⟨Command.CHAIN, chain⟩ :: later) ∧ node' = node) ∨
        ∃ chain later peerChain, rest = ⟨Command.CHAIN, chain⟩ :: later ∧
          deserializeChain chain = .ok peerChain ∧ node' = (node.pollReorg peerChain).2) := by
  rw [pollBlock_of_not_fastFits hne hdecode hmisfit hmerkle hwork] at h
  rcases rest with - | ⟨⟨cmd, chain⟩, later⟩
  · obtain ⟨rfl, rfl⟩ := Prod.mk.inj (Except.ok.inj h)
    exact ⟨rfl, Or.inl ⟨by simp, rfl⟩⟩
  · dsimp only at h
    split at h
    · next hc =>
      obtain ⟨rfl, rfl⟩ := Prod.mk.inj (Except.ok.inj h)
      exact ⟨rfl, Or.inl ⟨fun chain' later' heq ↦
        hc (congrArg Message.command (List.cons.inj heq).1), rfl⟩⟩
    · next hc =>
      obtain rfl : cmd = Command.CHAIN := not_not.mp hc
      split at h
      · cases h
      · next peerChain hload =>
        obtain ⟨rfl, rfl⟩ := Prod.mk.inj (Except.ok.inj h)
        exact ⟨rfl, Or.inr ⟨chain, later, peerChain, rfl, hload, rfl⟩⟩

/-- Serving only adds to what was sent. -/
theorem serve_extends {node node' : Node} {msgs sent sent' : List Message}
    (h : node.serve msgs sent = .ok (node', sent')) : sent <+: sent' := by
  induction msgs generalizing node sent with
  | nil =>
    obtain ⟨-, rfl⟩ := Prod.mk.inj (Except.ok.inj h)
    exact List.prefix_rfl
  | cons msg msgs ih =>
    rw [Node.serve] at h
    split at h
    · split at h
      · obtain ⟨-, rfl⟩ := Prod.mk.inj (Except.ok.inj h)
        exact List.prefix_rfl
      · exact (List.prefix_append _ _).trans (ih h)
    · split at h
      · exact (List.prefix_append _ _).trans (ih h)
      · split at h
        · split at h
          · cases h
          · exact ih h
        · obtain ⟨-, rfl⟩ := Prod.mk.inj (Except.ok.inj h)
          exact List.prefix_rfl

/-- A daemon with a tip gets no version, no acknowledgement, or serves. -/
theorem handleConnection_cases {node node' : Node} {stream : Bytes} {sent : List Message}
    {tip : CBlock} (htip : node.chain.getLast? = some tip)
    (h : node.handleConnection stream = .ok (node', sent)) :
    ((∀ p rest, messages stream ≠ ⟨Command.VERSION, p⟩ :: rest) ∧ sent = []) ∨
    ((∀ p q rest, messages stream ≠ ⟨Command.VERSION, p⟩ :: ⟨Command.VERACK, q⟩ :: rest) ∧
      sent = [versionMessage]) ∨
    ∃ p q rest, messages stream = ⟨Command.VERSION, p⟩ :: ⟨Command.VERACK, q⟩ :: rest ∧
      node.serve rest [versionMessage, verackMessage, invMessage tip] = .ok (node', sent) := by
  unfold Node.handleConnection at h
  rcases hm : messages stream with - | ⟨⟨c1, p⟩, rest⟩
  · simp only [hm, Except.ok.injEq, Prod.mk.injEq] at h
    exact Or.inl ⟨by simp, h.2.symm⟩
  rw [hm] at h
  dsimp only at h
  split at h
  · next hc =>
    obtain ⟨-, rfl⟩ := Prod.mk.inj (Except.ok.inj h)
    exact Or.inl ⟨fun p' rest' heq ↦ hc (congrArg Message.command (List.cons.inj heq).1), rfl⟩
  · next hc =>
    obtain rfl : c1 = Command.VERSION := not_not.mp hc
    rcases rest with - | ⟨⟨c2, q⟩, rest⟩
    · obtain ⟨-, rfl⟩ := Prod.mk.inj (Except.ok.inj h)
      exact Or.inr (Or.inl ⟨by simp, rfl⟩)
    · dsimp only at h
      split at h
      · next hc2 =>
        obtain ⟨-, rfl⟩ := Prod.mk.inj (Except.ok.inj h)
        refine Or.inr (Or.inl ⟨fun p' q' rest' heq ↦ ?_, rfl⟩)
        simp only [List.cons.injEq, Message.mk.injEq] at heq
        exact hc2 heq.2.1.1
      · next hc2 =>
        obtain rfl : c2 = Command.VERACK := not_not.mp hc2
        rw [htip] at h
        exact Or.inr (Or.inr ⟨p, q, rest, rfl, h⟩)

/-! ## The opening -/

section Opening

variable {poller server poller' server' : Node} {requests replies : List Message} {tip : CBlock}
  (hx : Exchange poller server poller' server' requests replies)
  (htip : server.chain.getLast? = some tip)
include hx htip

omit htip in
/-- The poller starts with its version. -/
private theorem Exchange.asks_version : ∃ asked, requests = [versionMessage] ++ asked := by
  rcases pollPeer_cases hx.poll with ⟨-, -, rfl⟩ | ⟨-, -, rfl⟩ |
    ⟨p, q, inv, rest, -, ⟨-, -, rfl⟩ | ⟨_, _, -, h⟩⟩
  · exact ⟨[], rfl⟩
  · exact ⟨_, rfl⟩
  · exact ⟨_, rfl⟩
  · obtain ⟨asked, rfl⟩ := pollBlock_extends h
    exact ⟨_, rfl⟩

/-- So the daemon sends its own. -/
private theorem Exchange.serves_version : ∃ served, replies = [versionMessage] ++ served := by
  obtain ⟨asked, hasked⟩ := hx.asks_version
  have hin : messages (frames requests) = versionMessage :: messages (frames asked) := by
    rw [hasked]
    exact messages_frames_append (by simp [arrives_version]) asked
  rcases handleConnection_cases htip hx.serve with ⟨hnone, -⟩ | ⟨-, rfl⟩ | ⟨p, q, rest, -, h⟩
  · exact absurd hin (hnone _ _)
  · exact ⟨[], rfl⟩
  · obtain ⟨served, rfl⟩ := serve_extends h
    exact ⟨_, rfl⟩

/-- The poller acknowledges. -/
private theorem Exchange.asks_verack :
    ∃ asked, requests = [versionMessage, verackMessage] ++ asked := by
  obtain ⟨served, hserved⟩ := hx.serves_version htip
  have hout : messages (frames replies) = versionMessage :: messages (frames served) := by
    rw [hserved]
    exact messages_frames_append (by simp [arrives_version]) served
  rcases pollPeer_cases hx.poll with ⟨hnone, -⟩ | ⟨-, -, rfl⟩ |
    ⟨p, q, inv, rest, -, ⟨-, -, rfl⟩ | ⟨_, _, -, h⟩⟩
  · exact absurd hout (hnone _ _)
  · exact ⟨[], rfl⟩
  · exact ⟨_, rfl⟩
  · obtain ⟨asked, rfl⟩ := pollBlock_extends h
    exact ⟨_, rfl⟩

/-- The daemon acknowledges and announces its last block. -/
private theorem Exchange.serves_inv :
    ∃ served, replies = [versionMessage, verackMessage, invMessage tip] ++ served := by
  obtain ⟨asked, hasked⟩ := hx.asks_verack htip
  have hin : messages (frames requests) =
      versionMessage :: verackMessage :: messages (frames asked) := by
    rw [hasked]
    exact messages_frames_append (by simp [arrives_version, arrives_verack]) asked
  rcases handleConnection_cases htip hx.serve with ⟨hnone, -⟩ | ⟨hnone, -⟩ | ⟨p, q, rest, -, h⟩
  · exact absurd hin (hnone _ _)
  · exact absurd hin (hnone _ _ _)
  · obtain ⟨served, hserved⟩ := serve_extends h
    exact ⟨served, hserved.symm⟩

/-- Every exchange gets as far as the daemon sending its last block. -/
theorem Exchange.opens : ∃ asked served,
    requests = [versionMessage, verackMessage, getdataMessage tip] ++ asked ∧
    replies = [versionMessage, verackMessage, invMessage tip, blockMessage tip] ++ served ∧
    server.serve (messages (frames asked))
        [versionMessage, verackMessage, invMessage tip, blockMessage tip] =
      .ok (server', replies) ∧
    ((asked = [] ∧ poller' = poller ∧ ∀ block later,
        messages (frames (blockMessage tip :: served)) ≠ ⟨Command.BLOCK, block⟩ :: later) ∨
      ∃ block later,
        messages (frames (blockMessage tip :: served)) = ⟨Command.BLOCK, block⟩ :: later ∧
        poller.pollBlock id block later [versionMessage, verackMessage, getdataMessage tip] =
          .ok (poller', requests)) := by
  obtain ⟨served₂, hserved₂⟩ := hx.serves_inv htip
  have hout : messages (frames replies) = versionMessage :: verackMessage :: invMessage tip ::
      messages (frames served₂) := by
    rw [hserved₂]
    exact messages_frames_append (by simp [arrives_version, arrives_verack, arrives_inv]) served₂
  obtain ⟨asked, hasked, hblock⟩ : ∃ asked,
      requests = [versionMessage, verackMessage, getdataMessage tip] ++ asked ∧
      ((asked = [] ∧ poller' = poller ∧ ∀ block later,
          messages (frames served₂) ≠ ⟨Command.BLOCK, block⟩ :: later) ∨
        ∃ block later, messages (frames served₂) = ⟨Command.BLOCK, block⟩ :: later ∧
          poller.pollBlock id block later [versionMessage, verackMessage, getdataMessage tip] =
            .ok (poller', requests)) := by
    rcases pollPeer_cases hx.poll with ⟨hnone, -⟩ | ⟨hnone, -⟩ | ⟨p, q, inv, rest, hm, hlast⟩
    · exact absurd hout (hnone _ _)
    · exact absurd hout (hnone _ _ _ _)
    rw [hout] at hm
    simp only [List.cons.injEq, invMessage, Message.mk.injEq, true_and] at hm
    obtain ⟨-, -, rfl, rfl⟩ := hm
    rcases hlast with ⟨hnone, hsame, rfl⟩ | ⟨block, later, hm, h⟩
    · exact ⟨[], rfl, Or.inl ⟨rfl, hsame, hnone⟩⟩
    · obtain ⟨asked, rfl⟩ := pollBlock_extends h
      exact ⟨asked, rfl, Or.inr ⟨block, later, hm, h⟩⟩
  have hin : messages (frames requests) =
      versionMessage :: verackMessage :: getdataMessage tip :: messages (frames asked) := by
    rw [hasked]
    exact messages_frames_append
      (by simp [arrives_version, arrives_verack, arrives_getdata]) asked
  rcases handleConnection_cases htip hx.serve with ⟨hnone, -⟩ | ⟨hnone, -⟩ | ⟨p, q, rest, hm, h⟩
  · exact absurd hin (hnone _ _)
  · exact absurd hin (hnone _ _ _)
  rw [hin] at hm
  simp only [List.cons.injEq] at hm
  obtain ⟨-, -, rfl⟩ := hm
  rw [Node.serve, getdataMessage, if_pos rfl, htip] at h
  obtain ⟨served, hserved⟩ := serve_extends h
  have hserved₂' : served₂ = blockMessage tip :: served := by
    rw [← hserved] at hserved₂
    simpa [blockMessage] using hserved₂.symm
  rw [hserved₂'] at hblock
  exact ⟨asked, served, hasked, hserved.symm, h, hblock⟩

/-- A block within the bound gets through. -/
theorem Exchange.gets_block (hle : tip.serialize.length ≤ MAX_PAYLOAD_SIZE) : ∃ asked served,
    requests = [versionMessage, verackMessage, getdataMessage tip] ++ asked ∧
    replies = [versionMessage, verackMessage, invMessage tip, blockMessage tip] ++ served ∧
    server.serve (messages (frames asked))
        [versionMessage, verackMessage, invMessage tip, blockMessage tip] =
      .ok (server', replies) ∧
    poller.pollBlock id tip.serialize (messages (frames served))
        [versionMessage, verackMessage, getdataMessage tip] = .ok (poller', requests) := by
  obtain ⟨asked, served, hasked, hserved, hserve, hblock⟩ := hx.opens htip
  have harrives : messages (frames (blockMessage tip :: served)) =
      blockMessage tip :: messages (frames served) :=
    @messages_frames_append _ [blockMessage tip]
      (List.forall_mem_singleton.mpr ⟨isCommand_BLOCK, hle⟩) served
  rw [harrives] at hblock
  rcases hblock with ⟨-, -, hnone⟩ | ⟨block, later, hm, h⟩
  · exact absurd rfl (hnone _ _)
  · simp only [List.cons.injEq, blockMessage, Message.mk.injEq, true_and] at hm
    obtain ⟨rfl, rfl⟩ := hm
    exact ⟨asked, served, hasked, hserved, hserve, h⟩

/-- A block beyond the bound leaves the poller as it was. -/
theorem Exchange.misses_block (htipEnc : tip.Encodable)
    (hlt : MAX_PAYLOAD_SIZE < tip.serialize.length) : poller' = poller := by
  obtain ⟨asked, served, -, -, -, hblock⟩ := hx.opens htip
  rcases hblock with ⟨-, hsame, -⟩ | ⟨block, later, hm, h⟩
  · exact hsame
  rcases messages_frames_oversize isCommand_BLOCK hlt served with hnone | ⟨part, later', hm', hpart,
    hne⟩
  · exact absurd (hnone.symm.trans hm) (by simp)
  -- a part of the block does not decode
  have heq := hm'.symm.trans hm
  simp only [List.cons.injEq, Message.mk.injEq, true_and] at heq
  obtain ⟨rfl, -⟩ := heq
  unfold Node.pollBlock at h
  split at h
  · cases h
  · next hdecode => exact absurd (CBlock.codec.eq_of_decode_part htipEnc hpart hdecode) hne

section Fitting

variable (hne : poller.chain ≠ []) (htipEnc : tip.Encodable)
  (hle : tip.serialize.length ≤ MAX_PAYLOAD_SIZE)
include hne htipEnc hle

/-- A block that gets through and fits ends up on top of the poller's chain. -/
theorem Exchange.extends (hfits : FastFits poller.chain tip) :
    poller'.chain = poller.chain ++ [tip] := by
  obtain ⟨asked, served, -, -, -, h⟩ := hx.gets_block htip hle
  have hdecode := CBlock.deserialize_serialize htipEnc
  rw [pollBlock_of_fastFits hne hdecode hfits] at h
  obtain ⟨rfl, -⟩ := Prod.mk.inj (Except.ok.inj h)
  rfl

/-- Behind a mined block that gets through and does not fit, the daemon is asked for its chain and
sends it. -/
theorem Exchange.gets_chain (hmisfit : ¬ FastFits poller.chain tip)
    (hmerkle : tip.isMerkleRootValid = true)
    (hwork : checkProofOfWork tip.toCBlockHeader = true) :
    ((∀ chain later,
        messages (frames [chainMessage server.chain]) ≠ ⟨Command.CHAIN, chain⟩ :: later) ∧
      poller' = poller) ∨
    ∃ chain later peerChain,
      messages (frames [chainMessage server.chain]) = ⟨Command.CHAIN, chain⟩ :: later ∧
      deserializeChain chain = .ok peerChain ∧ poller' = (poller.pollReorg peerChain).2 := by
  obtain ⟨asked, served, hasked, hserved, hserve, h⟩ := hx.gets_block htip hle
  have hdecode := CBlock.deserialize_serialize htipEnc
  obtain ⟨hrequests, hrest⟩ := pollBlock_asks hne hdecode hmisfit hmerkle hwork h
  obtain rfl : asked = [getblocksMessage] := List.append_cancel_left (hasked.symm.trans hrequests)
  rw [messages_frames (by simp [arrives_getblocks])] at hserve
  obtain rfl : served = [chainMessage server.chain] := by
    obtain ⟨-, hreplies⟩ := Prod.mk.inj (Except.ok.inj hserve)
    exact List.append_cancel_left (hserved.symm.trans hreplies.symm)
  exact hrest

/-- If the chain is within the bound too, the poller takes it if it is one to switch to. -/
theorem Exchange.switches (hmisfit : ¬ FastFits poller.chain tip)
    (hmerkle : tip.isMerkleRootValid = true)
    (hwork : checkProofOfWork tip.toCBlockHeader = true) (henc : ChainEncodable server.chain)
    (hle' : (serializeChain server.chain).length ≤ MAX_PAYLOAD_SIZE) :
    poller' = (poller.pollReorg server.chain).2 := by
  have harrives := @messages_frames _ [chainMessage server.chain]
    (List.forall_mem_singleton.mpr ⟨isCommand_CHAIN, hle'⟩)
  rcases hx.gets_chain htip hne htipEnc hle hmisfit hmerkle hwork with
    ⟨hnone, -⟩ | ⟨chain, later, peerChain, hm, hload, rfl⟩
  · exact absurd harrives (hnone _ _)
  · have heq := harrives.symm.trans hm
    simp only [List.cons.injEq, chainMessage, Message.mk.injEq, true_and] at heq
    obtain ⟨rfl, -⟩ := heq
    rw [Except.ok.inj (hload.symm.trans (deserializeChain_saved henc))]

/-- If the chain is beyond the bound, the poller stays as it was. -/
theorem Exchange.misses_chain (hmisfit : ¬ FastFits poller.chain tip)
    (hmerkle : tip.isMerkleRootValid = true)
    (hwork : checkProofOfWork tip.toCBlockHeader = true) (henc : ChainEncodable server.chain)
    (hlt : MAX_PAYLOAD_SIZE < (serializeChain server.chain).length) : poller' = poller := by
  rcases hx.gets_chain htip hne htipEnc hle hmisfit hmerkle hwork with
    ⟨-, hsame⟩ | ⟨chain, later, peerChain, hm, hload, -⟩
  · exact hsame
  rcases messages_frames_oversize isCommand_CHAIN hlt [] with hnone | ⟨part, later', hm', hpart,
    hne'⟩
  · exact absurd (hnone.symm.trans hm) (by simp)
  · have heq := hm'.symm.trans hm
    simp only [List.cons.injEq, Message.mk.injEq, true_and] at heq
    obtain ⟨rfl, -⟩ := heq
    have hfail := isOk_map_fst_of_part codec_chain henc hpart hne'
    rw [← deserializeChain, hload] at hfail
    cases hfail

end Fitting

end Opening

/-! ## Every poll of a small enough chain ends -/

section Existence

variable {server : Node} {tip : CBlock} (htip : server.chain.getLast? = some tip)
include htip

/-- What the daemon sends to a poller that asks for the block only. -/
private theorem handleConnection_block :
    server.handleConnection (frames [versionMessage, verackMessage, getdataMessage tip]) =
      .ok (server, [versionMessage, verackMessage, invMessage tip, blockMessage tip]) := by
  have hin : messages (frames [versionMessage, verackMessage, getdataMessage tip]) =
      [versionMessage, verackMessage, getdataMessage tip] :=
    messages_frames (by simp [arrives_version, arrives_verack, arrives_getdata])
  rw [Node.handleConnection, hin]
  simp only [versionMessage, verackMessage, ne_eq, not_true_eq_false, if_false, htip]
  rw [Node.serve, getdataMessage, if_pos rfl, htip]
  rfl

/-- What it sends to one that asks for the chain too. -/
private theorem handleConnection_chain : server.handleConnection
      (frames [versionMessage, verackMessage, getdataMessage tip, getblocksMessage]) =
    .ok (server, [versionMessage, verackMessage, invMessage tip, blockMessage tip,
      chainMessage server.chain]) := by
  have hin : messages (frames [versionMessage, verackMessage, getdataMessage tip,
      getblocksMessage]) =
        [versionMessage, verackMessage, getdataMessage tip, getblocksMessage] :=
    messages_frames
      (by simp [arrives_version, arrives_verack, arrives_getdata, arrives_getblocks])
  rw [Node.handleConnection, hin]
  simp only [versionMessage, verackMessage, ne_eq, not_true_eq_false, if_false, htip]
  rw [Node.serve, getdataMessage, if_pos rfl, htip]
  rfl

omit htip in
/-- How a poll goes on behind the announcement. -/
private theorem pollPeer_frames (poller : Node) (served : List Message) :
    poller.pollPeer id (frames ([versionMessage, verackMessage, invMessage tip] ++ served)) =
      match messages (frames served) with
      | [] => .ok (poller, [versionMessage, verackMessage, getdataMessage tip])
      | block :: later =>
        if block.command ≠ Command.BLOCK then
          .ok (poller, [versionMessage, verackMessage, getdataMessage tip])
        else poller.pollBlock id block.payload later
          [versionMessage, verackMessage, getdataMessage tip] := by
  rw [Node.pollPeer, messages_frames_append
    (by simp [arrives_version, arrives_verack, arrives_inv])]
  simp only [List.cons_append, List.nil_append, versionMessage, verackMessage, invMessage, ne_eq,
    not_true_eq_false, or_self, if_false]
  rfl

/-- A poll of a daemon whose chain takes less than `2 ^ 32` bytes runs to its end. -/
theorem exists_exchange {poller : Node} (hne : poller.chain ≠ [])
    (hmerkle : tip.isMerkleRootValid = true)
    (hwork : checkProofOfWork tip.toCBlockHeader = true) (henc : ChainEncodable server.chain)
    (hlt : (serializeChain server.chain).length < 2 ^ 32) :
    ∃ poller' server' requests replies,
      Exchange poller server poller' server' requests replies := by
  have hmem : tip ∈ server.chain := List.mem_of_getLast? htip
  have hdecode := CBlock.deserialize_serialize (henc.2 tip hmem)
  have hload := deserializeChain_saved henc
  have hpoll := @pollPeer_frames _ tip poller
  by_cases hle : tip.serialize.length ≤ MAX_PAYLOAD_SIZE
  · have hblock : ∀ served, messages (frames (blockMessage tip :: served)) =
        blockMessage tip :: messages (frames served) := fun served ↦
      @messages_frames_append _ [blockMessage tip]
        (List.forall_mem_singleton.mpr ⟨isCommand_BLOCK, hle⟩) served
    by_cases hfits : FastFits poller.chain tip
    · refine ⟨poller.saveChain (poller.chain ++ [tip]), server, _, _,
        ⟨?_, handleConnection_block htip⟩⟩
      have hend := hpoll [blockMessage tip]
      rw [hblock] at hend
      simp only [blockMessage, ne_eq, not_true_eq_false, if_false,
        pollBlock_of_fastFits hne hdecode hfits] at hend
      exact hend
    have hend := hpoll [blockMessage tip, chainMessage server.chain]
    rw [hblock] at hend
    simp only [blockMessage, ne_eq, not_true_eq_false, if_false,
      pollBlock_of_not_fastFits hne hdecode hfits hmerkle hwork] at hend
    by_cases hle' : (serializeChain server.chain).length ≤ MAX_PAYLOAD_SIZE
    · have hchain := @messages_frames _ [chainMessage server.chain]
        (List.forall_mem_singleton.mpr ⟨isCommand_CHAIN, hle'⟩)
      refine ⟨(poller.pollReorg server.chain).2, server, _, _,
        ⟨?_, handleConnection_chain htip⟩⟩
      rw [hchain] at hend
      simp only [chainMessage, not_true_eq_false, if_false, hload] at hend
      exact hend
    · have hchain : messages (frames [chainMessage server.chain]) = [] :=
        messages_frames_of_lt (Nat.not_le.mp hle') hlt []
      refine ⟨poller, server, _, _, ⟨?_, handleConnection_chain htip⟩⟩
      rw [hchain] at hend
      exact hend
  · refine ⟨poller, server, _, _, ⟨?_, handleConnection_block htip⟩⟩
    have hnone : messages (frames [blockMessage tip]) = [] :=
      messages_frames_of_lt (Nat.not_le.mp hle)
        (Nat.lt_of_le_of_lt (length_serialize_le hmem) hlt) []
    have hend := hpoll [blockMessage tip]
    rw [hnone] at hend
    exact hend

end Existence

/-! ## Following a heavier chain -/

/-- What a poll needs of the server's chain gets through: the last block and, unless it fits on
top of the poller's chain, the chain. -/
def GetsThrough (chain served : List CBlock) (tip : CBlock) : Prop :=
  tip.serialize.length ≤ MAX_PAYLOAD_SIZE ∧
    (FastFits chain tip ∨ (serializeChain served).length ≤ MAX_PAYLOAD_SIZE)

/-- The last block of an accepted chain is mined. -/
private theorem mined_of_accepted {chain : List CBlock} (h : validateFullChain chain = true)
    {tip : CBlock} (htip : chain.getLast? = some tip) :
    tip.isMerkleRootValid = true ∧ checkProofOfWork tip.toCBlockHeader = true := by
  obtain ⟨pre, rfl⟩ := List.getLast?_eq_some_iff.mp htip
  have hfits := (validateFullChain_iff.mp h).2 pre tip [] rfl
  exact ⟨hfits.merkle, hfits.work⟩

section Following

variable {poller server poller' server' : Node} {requests replies : List Message} {tip : CBlock}
  (hx : Exchange poller server poller' server' requests replies)
  (htip : server.chain.getLast? = some tip) (hne : poller.chain ≠ [])
  (hserver : validateFullChain server.chain = true)
include hx htip hne hserver

/-- What gets through is taken: the block on top of the poller's chain, or the heavier chain. -/
private theorem Exchange.adopts (hgenesis : genesisHash server.chain = genesisHash poller.chain)
    (hheavier : work poller.chain < work server.chain)
    (hhash : ∀ blk ∈ server.chain, ∀ tx ∈ blk.vtx, tx.txHash = tx.getHash)
    (hthrough : GetsThrough poller.chain server.chain tip) :
    tipHash poller'.chain = tipHash server.chain := by
  obtain ⟨hle, hrest⟩ := hthrough
  obtain ⟨hmerkle, hwork⟩ := mined_of_accepted hserver htip
  have hsmall : MAX_PAYLOAD_SIZE < 2 ^ 32 := by decide
  have htipEnc : tip.Encodable := CBlock.encodable_of_length
    (hhash tip (List.mem_of_getLast? htip)) (Nat.lt_of_le_of_lt hle hsmall)
  by_cases hfits : FastFits poller.chain tip
  · rw [hx.extends htip hne htipEnc hle hfits, tipHash_concat, tipHash_eq htip]
  · have hle' := hrest.resolve_left hfits
    have henc := chainEncodable_of_length hhash (Nat.lt_of_le_of_lt hle' hsmall)
    have helig : eligible poller.chain server.chain = true := by
      simp [eligible, hgenesis, hserver]
    rw [hx.switches htip hne htipEnc hle hfits hmerkle hwork henc hle', Node.pollReorg,
      tryReorg_eq hne, if_pos ⟨helig, hheavier⟩]
    rfl

/-- If something does not get through, the poller stays as it was. -/
private theorem Exchange.stays (henc : ChainEncodable server.chain)
    (hlost : ¬ GetsThrough poller.chain server.chain tip) : poller' = poller := by
  have htipEnc := henc.2 tip (List.mem_of_getLast? htip)
  obtain ⟨hmerkle, hwork⟩ := mined_of_accepted hserver htip
  by_cases hle : tip.serialize.length ≤ MAX_PAYLOAD_SIZE
  · obtain ⟨hfits, hlt⟩ := not_or.mp fun h ↦ hlost ⟨hle, h⟩
    exact hx.misses_chain htip hne htipEnc hle hfits hmerkle hwork henc (Nat.not_le.mp hlt)
  · exact hx.misses_block htip htipEnc (Nat.not_le.mp hle)

end Following

/-- Between two accepted chains from one genesis, the server's heavier: a poll runs to its end; if
what it needs gets through, the poller ends at the server's tip; and for a server's chain within
the limits of the format it ends there in no other case, unless it was there before. -/
theorem exchange_adopts_iff {poller server : Node} (hpoller : validateFullChain poller.chain = true)
    (hserver : validateFullChain server.chain = true)
    (hgenesis : genesisHash server.chain = genesisHash poller.chain)
    (hheavier : work poller.chain < work server.chain)
    (hhash : ∀ blk ∈ server.chain, ∀ tx ∈ blk.vtx, tx.txHash = tx.getHash)
    {tip : CBlock} (htip : server.chain.getLast? = some tip) :
    ((serializeChain server.chain).length < 2 ^ 32 → ∃ poller' server' requests replies,
      Exchange poller server poller' server' requests replies) ∧
    ∀ poller' server' requests replies,
      Exchange poller server poller' server' requests replies →
      (GetsThrough poller.chain server.chain tip →
        tipHash poller'.chain = tipHash server.chain) ∧
      (ChainEncodable server.chain → (tipHash poller'.chain = tipHash server.chain ↔
        tipHash poller.chain = tipHash server.chain ∨
          GetsThrough poller.chain server.chain tip)) := by
  have hne := (validateFullChain_iff.mp hpoller).1
  refine ⟨fun hlt ↦ ?_, fun poller' server' requests replies hx ↦ ⟨?_, fun henc ↦ ?_⟩⟩
  · obtain ⟨hmerkle, hwork⟩ := mined_of_accepted hserver htip
    exact exists_exchange htip hne hmerkle hwork (chainEncodable_of_length hhash hlt) hlt
  · exact hx.adopts htip hne hserver hgenesis hheavier hhash
  · by_cases hthrough : GetsThrough poller.chain server.chain tip
    · have hadopted := hx.adopts htip hne hserver hgenesis hheavier hhash hthrough
      exact iff_of_true hadopted (Or.inr hthrough)
    · rw [hx.stays htip hne hserver henc hthrough, or_iff_left hthrough]

end

/-! ## A chain that has grown beyond the bound -/

/-- A header hashes to its nonce, 32 bytes to themselves and everything else to zero. -/
def nonceHash (input : Bytes) : Hash256 where
  val := if input.length = 80 then List.replicate 28 0 ++ input.drop 76
    else if input.length = 32 then input
    else List.replicate 32 0
  property := by
    split
    · next h => simp [h]
    · split
      · next h => exact h
      · rfl

theorem nonceHash_eq_zero {input : Bytes} (h : input.length ≠ 80) (h' : input.length ≠ 32) :
    nonceHash input = Hash256.zero := by
  apply Subtype.ext
  simp only [nonceHash, if_neg h, if_neg h']
  rfl

/-- Primitives with that hash, in a world without keys. -/
@[reducible] def nonceCrypto : Crypto where
  hashSha256 := nonceHash
  hashRipemd160 _ := List.Vector.replicate 20 0
  ecdsaSignatureParseCompact _ := false
  ecPubkeyParse _ := false
  ecdsaVerify _ _ _ := false

/-- A coinbase with a script of the given length. -/
def paddedTx (padding : Nat) : Transaction where
  nVersion := 1
  vin := [⟨COutPoint.null, List.replicate padding 0, 0xFFFFFFFF⟩]
  vout := [⟨5000000000, []⟩]
  nLockTime := 0
  txHash := Hash256.zero

/-- The block with that coinbase and a nonce, on top of the block with the nonce before. -/
def paddedBlock (padding : Nat) (nonce : UInt32) : CBlock where
  nVersion := 1
  hashPrevBlock := if nonce = 1 then Hash256.zero
    else ⟨List.replicate 28 0 ++ writeUint32LE [] (nonce - 1), rfl⟩
  hashMerkleRoot := Hash256.zero
  nTime := 1700000000 + nonce
  nBits := INITIAL_BITS
  nNonce := nonce
  vtx := [paddedTx padding]

/-- Three blocks, the first one with a short coinbase. -/
def paddedChain (padding : Nat) : List CBlock :=
  [paddedBlock 0 1, paddedBlock padding 2, paddedBlock padding 3]

private theorem length_paddedTx (padding : Nat) :
    (paddedTx padding).serialize.length = padding + 72 := by
  simp only [Transaction.length_serialize, paddedTx, List.flatMap_cons, List.flatMap_nil,
    List.append_nil, CTxIn.length_serialize, CTxOut.length_serialize, List.length_replicate,
    List.length_nil]

private theorem length_paddedBlock (padding : Nat) (nonce : UInt32) :
    (paddedBlock padding nonce).serialize.length = padding + 156 := by
  simp only [CBlock.length_serialize, paddedBlock, List.flatMap_cons, List.flatMap_nil,
    List.append_nil, length_paddedTx]

private theorem length_paddedChain (padding : Nat) :
    (serializeChain (paddedChain padding)).length = 2 * padding + 472 := by
  simp only [serializeChain, writeVarInt32, writeUint32LE_eq, paddedChain, List.flatMap_cons,
    List.flatMap_nil, List.append_nil, List.nil_append, List.length_append, length_paddedBlock,
    LittleEndian.length_bytes]
  omega

private theorem getHash_paddedTx {padding : Nat} (h : padding ≠ 8) :
    @Transaction.getHash nonceCrypto (paddedTx padding) = Hash256.zero := by
  have hlen := length_paddedTx padding
  have hfirst : nonceHash (paddedTx padding).serialize = Hash256.zero :=
    nonceHash_eq_zero (by omega) (by omega)
  show nonceHash (nonceHash (paddedTx padding).serialize).toList = Hash256.zero
  rw [hfirst]
  decide

private theorem hashed_paddedChain {padding : Nat} (h : padding ≠ 8) :
    ∀ blk ∈ paddedChain padding, ∀ tx ∈ blk.vtx,
      tx.txHash = @Transaction.getHash nonceCrypto tx := by
  simp only [paddedChain, List.forall_mem_cons, List.not_mem_nil, false_implies, implies_true,
    and_true, paddedBlock]
  exact ⟨(getHash_paddedTx (by decide)).symm, (getHash_paddedTx h).symm,
    (getHash_paddedTx h).symm⟩

private theorem heavier_paddedChain (padding : Nat) :
    work [paddedBlock 0 1] < work (paddedChain padding) := by
  have hbits : mantissaOf INITIAL_BITS ≠ 0 := by decide
  have hsecond := @work_lt_concat [paddedBlock 0 1] (paddedBlock padding 2) hbits
  exact hsecond.trans (@work_lt_concat _ (paddedBlock padding 3) hbits)

private theorem validateFullChain_shortChain :
    @validateFullChain nonceCrypto [paddedBlock 0 1] = true := by
  decide +kernel

/-- A node with the first block polls one with all three, whose encoding is 472 bytes beyond the
bound: it gets no answer to its request and stays at its first block. -/
theorem exchange_stuck_paddedChain :
    @validateFullChain nonceCrypto [paddedBlock 0 1] = true ∧
    @validateFullChain nonceCrypto (paddedChain (2 ^ 21)) = true ∧
    @genesisHash nonceCrypto (paddedChain (2 ^ 21)) =
      @genesisHash nonceCrypto [paddedBlock 0 1] ∧
    work [paddedBlock 0 1] < work (paddedChain (2 ^ 21)) ∧
    (∀ blk ∈ paddedChain (2 ^ 21), ∀ blk' ∈ paddedChain (2 ^ 21),
      @CBlock.getHash nonceCrypto blk = @CBlock.getHash nonceCrypto blk' →
        blk.toCBlockHeader = blk'.toCBlockHeader) ∧
    ∃ poller' server' requests replies,
      @Exchange nonceCrypto (Node.start [paddedBlock 0 1] none)
        (Node.start (paddedChain (2 ^ 21)) none) poller' server' requests replies ∧
      @tipHash nonceCrypto poller'.chain ≠ @tipHash nonceCrypto (paddedChain (2 ^ 21)) := by
  have hne : (Node.start [paddedBlock 0 1] none).chain ≠ [] := by simp [Node.start]
  have htip : (Node.start (paddedChain (2 ^ 21)) none).chain.getLast? =
    some (paddedBlock (2 ^ 21) 3) := rfl
  have hmerkle : @CBlock.isMerkleRootValid nonceCrypto (paddedBlock (2 ^ 21) 3) = true := by
    decide +kernel
  have hwork : @checkProofOfWork nonceCrypto (paddedBlock (2 ^ 21) 3).toCBlockHeader = true := by
    decide +kernel
  have hlt : (serializeChain (paddedChain (2 ^ 21))).length < 2 ^ 32 := by
    rw [length_paddedChain]
    decide
  have henc : @ChainEncodable nonceCrypto (paddedChain (2 ^ 21)) :=
    @chainEncodable_of_length nonceCrypto _ (hashed_paddedChain (by decide)) hlt
  have hmisfit : ¬ @FastFits nonceCrypto [paddedBlock 0 1] (paddedBlock (2 ^ 21) 3) := by
    intro h
    have hext := (@tryExtendChain_iff nonceCrypto _ hne (paddedBlock (2 ^ 21) 3)).mpr h
    revert hext
    decide +kernel
  obtain ⟨poller', server', requests, replies, hx⟩ :=
    @exists_exchange nonceCrypto _ _ htip (Node.start [paddedBlock 0 1] none) hne hmerkle hwork
      henc hlt
  refine ⟨validateFullChain_shortChain, by decide +kernel, by decide +kernel,
    heavier_paddedChain _, by decide +kernel, poller', server', requests, replies, hx, ?_⟩
  rw [@Exchange.misses_chain nonceCrypto _ _ _ _ _ _ _ hx htip hne
    (henc.2 _ (List.mem_of_getLast? htip)) (by rw [length_paddedBlock]; decide) hmisfit hmerkle
    hwork henc (by rw [Node.start, length_paddedChain]; decide)]
  decide +kernel

/-- Without the padding the poll gets the whole chain. -/
theorem exchange_adopts_iff_paddedChain : ∃ poller' server' requests replies,
    @Exchange nonceCrypto (Node.start [paddedBlock 0 1] none)
      (Node.start (paddedChain 0) none) poller' server' requests replies ∧
    @tipHash nonceCrypto poller'.chain = @tipHash nonceCrypto (paddedChain 0) := by
  obtain ⟨hexists, hall⟩ := @exchange_adopts_iff nonceCrypto (Node.start [paddedBlock 0 1] none)
    (Node.start (paddedChain 0) none) validateFullChain_shortChain (by decide +kernel)
    (by decide +kernel) (heavier_paddedChain 0) (hashed_paddedChain (by decide))
    (paddedBlock 0 3) rfl
  obtain ⟨poller', server', requests, replies, hx⟩ := hexists (by
    rw [Node.start, length_paddedChain]
    decide)
  refine ⟨poller', server', requests, replies, hx, (hall _ _ _ _ hx).1 ⟨?_, Or.inr ?_⟩⟩
  · rw [length_paddedBlock]
    decide
  · rw [Node.start, length_paddedChain]
    decide

end Siliqua.Network
