import Siliqua.Network.Spread

/-!
# A poll that nothing disturbs

From any state of a cluster, a daemon can poll one of its peers from the first message to the last
while nothing else happens. If both messages of the peer that matter are short enough, the poller
ends with the peer's last block on top of its own chain, or with the peer's chain if that is one to
switch to.
-/

namespace Siliqua.Network

open ByteDecoder Siliqua.Core Siliqua.Consensus Siliqua.Storage Siliqua.Ledger

universe u

section

variable [Crypto]

/-- What a node becomes by a poll of a node with the given chain and last block. -/
def Node.pulled (node : Node) (served : List CBlock) (tip : CBlock) : Node :=
  if (node.pollExtend tip).1 then (node.pollExtend tip).2 else (node.pollReorg served).2

variable {ι : Type u} [DecidableEq ι] {setup : Setup ι}

/-- A connection from one daemon to another, with these messages on their way. -/
def Cluster.link (c : Cluster ι) (i j : ι) (stage : PollStage) (phase : SessionPhase)
    (toServer toClient : List Message) : Cluster ι :=
  { c with
    poll := Function.update c.poll i (some ⟨j, stage, phase, frames toServer, frames toClient⟩) }

/-- The poll has been opened and the version sent. -/
def Cluster.connected (c : Cluster ι) (i j : ι) : Cluster ι :=
  c.link i j .version .version [⟨Command.VERSION, buildVersionPayload⟩] []

/-- A step of a daemon's poll, or of the session it talks to, that leaves the daemons alone. -/
structure Cluster.Chat (setup : Setup ι) (i : ι) (c c' : Cluster ι) : Prop where
  step : Cluster.Step setup c c'
  node : c'.node = c.node
  polls : c'.poll i ≠ none

variable {c : Cluster ι} {i j : ι} {stage stage' : PollStage} {phase phase' : SessionPhase}
  {msg : Message} {toServer toClient more : List Message}

/-- Talk between a poll and a session is a run of whatever talk between daemons with these chains
is a step of. -/
theorem Cluster.chat_within {c' : Cluster ι} {Bound : List CBlock → Prop}
    {R : Cluster ι → Cluster ι → Prop}
    (hR : ∀ c c', Cluster.Chat setup i c c' → (∀ k, Bound (c'.node k).chain) → R c c')
    (hbound : ∀ k, Bound (c.node k).chain)
    (h : Relation.ReflTransGen (Cluster.Chat setup i) c c') : Relation.ReflTransGen R c c' := by
  have hrun : Relation.ReflTransGen R c c' ∧ c'.node = c.node := by
    induction h with
    | refl => exact ⟨.refl, rfl⟩
    | tail _ hchat ih =>
      obtain ⟨hon, hnode⟩ := ih
      have hsame := hchat.node.trans hnode
      exact ⟨hon.tail (hR _ _ hchat fun k ↦ hsame ▸ hbound k), hsame⟩
  exact hrun.1

private theorem messages_arrive (hmsg : msg.Arrives) (rest : List Message) :
    receiveMessage (frames (msg :: rest)) = some (msg, frames rest) := by
  rw [frames_cons]
  exact receiveMessage_of_le hmsg.1 hmsg.2 _

theorem Cluster.link_poll (c : Cluster ι) (i j : ι) (stage : PollStage) (phase : SessionPhase)
    (toServer toClient : List Message) :
    (c.link i j stage phase toServer toClient).poll i =
      some ⟨j, stage, phase, frames toServer, frames toClient⟩ :=
  Function.update_self _ _ _

/-- The session reads a message. -/
private theorem link_serve (hmsg : msg.Arrives)
    (h : (c.node j).sessionReceive phase msg = .ok (c.node j, phase', more)) :
    Cluster.Chat setup i (c.link i j stage phase (msg :: toServer) toClient)
      (c.link i j stage phase' toServer (toClient ++ more)) := by
  refine ⟨?_, rfl, by simp [Cluster.link_poll]⟩
  have hstep := @Cluster.Step.serve _ ι _ setup _ _ msg _ (c.node j) phase' more i
    (c.link_poll i j stage phase (msg :: toServer) toClient) (messages_arrive hmsg toServer) h
  have hnode : Function.update (c.link i j stage phase (msg :: toServer) toClient).node j
      (c.node j) = c.node := Function.update_eq_self j c.node
  rw [hnode] at hstep
  simpa only [Cluster.link, Function.update_idem, frames, List.flatMap_append] using hstep

/-- The poll reads a message and goes on. -/
private theorem link_receive (hmsg : msg.Arrives)
    (h : (c.node i).pollReceive stage msg = .ok (c.node i, more, some stage')) :
    Cluster.Chat setup i (c.link i j stage phase toServer (msg :: toClient))
      (c.link i j stage' phase (toServer ++ more) toClient) := by
  refine ⟨?_, rfl, by simp [Cluster.link_poll]⟩
  have hstep := @Cluster.Step.receive _ ι _ setup _ _ msg _ (c.node i) more (some stage') i
    (c.link_poll i j stage phase toServer (msg :: toClient)) (messages_arrive hmsg toClient) h
  have hnode : Function.update (c.link i j stage phase toServer (msg :: toClient)).node i
      (c.node i) = c.node := Function.update_eq_self i c.node
  rw [hnode] at hstep
  simpa only [Cluster.link, Function.update_idem, frames, List.flatMap_append,
    Option.map_some] using hstep

/-- The poll reads its last message. -/
private theorem link_last (idle : c.poll i = none) {node : Node} (hmsg : msg.Arrives)
    (h : (c.node i).pollReceive stage msg = .ok (node, more, none)) :
    Cluster.Step setup (c.link i j stage phase toServer (msg :: toClient))
      { c with node := Function.update c.node i node } := by
  have hstep := @Cluster.Step.receive _ ι _ setup _ _ msg _ node more none i
    (c.link_poll i j stage phase toServer (msg :: toClient)) (messages_arrive hmsg toClient) h
  have hpoll (v : Option (Connection ι)) :
      Function.update (Function.update c.poll i v) i none = c.poll := by
    rw [Function.update_idem, ← idle, Function.update_eq_self]
  simpa only [Cluster.link, Option.map_none, hpoll] using hstep

section

variable (idle : c.poll i = none) {tip : CBlock} (htip : (c.node j).chain.getLast? = some tip)

omit [Crypto] in
private theorem arrives_hash {cmd : Bytes} (hcmd : IsCommand cmd) (hash : Hash256) :
    Message.Arrives ⟨cmd, hash.toList⟩ := by
  refine ⟨hcmd, ?_⟩
  rw [List.Vector.toList_length]
  decide

include htip in
/-- The handshake, the announcement and the request for the block. -/
theorem Cluster.chat_opens : Relation.ReflTransGen (Cluster.Chat setup i) (c.connected i j)
    (c.link i j .block .request [] [⟨Command.BLOCK, tip.serialize⟩]) := by
  have hversion : Message.Arrives ⟨Command.VERSION, buildVersionPayload⟩ := by decide
  have hverack : Message.Arrives ⟨Command.VERACK, []⟩ := by decide
  have hserve₁ : (c.node j).sessionReceive .version ⟨Command.VERSION, buildVersionPayload⟩ =
      .ok (c.node j, .verack, [⟨Command.VERSION, buildVersionPayload⟩]) := rfl
  have hserve₂ : (c.node j).sessionReceive .verack ⟨Command.VERACK, []⟩ =
      .ok (c.node j, .request,
        [⟨Command.VERACK, []⟩, ⟨Command.INV, tip.getHash.toList⟩]) := by
    simp only [Node.sessionReceive, Conversation.receive, htip]
    rfl
  have hserve₃ : (c.node j).sessionReceive .request ⟨Command.GETDATA, tip.getHash.toList⟩ =
      .ok (c.node j, .request, [⟨Command.BLOCK, tip.serialize⟩]) := by
    simp only [Node.sessionReceive, Conversation.receive, htip]
    rfl
  have hpoll₁ : (c.node i).pollReceive .version ⟨Command.VERSION, buildVersionPayload⟩ =
      .ok (c.node i, [⟨Command.VERACK, []⟩], some .verack) := rfl
  have hpoll₂ : (c.node i).pollReceive .verack ⟨Command.VERACK, []⟩ =
      .ok (c.node i, [], some .inv) := rfl
  have hpoll₃ : (c.node i).pollReceive .inv ⟨Command.INV, tip.getHash.toList⟩ =
      .ok (c.node i, [⟨Command.GETDATA, tip.getHash.toList⟩], some .block) := rfl
  have hrun : Relation.ReflTransGen (Cluster.Chat setup i) (c.connected i j)
      (c.link i j .version .verack [] [⟨Command.VERSION, buildVersionPayload⟩]) :=
    .single (link_serve hversion hserve₁)
  have hrun := hrun.tail (link_receive hversion hpoll₁)
  have hrun := hrun.tail (link_serve hverack hserve₂)
  have hrun := hrun.tail (link_receive hverack hpoll₂)
  have hrun := hrun.tail (link_receive (arrives_hash isCommand_INV _) hpoll₃)
  exact hrun.tail (link_serve (arrives_hash isCommand_GETDATA _) hserve₃)

include htip in
/-- Behind a mined block that does not fit, the request for the chain. -/
theorem Cluster.chat_asks (hextend : (c.node i).pollExtend tip = (false, c.node i))
    (hmerkle : tip.isMerkleRootValid = true)
    (hwork : checkProofOfWork tip.toCBlockHeader = true)
    (henc : ChainEncodable (c.node j).chain)
    (hle : (serializeChain (c.node j).chain).length ≤ MAX_PAYLOAD_SIZE) :
    Relation.ReflTransGen (Cluster.Chat setup i)
      (c.link i j .block .request [] [⟨Command.BLOCK, tip.serialize⟩])
      (c.link i j .chain .request [] [⟨Command.CHAIN, serializeChain (c.node j).chain⟩]) := by
  have hmem := List.mem_of_getLast? htip
  have hblock : Message.Arrives ⟨Command.BLOCK, tip.serialize⟩ :=
    ⟨isCommand_BLOCK, (length_serialize_le hmem).trans hle⟩
  have hgetblocks : Message.Arrives ⟨Command.GETBLOCKS, []⟩ := by decide
  have hdecode := CBlock.deserialize_serialize (henc.2 tip hmem)
  have hpoll := @Node.pollReceive_block _ (c.node i) ⟨Command.BLOCK, tip.serialize⟩ rfl tip _
    hdecode
  have hserve : (c.node j).sessionReceive .request ⟨Command.GETBLOCKS, []⟩ =
      .ok (c.node j, .request, [⟨Command.CHAIN, serializeChain (c.node j).chain⟩]) := rfl
  rw [hextend, hmerkle, hwork] at hpoll
  have hrun : Relation.ReflTransGen (Cluster.Chat setup i)
      (c.link i j .block .request [] [⟨Command.BLOCK, tip.serialize⟩])
      (c.link i j .chain .request [⟨Command.GETBLOCKS, []⟩] []) :=
    .single (link_receive hblock hpoll)
  exact hrun.tail (link_serve hgetblocks hserve)

include idle htip in
/-- From any state in which a daemon is not polling, it can poll a peer whose chain ends in a mined
block and gets through, and become what the poll makes of it; all else stays. -/
theorem exists_quiet_poll (known : j ∈ setup.knownPeers i) (hne : (c.node i).chain ≠ [])
    (hmerkle : tip.isMerkleRootValid = true)
    (hwork : checkProofOfWork tip.toCBlockHeader = true)
    (henc : ChainEncodable (c.node j).chain)
    (hle : (serializeChain (c.node j).chain).length ≤ MAX_PAYLOAD_SIZE) :
    Cluster.Run setup c { c with
      node := Function.update c.node i ((c.node i).pulled (c.node j).chain tip) } := by
  have hmem := List.mem_of_getLast? htip
  have hblock : Message.Arrives ⟨Command.BLOCK, tip.serialize⟩ :=
    ⟨isCommand_BLOCK, (length_serialize_le hmem).trans hle⟩
  have hchain : Message.Arrives ⟨Command.CHAIN, serializeChain (c.node j).chain⟩ :=
    ⟨isCommand_CHAIN, hle⟩
  have hconnect : Cluster.Run setup c (c.connected i j) := .single (.connect i j idle known)
  have hopens := @Cluster.chat_opens _ ι _ setup c i j tip htip
  unfold Node.pulled
  rcases Node.pollExtend_cases hne tip with ⟨-, heq⟩ | ⟨-, heq⟩
  · have hrun := hconnect.trans (Relation.ReflTransGen.mono (fun _ _ h ↦ h.step) _ _ hopens)
    have hdecode := CBlock.deserialize_serialize (henc.2 tip hmem)
    have hpoll := @Node.pollReceive_block _ (c.node i) ⟨Command.BLOCK, tip.serialize⟩ rfl tip _
      hdecode
    rw [heq] at hpoll ⊢
    exact hrun.tail (link_last idle hblock hpoll)
  · have hasks := hopens.trans (Cluster.chat_asks htip heq hmerkle hwork henc hle)
    have hrun := hconnect.trans (Relation.ReflTransGen.mono (fun _ _ h ↦ h.step) _ _ hasks)
    have hpoll := @Node.pollReceive_chain _ (c.node i)
      ⟨Command.CHAIN, serializeChain (c.node j).chain⟩ rfl _ (deserializeChain_saved henc)
    rw [heq]
    exact hrun.tail (link_last idle hchain hpoll)

end

end

end Siliqua.Network
