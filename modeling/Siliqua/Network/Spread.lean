import Siliqua.Network.Cluster
import Siliqua.Network.Persistence

/-!
# How chains spread

Whatever is known of every chain of a cluster is known of everything in flight. A step moves at most
one chain: its daemon mines a block, takes the last block of a known chain, or switches to a known
chain that is heavier. Seen from one daemon, the cluster is a node among other threads.
-/

namespace Siliqua.Network

open ByteDecoder Siliqua.Core Siliqua.Consensus Siliqua.Storage Siliqua.Ledger

universe u

variable [Crypto] {ι : Type u}

/-- A node's chain file is the encoding of its chain. -/
def Node.Saved (node : Node) : Prop := node.files.chainFile = some (serializeChain node.chain)

/-- What is in flight is what daemons say to one another, about chains with a property. -/
structure Connection.Honest (P : List CBlock → Prop) (conn : Connection ι) : Prop where
  told : ∃ msgs, conn.toClient = frames msgs ∧ ∀ msg ∈ msgs, Tells P msg
  asked : ∃ msgs, conn.toServer = frames msgs ∧ ∀ msg ∈ msgs, Asks msg

/-- Every chain has a property, is saved, and has it in every message about it. -/
structure Carried (P : List CBlock → Prop) (c : Cluster ι) : Prop where
  known : ∀ i, P (c.node i).chain
  saved : ∀ i, (c.node i).Saved
  honest : ∀ i conn, c.poll i = some conn → conn.Honest P

/-- What a step does to a daemon's chain and to the blocks mined so far. -/
inductive Moves (setup : Setup ι) (P : List CBlock → Prop) (i : ι) (node node' : Node)
    (mined mined' : List CBlock) : Prop
  | stays (chain : node'.chain = node.chain) (log : mined' = mined)
  | mines (blk : CBlock) (fuel : Nat) (clock : UInt32) (on : setup.mine i = true)
      (block : mineOnto fuel clock node.chain (setup.address i)
        (loadMempoolOrEmpty node.files.mempoolFile) = some blk)
      (chain : node'.chain = node.chain ++ [blk]) (log : mined' = mined ++ [blk])
  | takes (known : List CBlock) (tip : CBlock) (holds : P known)
      (last : known.getLast? = some tip) (fits : FastFits node.chain tip)
      (chain : node'.chain = node.chain ++ [tip]) (log : mined' = mined)
  | switches (holds : P node'.chain) (genesis : genesisHash node'.chain = genesisHash node.chain)
      (accepted : validateFullChain node'.chain = true)
      (heavier : work node.chain < work node'.chain) (log : mined' = mined)

/-- No move makes a chain lighter. -/
theorem Moves.work_le {setup : Setup ι} {P : List CBlock → Prop} {i : ι} {node node' : Node}
    {mined mined' : List CBlock} (h : Moves setup P i node node' mined mined') :
    work node.chain ≤ work node'.chain := by
  cases h with
  | stays chain log => rw [chain]
  | mines blk fuel clock on block chain log =>
    rw [chain]
    exact work_concat_le _ _
  | takes known tip holds last fits chain log =>
    rw [chain]
    exact work_concat_le _ _
  | switches holds genesis accepted heavier log => exact heavier.le

/-! ## One node -/

/-- Both outcomes of the first critical section. -/
theorem Node.pollExtend_cases {node : Node} (hne : node.chain ≠ []) (blk : CBlock) :
    (FastFits node.chain blk ∧ node.pollExtend blk = (true, node.saveChain (node.chain ++ [blk]))) ∨
      (¬ FastFits node.chain blk ∧ node.pollExtend blk = (false, node)) := by
  rcases tryExtendChain_cases hne blk with ⟨hfits, heq⟩ | ⟨hmisfit, heq⟩
  · exact Or.inl ⟨hfits, by simp only [Node.pollExtend, heq, if_true]⟩
  · exact Or.inr ⟨hmisfit, by simp only [Node.pollExtend, heq, Bool.false_eq_true, if_false]⟩

/-- Both outcomes of the second. -/
theorem Node.pollReorg_cases (node : Node) (peerChain : List CBlock) :
    (genesisHash peerChain = genesisHash node.chain ∧ validateFullChain peerChain = true ∧
        work node.chain < work peerChain ∧
        node.pollReorg peerChain = (true, node.saveChain peerChain)) ∨
      node.pollReorg peerChain = (false, node) := by
  rcases tryReorg_cases node.chain peerChain with ⟨heq, hgen, hacc, hwork⟩ | heq
  · exact Or.inl ⟨hgen, hacc, hwork, by simp only [Node.pollReorg, heq, if_true]⟩
  · exact Or.inr (by simp only [Node.pollReorg, heq, Bool.false_eq_true, if_false])

/-- Submissions leave the chain and its file alone. -/
theorem Node.Saved.acceptTransaction {node : Node} (h : node.Saved) (tx : Transaction) :
    (node.acceptTransaction tx).Saved := by
  rw [Node.Saved, Node.chain_acceptTransaction, Node.acceptTransaction_eq]
  split <;> exact h

/-- A mined chain is saved. -/
theorem Node.Saved.miningLoop {node node' : Node} {fuel : Nat} {clock : UInt32} {address : Address}
    (h : node.miningLoop fuel clock address = some node') : node'.Saved := by
  obtain ⟨blk, -, hchain, hfile⟩ := miningLoop_spec h
  rw [Node.Saved, hfile, hchain]

/-- An extended chain is saved. -/
theorem Node.Saved.pollExtend {node : Node} (h : node.Saved) (hne : node.chain ≠ [])
    (blk : CBlock) : (node.pollExtend blk).2.Saved := by
  rcases Node.pollExtend_cases hne blk with ⟨-, heq⟩ | ⟨-, heq⟩
  · rw [heq]
    rfl
  · rw [heq]
    exact h

/-- So is a chain switched to. -/
theorem Node.Saved.pollReorg {node : Node} (h : node.Saved) (peerChain : List CBlock) :
    (node.pollReorg peerChain).2.Saved := by
  rcases Node.pollReorg_cases node peerChain with ⟨-, -, -, heq⟩ | heq
  · rw [heq]
    rfl
  · rw [heq]
    exact h

/-- A restart changes nothing. -/
theorem Node.Saved.restart {node : Node} (h : node.Saved) (henc : ChainEncodable node.chain)
    {fuel : Nat} {clock : UInt32} {address : Address} {chain : List CBlock}
    (hload : loadOrCreateChain fuel clock node.files.chainFile address = some chain) :
    Node.start chain node.files.mempoolFile = node := by
  rw [h] at hload
  simp only [loadOrCreateChain, deserializeChain_saved henc] at hload
  obtain rfl := Option.some.inj hload
  rw [Node.start, ← h]

/-- A mined block can be encoded, up to the number of its transactions. -/
theorem encodable_of_mineOnto {fuel : Nat} {clock : UInt32} {chain : List CBlock}
    {address : Address} {file : Option Bytes} {blk : CBlock}
    (h : mineOnto fuel clock chain address (loadMempoolOrEmpty file) = some blk)
    (hlen : blk.vtx.length < 2 ^ 32) : blk.Encodable := by
  refine encodable_of_built (mineOnto_spec h).2 hlen fun tx htx ↦ ?_
  obtain ⟨pre, post, heq, -⟩ := mem_extraTxs_iff.mp htx
  exact (mempoolEncodable_loadMempoolOrEmpty file).2 tx (by simp [heq])

/-- A chain grows by a block that can be encoded. -/
theorem encodable_concat {chain : List CBlock} (h : ChainEncodable chain) {blk : CBlock}
    (hblk : blk.Encodable) (hlen : (chain ++ [blk]).length < 2 ^ 32) :
    ChainEncodable (chain ++ [blk]) :=
  ⟨hlen, List.forall_mem_append.mpr ⟨h.2, List.forall_mem_singleton.mpr hblk⟩⟩

/-! ## One step -/

section

variable {setup : Setup ι} {P P' : List CBlock → Prop} {c c' : Cluster ι}
  (henc : ∀ chain, P chain → ChainEncodable chain) (hc : Carried P c)
include hc

/-- What a session reads was asked by a poll and changes nothing. -/
theorem Carried.serve {i : ι} {conn : Connection ι} (opened : c.poll i = some conn) {msg : Message}
    {rest : Bytes} (received : receiveMessage conn.toServer = some (msg, rest)) {node : Node}
    {phase : SessionPhase} {replies : List Message}
    (served : (c.node conn.server).sessionReceive conn.phase msg = .ok (node, phase, replies)) :
    node = c.node conn.server := by
  obtain ⟨msgs, hstream, hasks⟩ := (hc.honest i conn opened).asked
  rw [hstream] at received
  obtain ⟨sent, hsent, hcut | ⟨rfl, -⟩⟩ :=
    receiveMessage_frames (fun m hm ↦ (hasks m hm).arrives.1) hasks received
  · exact absurd hcut hsent.not_cut
  · exact (Node.sessionReceive_asks (hc.known conn.server) hsent served).1

include henc in
/-- What a poll reads was told by a daemon of the cluster. -/
theorem Carried.receive {i : ι} {conn : Connection ι} (opened : c.poll i = some conn)
    {msg : Message} {rest : Bytes} (received : receiveMessage conn.toClient = some (msg, rest))
    {node : Node} {sent : List Message} {stage : Option PollStage}
    (polled : (c.node i).pollReceive conn.stage msg = .ok (node, sent, stage)) :
    node = c.node i ∨
      (∃ chain tip, P chain ∧ chain.getLast? = some tip ∧
        node = ((c.node i).pollExtend tip).2) ∨
      ∃ chain, P chain ∧ node = ((c.node i).pollReorg chain).2 := by
  obtain ⟨msgs, hstream, htells⟩ := (hc.honest i conn opened).told
  rw [hstream] at received
  obtain ⟨told, htold, hcut | ⟨rfl, -⟩⟩ :=
    receiveMessage_frames (fun m hm ↦ (htells m hm).isCommand) htells received
  · exact Or.inl (Node.pollReceive_cut henc htold hcut polled).1
  · exact (Node.pollReceive_tells henc htold polled).2

variable [DecidableEq ι]

include henc in
/-- A step changes one node, in one of these ways. -/
theorem Cluster.Step.moves (hne : ∀ chain, P chain → chain ≠ []) (h : Cluster.Step setup c c') :
    ∃ i node, c'.node = Function.update c.node i node ∧ node.Saved ∧
      Moves setup P i (c.node i) node c.mined c'.mined := by
  have hsame (i : ι) : c.node = Function.update c.node i (c.node i) ∧ (c.node i).Saved ∧
      Moves setup P i (c.node i) (c.node i) c.mined c.mined :=
    ⟨(Function.update_eq_self i c.node).symm, hc.saved i, .stays rfl rfl⟩
  cases h with
  | @mine node i fuel clock on mined =>
    obtain ⟨blk, hblk, hchain, -⟩ := miningLoop_spec mined
    refine ⟨i, node, rfl, Node.Saved.miningLoop mined, .mines blk fuel clock on hblk hchain ?_⟩
    rw [hchain, List.getLast?_concat, Option.toList_some]
  | @accept tx next i payload decoded =>
    exact ⟨i, _, rfl, (hc.saved i).acceptTransaction tx,
      .stays (Node.chain_acceptTransaction _ _) rfl⟩
  | mempoolWrite i content => exact ⟨i, _, rfl, hc.saved i, .stays rfl rfl⟩
  | connect i j idle known => exact ⟨i, _, hsame i⟩
  | @serve conn msg rest node phase replies i opened received served =>
    obtain rfl := hc.serve opened received served
    exact ⟨conn.server, _, rfl, (hsame conn.server).2⟩
  | @receive conn msg rest node sent stage i opened received polled =>
    refine ⟨i, node, rfl, ?_⟩
    have hne' := hne _ (hc.known i)
    obtain rfl | ⟨known, tip, hknown, hlast, rfl⟩ | ⟨peerChain, hknown, rfl⟩ :=
      hc.receive henc opened received polled
    · exact (hsame i).2
    · refine ⟨(hc.saved i).pollExtend hne' tip, ?_⟩
      rcases Node.pollExtend_cases hne' tip with ⟨hfits, heq⟩ | ⟨-, heq⟩
      · exact .takes known tip hknown hlast hfits (by rw [heq]; rfl) rfl
      · rw [heq]
        exact .stays rfl rfl
    · refine ⟨(hc.saved i).pollReorg peerChain, ?_⟩
      rcases Node.pollReorg_cases (c.node i) peerChain with ⟨hgen, hacc, hwork, heq⟩ | heq
      · rw [heq]
        exact .switches hknown hgen hacc hwork rfl
      · rw [heq]
        exact .stays rfl rfl
  | @hangUp conn i opened => exact ⟨i, _, hsame i⟩
  | drop i => exact ⟨i, _, hsame i⟩
  | @restart chain i fuel clock loaded =>
    rw [(hc.saved i).restart (henc _ (hc.known i)) loaded]
    exact ⟨i, _, rfl, (hsame i).2⟩

omit [Crypto] hc in
/-- The connections behind an update. -/
private theorem poll_of_update {i k : ι} {v : Option (Connection ι)} {conn : Connection ι}
    (h : Function.update c.poll i v k = some conn) :
    (k = i ∧ v = some conn) ∨ c.poll k = some conn := by
  by_cases hk : k = i
  · subst hk
    rw [Function.update_self] at h
    exact Or.inl ⟨rfl, h⟩
  · rw [Function.update_of_ne hk] at h
    exact Or.inr h

omit hc in
/-- A daemon that was not polling and now is has sent its version. -/
theorem Cluster.Step.opens (h : Cluster.Step setup c c') {k : ι} {conn : Connection ι}
    (idle : c.poll k = none) (opened : c'.poll k = some conn) :
    ∃ j, conn = ⟨j, .version, .version, frames [⟨Command.VERSION, buildVersionPayload⟩], []⟩ := by
  have hnot {P : Prop} (hold : c.poll k = some conn) : P := by
    rw [idle] at hold
    cases hold
  cases h with
  | mine i fuel clock on mined => exact hnot opened
  | accept i payload decoded => exact hnot opened
  | mempoolWrite i content => exact hnot opened
  | connect i j _ known =>
    rcases poll_of_update opened with ⟨-, hnew⟩ | hold
    · exact ⟨j, (Option.some.inj hnew).symm⟩
    · exact hnot hold
  | serve i opened₀ received served =>
    rcases poll_of_update opened with ⟨rfl, -⟩ | hold
    · rw [idle] at opened₀
      cases opened₀
    · exact hnot hold
  | receive i opened₀ received polled =>
    rcases poll_of_update opened with ⟨rfl, -⟩ | hold
    · rw [idle] at opened₀
      cases opened₀
    · exact hnot hold
  | hangUp i opened₀ =>
    rcases poll_of_update opened with ⟨rfl, -⟩ | hold
    · rw [idle] at opened₀
      cases opened₀
    · exact hnot hold
  | drop i =>
    rcases poll_of_update opened with ⟨-, hnew⟩ | hold
    · cases hnew
    · exact hnot hold
  | restart i fuel clock loaded =>
    simp only [Cluster.disconnect, idle, Option.map_none, ite_self, reduceCtorEq] at opened

omit hc in
/-- A connection that is not closed stays with its server, and the server says nothing on it but
what holds of its chain. -/
theorem Cluster.Step.link {Q : List CBlock → Prop} (hQ : ∀ chain, Q chain → ChainEncodable chain)
    (h : Cluster.Step setup c c') {k : ι} {conn conn' : Connection ι}
    (opened : c.poll k = some conn) (hhonest : conn.Honest Q)
    (hserver : Q (c.node conn.server).chain) (opened' : c'.poll k = some conn') :
    conn'.server = conn.server ∧ conn'.Honest Q := by
  have hsame (hold : c.poll k = some conn') : conn'.server = conn.server ∧ conn'.Honest Q := by
    obtain rfl := Option.some.inj (opened.symm.trans hold)
    exact ⟨rfl, hhonest⟩
  obtain ⟨⟨told, htoClient, htells⟩, ⟨asked, htoServer, hasks⟩⟩ := hhonest
  cases h with
  | mine i fuel clock on mined => exact hsame opened'
  | accept i payload decoded => exact hsame opened'
  | mempoolWrite i content => exact hsame opened'
  | connect i j idle known =>
    rcases poll_of_update opened' with ⟨rfl, -⟩ | hold
    · rw [idle] at opened
      cases opened
    · exact hsame hold
  | @serve conn₀ msg rest node phase replies i opened₀ received served =>
    rcases poll_of_update opened' with ⟨rfl, hnew⟩ | hold
    · obtain rfl := Option.some.inj (opened.symm.trans opened₀)
      obtain rfl := Option.some.inj hnew
      rw [htoServer] at received
      obtain ⟨sent, hsent, hcut | ⟨rfl, hrest⟩⟩ :=
        receiveMessage_frames (fun m hm ↦ (hasks m hm).arrives.1) hasks received
      · exact absurd hcut hsent.not_cut
      · obtain ⟨-, hreplies⟩ := Node.sessionReceive_asks hserver hsent served
        refine ⟨rfl, ⟨told ++ replies, ?_, List.forall_mem_append.mpr ⟨htells, hreplies⟩⟩, hrest⟩
        show conn.toClient ++ frames replies = frames (told ++ replies)
        rw [htoClient, frames, frames, frames, List.flatMap_append]
    · exact hsame hold
  | @receive conn₀ msg rest node sent stage i opened₀ received polled =>
    rcases poll_of_update opened' with ⟨rfl, hnew⟩ | hold
    · obtain rfl := Option.some.inj (opened.symm.trans opened₀)
      obtain ⟨stage', rfl, rfl⟩ := Option.map_eq_some_iff.mp hnew
      rw [htoClient] at received
      obtain ⟨first, hfirst, hcut | ⟨rfl, hrest⟩⟩ :=
        receiveMessage_frames (fun m hm ↦ (htells m hm).isCommand) htells received
      · obtain ⟨-, hstage⟩ := Node.pollReceive_cut hQ hfirst hcut polled
        cases hstage
      · obtain ⟨hsent, -⟩ := Node.pollReceive_tells hQ hfirst polled
        refine ⟨rfl, hrest, ⟨asked ++ sent, ?_, List.forall_mem_append.mpr ⟨hasks, hsent⟩⟩⟩
        show conn.toServer ++ frames sent = frames (asked ++ sent)
        rw [htoServer, frames, frames, frames, List.flatMap_append]
    · exact hsame hold
  | @hangUp conn₀ i opened₀ =>
    rcases poll_of_update opened' with ⟨rfl, hnew⟩ | hold
    · obtain rfl := Option.some.inj (opened.symm.trans opened₀)
      obtain rfl := Option.some.inj hnew
      exact ⟨rfl, ⟨told, htoClient, htells⟩, ⟨asked, htoServer, hasks⟩⟩
    · exact hsame hold
  | drop i =>
    rcases poll_of_update opened' with ⟨-, hnew⟩ | hold
    · cases hnew
    · exact hsame hold
  | @restart chain i fuel clock loaded =>
    by_cases hk : k = i
    · simp only [Cluster.disconnect, if_pos hk, reduceCtorEq] at opened'
    · simp only [Cluster.disconnect, if_neg hk, opened, Option.map_some] at opened'
      obtain rfl := Option.some.inj opened'
      split
      · exact ⟨rfl, ⟨told, htoClient, htells⟩, ⟨asked, htoServer, hasks⟩⟩
      · exact ⟨rfl, ⟨told, htoClient, htells⟩, ⟨asked, htoServer, hasks⟩⟩

include henc in
/-- A step puts nothing else in flight. -/
theorem Cluster.Step.honest (h : Cluster.Step setup c c') (k : ι) (conn : Connection ι)
    (opened : c'.poll k = some conn) : conn.Honest P := by
  cases hconn : c.poll k with
  | none =>
    obtain ⟨j, rfl⟩ := h.opens hconn opened
    exact ⟨⟨[], rfl, List.forall_mem_nil _⟩, ⟨_, rfl, List.forall_mem_singleton.mpr .version⟩⟩
  | some conn₀ =>
    exact (h.link henc hconn (hc.honest k conn₀ hconn) (hc.known conn₀.server) opened).2

include henc in
/-- What holds of the chains after a step holds of what is then in flight. -/
theorem Carried.step (hne : ∀ chain, P chain → chain ≠ []) (h : Cluster.Step setup c c')
    (hmono : ∀ chain, P chain → P' chain) (hknown : ∀ i, P' (c'.node i).chain) :
    Carried P' c' := by
  refine ⟨hknown, fun j ↦ ?_, fun i conn hconn ↦ ?_⟩
  · obtain ⟨i, node, hnode, hsaved, -⟩ := h.moves henc hc hne
    rw [hnode]
    by_cases hj : j = i
    · subst hj
      rwa [Function.update_self]
    · rw [Function.update_of_ne hj]
      exact hc.saved j
  · obtain ⟨⟨msgs, hstream, htells⟩, hasked⟩ := h.honest henc hc i conn hconn
    exact ⟨⟨msgs, hstream, fun msg hmsg ↦ (htells msg hmsg).mono hmono⟩, hasked⟩

end

end Siliqua.Network
