import Siliqua.Base.Simulation
import Siliqua.Network.Quiet
import Siliqua.Network.Spread

/-!
# A daemon of a cluster is a node

Seen from one of its daemons, a cluster is a node whose threads take turns: every step of the
cluster is a step of the node or none. So what holds of a node in any company holds of it here. And
a chain holds nothing but blocks that were there at the start and blocks a daemon has mined.
-/

namespace Siliqua.Network

open ByteDecoder Siliqua.Core Siliqua.Consensus Siliqua.Storage Siliqua.Ledger

universe u

/-- Where the poll thread stands while its poll waits for a message. -/
def PollPhase.of : Option PollStage → PollPhase
  | some .chain => .awaitingChain
  | _ => .idle

/-- What a daemon's own threads see of a cluster. -/
def Cluster.view {ι : Type u} (c : Cluster ι) (i : ι) : System :=
  ⟨c.node i, .of ((c.poll i).map Connection.stage)⟩

section

variable [Crypto]

/-! ## Steps of one node -/

/-- The poll thread stops waiting. -/
theorem pollGiveUp_of {address : Address} (node : Node) (stage : Option PollStage) :
    Relation.ReflTransGen (Step address) ⟨node, .of stage⟩ ⟨node, .idle⟩ := by
  rcases stage with - | - | - | - | - | -
  · exact .refl
  · exact .refl
  · exact .refl
  · exact .refl
  · exact .refl
  · exact .single (.pollGiveUp rfl)

/-- A message at a poll is one critical section or none. -/
theorem Node.pollReceive_step {address : Address} {node node' : Node} {stage : PollStage}
    {msg : Message} {sent : List Message} {stage' : Option PollStage}
    (h : node.pollReceive stage msg = .ok (node', sent, stage')) :
    Relation.ReflTransGen (Step address) ⟨node, .of (some stage)⟩ ⟨node', .of stage'⟩ := by
  by_cases hcmd : msg.command = stage.command
  · cases stage with
    | version =>
      change msg.command = Command.VERSION at hcmd
      rw [Node.pollReceive, if_neg (not_not_intro hcmd)] at h
      cases h
      exact .refl
    | verack =>
      change msg.command = Command.VERACK at hcmd
      rw [Node.pollReceive, if_neg (not_not_intro hcmd)] at h
      cases h
      exact .refl
    | inv =>
      change msg.command = Command.INV at hcmd
      rw [Node.pollReceive, if_neg (not_not_intro hcmd)] at h
      cases h
      exact .refl
    | block =>
      cases hdecode : CBlock.deserialize msg.payload 0 with
      | error e =>
        change msg.command = Command.BLOCK at hcmd
        rw [Node.pollReceive, if_neg (not_not_intro hcmd), hdecode] at h
        cases h
      | ok r =>
        rw [Node.pollReceive_block hcmd hdecode, Except.ok.injEq, Prod.mk.injEq] at h
        obtain ⟨rfl, hrest⟩ := h
        have hstep := @Step.pollExtend _ address ⟨node, .idle⟩ r.1 r.2 msg.payload rfl hdecode
        split at hrest
        · next hover =>
          cases hrest
          rw [if_pos hover] at hstep
          exact .single hstep
        · next hasks =>
          cases hrest
          rw [if_neg hasks] at hstep
          exact .single hstep
    | chain =>
      cases hload : deserializeChain msg.payload with
      | error e =>
        change msg.command = Command.CHAIN at hcmd
        rw [Node.pollReceive, if_neg (not_not_intro hcmd), hload] at h
        cases h
      | ok peerChain =>
        rw [Node.pollReceive_chain hcmd hload] at h
        cases h
        exact .single (.pollReorg msg.payload rfl hload)
  · rw [Node.pollReceive_of_ne hcmd] at h
    cases h
    exact pollGiveUp_of node (some stage)

/-- A message at a session is a submission or changes nothing. -/
theorem Node.sessionReceive_step {address : Address} {node node' : Node}
    {phase phase' : SessionPhase} {msg : Message} {replies : List Message} (poll : PollPhase)
    (h : node.sessionReceive phase msg = .ok (node', phase', replies)) :
    Relation.ReflTransGen (Step address) ⟨node, poll⟩ ⟨node', poll⟩ := by
  rcases Node.sessionReceive_cases h with ⟨rfl, -⟩ | ⟨-, tx, next, hdecode, rfl⟩
  · exact .refl
  · exact .single (@Step.accept _ address ⟨node, poll⟩ tx next msg.payload hdecode)

/-! ## Steps of the cluster -/

section

variable {ι : Type u} [DecidableEq ι] {setup : Setup ι} {c c' : Cluster ι}

omit [Crypto] in
/-- A restarted daemon's poll is over; the others' polls wait for what they waited for. -/
private theorem stage_disconnect (c : Cluster ι) {i j : ι} (h : j ≠ i) :
    ((c.disconnect i).poll j).map Connection.stage = (c.poll j).map Connection.stage := by
  simp only [Cluster.disconnect, if_neg h]
  cases c.poll j with
  | none => rfl
  | some conn =>
    simp only [Option.map_some]
    split <;> rfl

omit [Crypto] in
/-- A poll that is replaced by one that waits for the same. -/
private theorem stage_update {i : ι} {v : Option (Connection ι)}
    (h : v.map Connection.stage = (c.poll i).map Connection.stage) (j : ι) :
    (Function.update c.poll i v j).map Connection.stage = (c.poll j).map Connection.stage := by
  by_cases hj : j = i
  · subst hj
    rw [Function.update_self, h]
  · rw [Function.update_of_ne hj]

/-- What a daemon sees of a step of the cluster is at most a step of its own. -/
theorem Cluster.Step.view (hsaved : ∀ i, (c.node i).Saved)
    (henc : ∀ i, ChainEncodable (c.node i).chain) (h : Cluster.Step setup c c') (j : ι) :
    Relation.ReflTransGen (Network.Step (setup.address j)) (c.view j) (c'.view j) := by
  -- a step of one daemon's thread, seen by that daemon and by another
  have hnode (i : ι) (node : Node)
      (hstep : Relation.ReflTransGen (Network.Step (setup.address i)) (c.view i)
        ⟨node, (c.view i).poll⟩) :
      Relation.ReflTransGen (Network.Step (setup.address j)) (c.view j)
        ⟨Function.update c.node i node j, (c.view j).poll⟩ := by
    by_cases hj : j = i
    · subst hj
      rwa [Function.update_self]
    · rw [Function.update_of_ne hj]
      exact .refl
  cases h with
  | @mine node i fuel clock on mined => exact hnode i node (.single (.mine fuel clock mined))
  | @accept tx next i payload decoded => exact hnode i _ (.single (.accept payload decoded))
  | mempoolWrite i content => exact hnode i _ (.single (.mempoolWrite content))
  | connect i k idle known =>
    unfold Cluster.view
    dsimp only
    by_cases hj : j = i
    · subst hj
      rw [Function.update_self, idle]
      exact .refl
    · rw [Function.update_of_ne hj]
  | @serve conn msg rest node phase replies i opened received served =>
    have hserver := hnode conn.server node
      (Node.sessionReceive_step (c.view conn.server).poll served)
    unfold Cluster.view at hserver ⊢
    dsimp only at hserver ⊢
    rwa [stage_update (by rw [opened]; rfl) j]
  | @receive conn msg rest node sent stage i opened received polled =>
    unfold Cluster.view
    dsimp only
    by_cases hj : j = i
    · subst hj
      have hstep := @Node.pollReceive_step _ (setup.address j) _ _ _ _ _ _ polled
      rw [Function.update_self, Function.update_self, opened]
      cases stage <;> exact hstep
    · rw [Function.update_of_ne hj, Function.update_of_ne hj]
  | @hangUp conn i opened =>
    unfold Cluster.view
    dsimp only
    rw [stage_update (by rw [opened]; rfl) j]
  | drop i =>
    unfold Cluster.view
    dsimp only
    by_cases hj : j = i
    · subst hj
      rw [Function.update_self]
      exact pollGiveUp_of _ _
    · rw [Function.update_of_ne hj]
  | @restart chain i fuel clock loaded =>
    rw [(hsaved i).restart (henc i) loaded, Function.update_eq_self]
    unfold Cluster.view
    dsimp only
    by_cases hj : j = i
    · subst hj
      simp only [Cluster.disconnect, if_true, Option.map_none]
      exact pollGiveUp_of _ _
    · rw [stage_disconnect c hj]

/-! ## Runs -/

/-- Freshly constructed daemons, not yet connected. -/
structure Cluster.Started (setup : Setup ι) (c : Cluster ι) : Prop where
  constructed : ∀ i, ∃ files, Constructed (setup.address i) files (c.node i)
  idle : ∀ i, c.poll i = none

/-- Any number of steps, into states whose chains are within a bound. -/
def Cluster.RunWithin (setup : Setup ι) (Bound : List CBlock → Prop) :
    Cluster ι → Cluster ι → Prop :=
  Relation.ReflTransGen fun c c' ↦ Cluster.Step setup c c' ∧ ∀ i, Bound (c'.node i).chain

/-- What is known of every chain in a run that has logged these blocks as mined. -/
structure Sourced (c₀ : Cluster ι) (log : List CBlock) (Bound : List CBlock → Prop)
    (chain : List CBlock) : Prop where
  encodable : ChainEncodable chain
  nonempty : chain ≠ []
  bound : Bound chain
  origin : ∀ blk ∈ chain, (∃ i, blk ∈ (c₀.node i).chain) ∨ blk ∈ log

omit [DecidableEq ι] in
/-- Mined blocks are added at the end of the log. -/
theorem Sourced.mono {c₀ : Cluster ι} {log log' : List CBlock} {Bound : List CBlock → Prop}
    {chain : List CBlock} (h : Sourced c₀ log Bound chain) (hsub : log ⊆ log') :
    Sourced c₀ log' Bound chain :=
  ⟨h.encodable, h.nonempty, h.bound, fun blk hblk ↦ (h.origin blk hblk).imp_right fun hm ↦ hsub hm⟩

/-- Every chain holds blocks from the start and blocks mined since. -/
def Cluster.Traced (c₀ : Cluster ι) (Bound : List CBlock → Prop) (c : Cluster ι) : Prop :=
  ∃ log, c.mined = c₀.mined ++ log ∧ Carried (Sourced c₀ log Bound) c

variable {c₀ : Cluster ι} {Bound : List CBlock → Prop}

omit [DecidableEq ι] in
theorem Cluster.Traced.carried (h : c₀.Traced Bound c) :
    ∃ log, Carried (Sourced c₀ log Bound) c :=
  h.imp fun _ hlog ↦ hlog.2

/-- A constructed node has a chain, and it is saved. -/
theorem constructed_spec {address : Address} {files : Files} {node : Node}
    (h : Constructed address files node) :
    ChainEncodable node.chain ∧ node.chain ≠ [] ∧ node.Saved := by
  obtain ⟨fuel, clock, chain, hload, hne, rfl⟩ := h
  exact ⟨chainEncodable_loadOrCreateChain hload, hne, rfl⟩

omit [DecidableEq ι] in
/-- At the start. -/
theorem Cluster.Started.traced (h : c₀.Started setup) (hbound : ∀ i, Bound (c₀.node i).chain) :
    c₀.Traced Bound c₀ := by
  refine ⟨[], (List.append_nil _).symm, fun i ↦ ?_, fun i ↦ ?_, fun i conn hconn ↦ ?_⟩
  · obtain ⟨files, hfiles⟩ := h.constructed i
    obtain ⟨henc, hne, -⟩ := constructed_spec hfiles
    exact ⟨henc, hne, hbound i, fun blk hblk ↦ Or.inl ⟨i, hblk⟩⟩
  · obtain ⟨files, hfiles⟩ := h.constructed i
    exact (constructed_spec hfiles).2.2
  · rw [h.idle i] at hconn
    cases hconn

/-- One step. -/
theorem Cluster.Traced.step (hfits : ∀ chain, Bound chain → SizesFit chain)
    (hc : c₀.Traced Bound c) (h : Cluster.Step setup c c')
    (hbound : ∀ i, Bound (c'.node i).chain) : c₀.Traced Bound c' := by
  obtain ⟨log, hlog, hc⟩ := hc
  obtain ⟨i, node, hnode, -, hmoves⟩ := h.moves (fun _ hs ↦ hs.encodable) hc
    fun _ hs ↦ hs.nonempty
  -- the chain of the one daemon that moves decides
  have hothers {log' : List CBlock} (hsub : log ⊆ log')
      (hmover : Sourced c₀ log' Bound (c'.node i).chain) : Carried (Sourced c₀ log' Bound) c' := by
    refine hc.step (fun _ hs ↦ hs.encodable) (fun _ hs ↦ hs.nonempty) h (fun _ hs ↦ hs.mono hsub)
      fun j ↦ ?_
    by_cases hj : j = i
    · rwa [hj]
    · rw [hnode, Function.update_of_ne hj]
      exact (hc.known j).mono hsub
  have hbound' := hbound i
  obtain ⟨henc, hne, -, horigin⟩ := hc.known i
  rw [hnode, Function.update_self] at hbound' hothers
  cases hmoves with
  | stays chain hmined =>
    rw [chain] at hbound' hothers
    exact ⟨log, hmined.trans hlog, hothers (List.Subset.refl _) ⟨henc, hne, hbound', horigin⟩⟩
  | mines blk fuel clock on block chain hmined =>
    rw [chain] at hbound' hothers
    obtain ⟨hlen, hvtx⟩ := hfits _ hbound'
    have hblk := encodable_of_mineOnto block (hvtx blk (by simp))
    refine ⟨log ++ [blk], by rw [hmined, hlog, List.append_assoc],
      hothers (List.subset_append_left _ _) ⟨encodable_concat henc hblk hlen, by simp, hbound', ?_⟩⟩
    exact List.forall_mem_append.mpr
      ⟨fun b hb ↦ (horigin b hb).imp_right fun hm ↦ List.mem_append_left _ hm,
        List.forall_mem_singleton.mpr (Or.inr (by simp))⟩
  | takes known tip holds last fits chain hmined =>
    rw [chain] at hbound' hothers
    have hmem := List.mem_of_getLast? last
    exact ⟨log, hmined.trans hlog, hothers (List.Subset.refl _)
      ⟨encodable_concat henc (holds.encodable.2 tip hmem) (hfits _ hbound').1, by simp, hbound',
        List.forall_mem_append.mpr
          ⟨horigin, List.forall_mem_singleton.mpr (holds.origin tip hmem)⟩⟩⟩
  | switches holds genesis accepted heavier hmined =>
    exact ⟨log, hmined.trans hlog, hothers (List.Subset.refl _) holds⟩

/-- A run. -/
theorem Cluster.Traced.run (hfits : ∀ chain, Bound chain → SizesFit chain)
    (hstart : c₀.Started setup) (hbound : ∀ i, Bound (c₀.node i).chain)
    (hrun : Cluster.RunWithin setup Bound c₀ c) : c₀.Traced Bound c := by
  induction hrun with
  | refl => exact hstart.traced hbound
  | tail _ hstep ih => exact ih.step hfits hstep.1 hstep.2

/-- Runs of a cluster are runs of its daemons. -/
theorem Cluster.RunWithin.view (hfits : ∀ chain, Bound chain → SizesFit chain)
    (hstart : c₀.Started setup) (hbound : ∀ i, Bound (c₀.node i).chain)
    (hrun : Cluster.RunWithin setup Bound c₀ c) (i : ι) :
    Reachable (setup.address i) (c₀.view i) (c.view i) := by
  have hsim : Simulation (fun c c' ↦ Cluster.Step setup c c' ∧ ∀ i, Bound (c'.node i).chain)
      (Network.Step (setup.address i)) (fun c s ↦ c₀.Traced Bound c ∧ s = c.view i) := by
    refine .of_abstraction fun c c' hc hstep ↦ ⟨hc.step hfits hstep.1 hstep.2, ?_⟩
    obtain ⟨log, hcarried⟩ := hc.carried
    exact hstep.1.view hcarried.saved (fun j ↦ (hcarried.known j).encodable) i
  obtain ⟨_, ⟨-, rfl⟩, hview⟩ := hsim.run ⟨hstart.traced hbound, rfl⟩ hrun
  exact hview

/-- The chain takes less bytes than a length field can hold. -/
def BytesFit (chain : List CBlock) : Prop := (serializeChain chain).length < 2 ^ 32

omit [Crypto] in
/-- What takes at least a byte each takes at least as many bytes as there are. -/
private theorem length_le_flatMap {α : Type} {f : α → Bytes} (hpos : ∀ a, 1 ≤ (f a).length)
    (xs : List α) : xs.length ≤ (xs.flatMap f).length := by
  rw [List.length_flatMap, ← List.length_map (f := fun a ↦ (f a).length)]
  apply List.length_le_sum_of_one_le
  intro n hn
  obtain ⟨a, -, rfl⟩ := List.mem_map.mp hn
  exact hpos a

omit [Crypto] in
/-- Then its lists fit their counts. -/
theorem BytesFit.sizesFit {chain : List CBlock} (h : BytesFit chain) : SizesFit chain := by
  rw [BytesFit, serializeChain, List.length_append] at h
  refine ⟨?_, fun blk hblk ↦ ?_⟩
  · have hcount := @length_le_flatMap _ CBlock.serialize
      (fun blk ↦ by rw [CBlock.length_serialize]; omega) chain
    omega
  · have hle := @length_le_of_mem_flatMap _ CBlock.serialize _ _ hblk
    have hcount := @length_le_flatMap _ Transaction.serialize
      (fun tx ↦ by rw [Transaction.length_serialize]; omega) blk.vtx
    rw [CBlock.length_serialize] at hle
    omega

omit [Crypto] in
/-- Messages about such a chain are no longer. -/
theorem Tells.length_payload {P : List CBlock → Prop} (hP : ∀ chain, P chain → BytesFit chain)
    {msg : Message} (h : Tells P msg) : msg.payload.length < 2 ^ 32 := by
  cases h with
  | version => decide
  | verack => decide
  | inv hash =>
    rw [List.Vector.toList_length]
    decide
  | block known last =>
    exact (length_serialize_le (List.mem_of_getLast? last)).trans_lt (hP _ known)
  | chain known => exact hP _ known

/-- In every run of daemons that poll one another whose chains take less than `2 ^ 32` bytes, no
message of a daemon makes a poll throw, and no message of a poll a session. -/
theorem polls_never_throw (hstart : c₀.Started setup) (hbound : ∀ i, BytesFit (c₀.node i).chain)
    (hrun : Cluster.RunWithin setup BytesFit c₀ c) {i : ι} {conn : Connection ι}
    (opened : c.poll i = some conn) :
    (∀ msg rest, receiveMessage conn.toClient = some (msg, rest) →
      ∃ r, (c.node i).pollReceive conn.stage msg = .ok r) ∧
    ∀ msg rest, receiveMessage conn.toServer = some (msg, rest) →
      ∃ r, (c.node conn.server).sessionReceive conn.phase msg = .ok r := by
  obtain ⟨log, hc⟩ := (Cluster.Traced.run (fun _ h ↦ h.sizesFit) hstart hbound hrun).carried
  obtain ⟨⟨told, htoClient, htells⟩, asked, htoServer, hasks⟩ := hc.honest i conn opened
  refine ⟨fun msg rest received ↦ ?_, fun msg rest received ↦ ?_⟩
  · rw [htoClient] at received
    obtain ⟨sent, hsent, hcut | ⟨rfl, -⟩⟩ :=
      receiveMessage_frames (fun m hm ↦ (htells m hm).isCommand) htells received
    · exact absurd hcut.long (Nat.not_le.mpr (hsent.length_payload fun _ hs ↦ hs.bound))
    · exact Node.exists_pollReceive (fun _ hs ↦ hs.encodable) hsent
  · rw [htoServer] at received
    obtain ⟨sent, hsent, hcut | ⟨rfl, -⟩⟩ :=
      receiveMessage_frames (fun m hm ↦ (hasks m hm).arrives.1) hasks received
    · exact absurd hcut hsent.not_cut
    · exact Node.exists_sessionReceive hsent.command_ne_TX

end

end

/-! ## A miner and a follower -/

/-- The daemon called `true` mines, the other one polls it. -/
def pairSetup : Setup Bool where
  address _ := zeroAddress
  mine i := i
  knownPeers i := if i then [] else [true]

/-- Both are constructed from one genesis chain, with two payments pending. -/
def pairCluster : Cluster Bool where
  node _ := pendingSystem.node
  poll _ := none
  mined := []

theorem constructed_pendingSystem :
    @Constructed keylessCrypto zeroAddress openFiles pendingSystem.node := by
  have hload := @deserializeChain_saved keylessCrypto _ encodable_openGenesis
  refine ⟨0, 0, [openGenesis], ?_, by simp, rfl⟩
  simp only [loadOrCreateChain, openFiles, hload]

theorem started_pairCluster : @Cluster.Started keylessCrypto Bool pairSetup pairCluster :=
  @Cluster.Started.mk keylessCrypto _ _ _ (fun _ ↦ ⟨openFiles, constructed_pendingSystem⟩)
    fun _ ↦ rfl

/-- The miner mines a block. -/
theorem step_pairCluster : ∃ node, node.chain = [openGenesis, minedBlock] ∧
    @Cluster.Step keylessCrypto Bool _ pairSetup pairCluster
      ⟨Function.update pairCluster.node true node, pairCluster.poll, [minedBlock]⟩ := by
  obtain ⟨node, hmined, hchain⟩ := miningLoop_pendingSystem
  have hstep := @Cluster.Step.mine keylessCrypto Bool _ pairSetup pairCluster node true 1 1700000020
    rfl hmined
  rw [hchain] at hstep
  exact ⟨node, hchain, hstep⟩

/-- It polls on until the miner's block is on its way, which is no trouble. -/
theorem polls_never_throw_pairCluster : ∃ r,
    @Node.pollReceive keylessCrypto pendingSystem.node .block
      ⟨Command.BLOCK, minedBlock.serialize⟩ = .ok r := by
  obtain ⟨node, hchain, hmines⟩ := step_pairCluster
  let c₁ : Cluster Bool :=
    ⟨Function.update pairCluster.node true node, pairCluster.poll, [minedBlock]⟩
  have hbound (i : Bool) : BytesFit (pairCluster.node i).chain :=
    (by decide +kernel : (serializeChain [openGenesis]).length < 2 ^ 32)
  have hbound₁ (i : Bool) : BytesFit (c₁.node i).chain := by
    cases i with
    | false => exact hbound false
    | true =>
      show BytesFit (Function.update pairCluster.node true node true).chain
      rw [Function.update_self, hchain]
      exact (by decide +kernel : (serializeChain [openGenesis, minedBlock]).length < 2 ^ 32)
  have htip : (c₁.node true).chain.getLast? = some minedBlock := by
    show (Function.update pairCluster.node true node true).chain.getLast? = _
    rw [Function.update_self, hchain]
    rfl
  have hconnect := @Cluster.Step.connect keylessCrypto Bool _ pairSetup c₁ false true rfl
    (by decide)
  have hopens := @Cluster.chat_opens keylessCrypto Bool _ pairSetup c₁ false true minedBlock htip
  have hmined : @Cluster.RunWithin keylessCrypto Bool _ pairSetup BytesFit pairCluster c₁ :=
    .single ⟨hmines, hbound₁⟩
  have hconnected : @Cluster.RunWithin keylessCrypto Bool _ pairSetup BytesFit pairCluster
      (@Cluster.connected keylessCrypto Bool _ c₁ false true) := hmined.tail ⟨hconnect, hbound₁⟩
  have htalk := @Cluster.chat_within keylessCrypto Bool _ pairSetup
    (@Cluster.connected keylessCrypto Bool _ c₁ false true) false _ BytesFit
    (fun c c' ↦ @Cluster.Step keylessCrypto Bool _ pairSetup c c' ∧
      ∀ k, BytesFit (c'.node k).chain)
    (fun _ _ hchat hfits ↦ ⟨@Cluster.Chat.step keylessCrypto _ _ _ _ _ _ hchat, hfits⟩) hbound₁
    hopens
  have hrun := hconnected.trans htalk
  obtain ⟨hpolled, -⟩ := @polls_never_throw keylessCrypto Bool _ pairSetup _ pairCluster
    started_pairCluster hbound hrun false _
    (@Cluster.link_poll keylessCrypto _ _ c₁ false true .block .request [] _)
  exact hpolled _ _ (@receiveMessage_of_le keylessCrypto _ _ isCommand_BLOCK (by decide +kernel) [])

end Siliqua.Network
