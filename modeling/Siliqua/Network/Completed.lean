import Siliqua.Network.Convergence
import Siliqua.Network.Origins

/-!
# A poll among everything else

While a daemon polls, its own miner, its sessions and all other daemons go on, and the peer's chain
may change between its announcement, its block and its chain. A poll that gets what it asked for
still ends no lighter than the peer was when it began.
-/

namespace Siliqua.Network

open ByteDecoder Siliqua.Core Siliqua.Consensus Siliqua.Storage Siliqua.Ledger

universe u

section

variable [Crypto]

/-- What is assumed of every chain in a run: it is accepted, starts with one block, fits its counts,
and has its blocks from some that hashes tell apart. -/
structure InPlay (blocks : Set CBlock) (genesis : Option Hash256) (chain : List CBlock) : Prop where
  accepted : validateFullChain chain = true
  genesis : genesisHash chain = genesis
  fits : SizesFit chain
  mem : ∀ blk ∈ chain, blk ∈ blocks

/-- What a poll may be told: chains in play that are not too light. -/
structure Heavy (blocks : Set CBlock) (genesis : Option Hash256) (least : ℚ)
    (chain : List CBlock) : Prop extends InPlay blocks genesis chain where
  encodable : ChainEncodable chain
  heavy : least ≤ work chain

variable {blocks : Set CBlock} {genesis : Option Hash256} {least : ℚ}

/-! ## The last message -/

/-- The last block of a heavy chain that fits makes a chain heavy. -/
theorem Heavy.work_pollExtend (hapart : ToldApart blocks) {node : Node}
    (hplay : InPlay blocks genesis node.chain) {served : List CBlock}
    (hserved : Heavy blocks genesis least served)
    {tip : CBlock} (htip : served.getLast? = some tip) (hextends : (node.pollExtend tip).1 = true) :
    least ≤ work (node.pollExtend tip).2.chain := by
  have hne := (validateFullChain_iff.mp hplay.accepted).1
  rcases Node.pollExtend_cases hne tip with ⟨hfits, heq⟩ | ⟨-, heq⟩
  · obtain ⟨hsame, -⟩ := hapart.concat_of_fits hplay.mem hserved.mem
      (links_of_accepted hplay.accepted) (links_of_accepted hserved.accepted) htip
      hfits.toHeaderFits
    rw [heq]
    show least ≤ work (node.chain ++ [tip])
    rw [← hsame]
    exact hserved.heavy
  · rw [heq] at hextends
    cases hextends

/-- So does comparing with a heavy chain. -/
theorem Heavy.work_pollReorg {node : Node} (hplay : InPlay blocks genesis node.chain)
    {served : List CBlock} (hserved : Heavy blocks genesis least served) :
    least ≤ work (node.pollReorg served).2.chain := by
  have hne := (validateFullChain_iff.mp hplay.accepted).1
  have helig : eligible node.chain served = true := by
    rw [eligible, hserved.accepted, hserved.genesis, hplay.genesis, Bool.and_true,
      decide_eq_true_eq]
  have htry := tryReorg_eq hne served
  by_cases hwork : work node.chain < work served
  · rw [if_pos ⟨helig, hwork⟩] at htry
    simp only [Node.pollReorg, htry, if_true]
    exact hserved.heavy
  · rw [if_neg fun h ↦ hwork h.2] at htry
    simp only [Node.pollReorg, htry, Bool.false_eq_true, if_false]
    exact hserved.heavy.trans (not_lt.mp hwork)

variable {ι : Type u}

/-- A poll that gets the block or the chain it waits for, and is over, ends heavy. -/
theorem Heavy.work_last (hapart : ToldApart blocks) {node node' : Node}
    (hplay : InPlay blocks genesis node.chain) {conn : Connection ι}
    (hconn : conn.Honest (Heavy blocks genesis least))
    (hstage : conn.stage = .block ∨ conn.stage = .chain) {msg : Message} {rest : Bytes}
    (received : receiveMessage conn.toClient = some (msg, rest))
    (hcmd : msg.command = conn.stage.command) {sent : List Message}
    (polled : node.pollReceive conn.stage msg = .ok (node', sent, none)) :
    least ≤ work node'.chain := by
  have henc : ∀ chain, Heavy blocks genesis least chain → ChainEncodable chain :=
    fun _ h ↦ h.encodable
  obtain ⟨msgs, hstream, htells⟩ := hconn.told
  rw [hstream] at received
  obtain ⟨first, hfirst, hcut | ⟨rfl, -⟩⟩ :=
    receiveMessage_frames (fun m hm ↦ (htells m hm).isCommand) htells received
  · exact absurd polled (Node.pollReceive_cut_ne henc hfirst hcut hcmd _)
  rcases hstage with hblock | hchain
  · rw [hblock] at hcmd polled
    obtain ⟨served, tip, hserved, htip, hpayload⟩ := hfirst.of_block hcmd
    have hmem := List.mem_of_getLast? htip
    have hdecode := CBlock.deserialize_serialize (hserved.encodable.2 tip hmem)
    obtain ⟨before, hbefore⟩ := List.getLast?_eq_some_iff.mp htip
    have hmined := ((linked_of_accepted hserved.accepted).fits before tip [] hbefore).1
    rw [Node.pollReceive_block hcmd (hpayload ▸ hdecode), hmined.merkle, hmined.work] at polled
    simp only [Bool.not_true, Bool.or_self, Bool.or_false, Except.ok.injEq, Prod.mk.injEq] at polled
    obtain ⟨rfl, hlast⟩ := polled
    split at hlast
    · next hextends => exact hserved.work_pollExtend hapart hplay htip hextends
    · cases hlast
  · rw [hchain] at hcmd polled
    obtain ⟨served, hserved, hpayload⟩ := hfirst.of_chain hcmd
    have hload := deserializeChain_saved hserved.encodable
    rw [Node.pollReceive_chain hcmd (hpayload ▸ hload)] at polled
    cases polled
    exact hserved.work_pollReorg hplay

/-! ## The run up to it -/

section

variable [DecidableEq ι] {setup : Setup ι} {c₀ c₁ c c' : Cluster ι} {i j : ι}

/-- Any number of steps in which a daemon's poll goes on. -/
def Cluster.PollsOn (setup : Setup ι) (Bound : List CBlock → Prop) (i : ι) :
    Cluster ι → Cluster ι → Prop :=
  Relation.ReflTransGen fun c c' ↦
    (Cluster.Step setup c c' ∧ ∀ k, Bound (c'.node k).chain) ∧ c'.poll i ≠ none

/-- What holds while a daemon polls: the peer is no lighter than it was, and neither is anything it
has told. -/
structure Leveling (blocks : Set CBlock) (genesis : Option Hash256) (least : ℚ) (i j : ι)
    (c : Cluster ι) : Prop where
  heavy : least ≤ work (c.node j).chain
  told : ∃ conn, c.poll i = some conn ∧ conn.server = j ∧
    conn.Honest (Heavy blocks genesis least)

/-- A step makes no chain lighter. -/
theorem Cluster.Step.work_le {P : List CBlock → Prop}
    (henc : ∀ chain, P chain → ChainEncodable chain) (hne : ∀ chain, P chain → chain ≠ [])
    (hc : Carried P c) (h : Cluster.Step setup c c') (k : ι) :
    work (c.node k).chain ≤ work (c'.node k).chain := by
  obtain ⟨i, node, hnode, -, hmoves⟩ := h.moves henc hc hne
  rw [hnode]
  by_cases hk : k = i
  · subst hk
    rw [Function.update_self]
    exact hmoves.work_le
  · rw [Function.update_of_ne hk]

/-- One step. -/
theorem Leveling.step {log : List CBlock} (hc : Carried (Sourced c₀ log (InPlay blocks genesis)) c)
    (hlevel : Leveling blocks genesis least i j c) (h : Cluster.Step setup c c')
    (hon : c'.poll i ≠ none) : Leveling blocks genesis least i j c' := by
  obtain ⟨conn, hconn, rfl, hhonest⟩ := hlevel.told
  obtain ⟨conn', hconn'⟩ := Option.ne_none_iff_exists'.mp hon
  have hserver : Heavy blocks genesis least (c.node conn.server).chain :=
    ⟨(hc.known conn.server).bound, (hc.known conn.server).encodable, hlevel.heavy⟩
  obtain ⟨hsame, hhonest'⟩ :=
    h.link (fun _ (hq : Heavy blocks genesis least _) ↦ hq.encodable) hconn hhonest hserver hconn'
  have hwork := h.work_le (fun _ hs ↦ hs.encodable) (fun _ hs ↦ hs.nonempty) hc conn.server
  exact ⟨hlevel.heavy.trans hwork, conn', hconn', hsame, hhonest'⟩

/-- A run. -/
theorem Leveling.run (hc : c₀.Traced (InPlay blocks genesis) c₁)
    (hlevel : Leveling blocks genesis least i j c₁)
    (hpoll : Cluster.PollsOn setup (InPlay blocks genesis) i c₁ c) :
    c₀.Traced (InPlay blocks genesis) c ∧ Leveling blocks genesis least i j c := by
  induction hpoll with
  | refl => exact ⟨hc, hlevel⟩
  | tail _ hstep ih =>
    obtain ⟨htraced, hlevel⟩ := ih
    obtain ⟨log, hcarried⟩ := htraced.carried
    exact ⟨htraced.step (fun _ hp ↦ hp.fits) hstep.1.1 hstep.1.2,
      hlevel.step hcarried hstep.1.1 hstep.2⟩

/-- A poll that gets the block it takes, or the chain it has asked for, leaves its daemon no lighter
than the peer was when the poll began, whatever happened meanwhile. -/
theorem completed_poll_levels (hapart : ToldApart blocks) (hstart : c₀.Started setup)
    (hbound : ∀ k, InPlay blocks genesis (c₀.node k).chain)
    (hrun : Cluster.RunWithin setup (InPlay blocks genesis) c₀ c₁) (idle : c₁.poll i = none)
    (known : j ∈ setup.knownPeers i)
    (hpoll : Cluster.PollsOn setup (InPlay blocks genesis) i (c₁.connected i j) c)
    {conn : Connection ι} (opened : c.poll i = some conn)
    (hstage : conn.stage = .block ∨ conn.stage = .chain) {msg : Message} {rest : Bytes}
    (received : receiveMessage conn.toClient = some (msg, rest))
    (hcmd : msg.command = conn.stage.command) {node : Node} {sent : List Message}
    (polled : (c.node i).pollReceive conn.stage msg = .ok (node, sent, none)) :
    work (c₁.node j).chain ≤ work node.chain := by
  have hc₁ := Cluster.Traced.run (fun _ hp ↦ hp.fits) hstart hbound hrun
  have hstep : Cluster.Step setup c₁ (c₁.connected i j) := .connect i j idle known
  have hc₂ : c₀.Traced (InPlay blocks genesis) (c₁.connected i j) := by
    obtain ⟨log, hcarried⟩ := hc₁.carried
    exact hc₁.step (fun _ hp ↦ hp.fits) hstep fun k ↦ (hcarried.known k).bound
  have hlevel : Leveling blocks genesis (work (c₁.node j).chain) i j (c₁.connected i j) :=
    ⟨le_refl _, _, Function.update_self _ _ _, rfl, ⟨[], rfl, List.forall_mem_nil _⟩, _, rfl,
      List.forall_mem_singleton.mpr .version⟩
  obtain ⟨⟨log, -, hc⟩, -, conn', hconn', -, hhonest⟩ := Leveling.run hc₂ hlevel hpoll
  obtain rfl := Option.some.inj (opened.symm.trans hconn')
  exact Heavy.work_last hapart (hc.known i).bound hhonest hstage received hcmd polled

/-- A poll that is left alone goes on. -/
theorem Cluster.PollsOn.of_chat {Bound : List CBlock → Prop} (hbound : ∀ k, Bound (c.node k).chain)
    (h : Relation.ReflTransGen (Cluster.Chat setup i) c c') :
    Cluster.PollsOn setup Bound i c c' :=
  Cluster.chat_within (fun _ _ hchat hfits ↦ ⟨⟨hchat.step, hfits⟩, hchat.polls⟩) hbound h

end

end

/-! ## A follower that gets the chain -/

/-- The chains of the miner and the follower are in play. -/
theorem inPlay_paidChain : @InPlay keylessCrypto {blk | blk ∈ paidChain}
    (@genesisHash keylessCrypto [openGenesis]) paidChain :=
  @InPlay.mk keylessCrypto _ _ _ validateFullChain_paidChain rfl ⟨by decide, by decide⟩
    fun _ h ↦ h

theorem inPlay_openGenesis : @InPlay keylessCrypto {blk | blk ∈ paidChain}
    (@genesisHash keylessCrypto [openGenesis]) [openGenesis] :=
  @InPlay.mk keylessCrypto _ _ _ validateFullChain_openGenesis rfl ⟨by decide, by decide⟩
    fun _ h ↦ List.mem_cons.mpr (Or.inl (List.mem_singleton.mp h))

/-- The miner's block does not fit, as it spends an output of its own; so the follower asks for the
chain, and ends as heavy as the miner. -/
theorem completed_poll_levels_paidChain : ∃ node sent,
    @Node.pollReceive keylessCrypto pendingSystem.node .chain
      ⟨Command.CHAIN, serializeChain paidChain⟩ = .ok (node, sent, none) ∧
    work paidChain ≤ work node.chain := by
  obtain ⟨node, hchain, hmines⟩ := step_pairCluster
  let c₁ : Cluster Bool :=
    ⟨Function.update pairCluster.node true node, pairCluster.poll, [minedBlock]⟩
  have hminer : (c₁.node true).chain = paidChain := by
    show (Function.update pairCluster.node true node true).chain = _
    rw [Function.update_self, hchain, paidChain]
  have hbound (k : Bool) : @InPlay keylessCrypto {blk | blk ∈ paidChain}
      (@genesisHash keylessCrypto [openGenesis]) (c₁.node k).chain := by
    cases k with
    | false => exact inPlay_openGenesis
    | true => rw [hminer]; exact inPlay_paidChain
  have hsmall : (serializeChain paidChain).length ≤ MAX_PAYLOAD_SIZE := by decide +kernel
  have hrun : @Cluster.RunWithin keylessCrypto Bool _ pairSetup (@InPlay keylessCrypto
      {blk | blk ∈ paidChain} (@genesisHash keylessCrypto [openGenesis])) pairCluster c₁ :=
    .single ⟨hmines, hbound⟩
  obtain ⟨hmerkle, hwork, -, hmisfit⟩ := linkedMisfit_minedBlock
  have hextend : @Node.pollExtend keylessCrypto (c₁.node false) minedBlock =
      (false, c₁.node false) := by
    have hne : (c₁.node false).chain ≠ [] :=
      (@constructed_spec keylessCrypto _ _ _ constructed_pendingSystem).2.1
    rcases @Node.pollExtend_cases keylessCrypto _ hne minedBlock with ⟨hfits, -⟩ | ⟨-, heq⟩
    · exact absurd hfits hmisfit
    · exact heq
  have htip : (c₁.node true).chain.getLast? = some minedBlock := by
    rw [hminer]
    rfl
  have hopens := @Cluster.chat_opens keylessCrypto Bool _ pairSetup c₁ false true minedBlock htip
  have hasks := @Cluster.chat_asks keylessCrypto Bool _ pairSetup c₁ false true minedBlock htip
    hextend hmerkle hwork (by rw [hminer]; exact encodable_paidChain) (by rw [hminer]; exact hsmall)
  have hon := @Cluster.PollsOn.of_chat keylessCrypto Bool _ pairSetup
    (@Cluster.connected keylessCrypto Bool _ c₁ false true) _ false _ hbound (hopens.trans hasks)
  have hload := @deserializeChain_saved keylessCrypto _ encodable_paidChain
  have hpolled := @Node.pollReceive_chain keylessCrypto (c₁.node false)
    ⟨Command.CHAIN, serializeChain paidChain⟩ rfl _ hload
  have hlevel := @completed_poll_levels keylessCrypto _ _ Bool _ pairSetup pairCluster c₁ _ false
    true toldApart_paidChain started_pairCluster (fun _ ↦ inPlay_openGenesis) hrun rfl (by decide)
    hon _ (@Cluster.link_poll keylessCrypto _ _ c₁ false true .chain .request [] _) (Or.inr rfl) _ _
    (by rw [hminer]; exact @receiveMessage_of_le keylessCrypto _ _ isCommand_CHAIN hsmall [])
    rfl _ _ hpolled
  rw [hminer] at hlevel
  exact ⟨_, _, hpolled, hlevel⟩

end Siliqua.Network
