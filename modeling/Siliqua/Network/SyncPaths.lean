import Siliqua.Ledger.ForkChoice
import Siliqua.Network.Frames
import Siliqua.Network.Mempool

/-!
# Two ways to sync

`run_connector` spells out the checks that `PollPeer` leaves to `try_extend_chain` and
`try_reorg`. They take the same blocks, but only `PollPeer` asks for the whole chain when a
block that links to the tip fails another check.
-/

namespace Siliqua.Network

open ByteDecoder Siliqua.Core Siliqua.Consensus Siliqua.Storage Siliqua.Ledger

section

variable [Crypto]

/-! ## The flags are the fast path's checks -/

/-- The fee loop of `run_connector` against a set that does not change. -/
theorem connectorFees_spec (m : UtxoSet) (fees : Int64) (txs : List Transaction) :
    ((connectorFees m fees txs).2 = true ↔
        ∀ tx ∈ txs, tx.isCoinbase = false → 0 ≤ validateAndGetFee tx m) ∧
      ((connectorFees m fees txs).2 = true →
        (connectorFees m fees txs).1 = fees + (txs.map (feeOf m)).sum) := by
  induction txs generalizing fees with
  | nil => simp [connectorFees]
  | cons tx rest ih =>
    rw [connectorFees, List.forall_mem_cons, List.map_cons, List.sum_cons, ← Int64.add_assoc]
    cases hc : tx.isCoinbase with
    | true => simpa [feeOf, hc] using ih fees
    | false =>
      by_cases hf : validateAndGetFee tx m < 0
      · have hnot : ¬ 0 ≤ validateAndGetFee tx m := Int64.not_le.mpr hf
        simp [hf, hnot]
      · have hge : 0 ≤ validateAndGetFee tx m := Int64.not_lt.mp hf
        simpa [hf, hge, feeOf, hc] using ih (fees + validateAndGetFee tx m)

omit [Crypto] in
/-- On a chain with a tip there is a required difficulty. -/
theorem exists_nextWorkRequired {chain : List CBlock} (hne : chain ≠ []) :
    ∃ bits, getNextWorkRequired (extractHeaders chain) RETARGET_INTERVAL
        TARGET_TIMESPAN_SECONDS = some bits ∧ expectedBits (extractHeaders chain) = some bits := by
  have hheaders : extractHeaders chain ≠ [] := by simp [extractHeaders, hne]
  have hpos := List.length_pos_of_ne_nil hheaders
  have hexp : expectedBits (extractHeaders chain) =
      getNextWorkRequired (extractHeaders chain) RETARGET_INTERVAL TARGET_TIMESPAN_SECONDS := by
    simp [expectedBits, hheaders]
  rw [hexp, getNextWorkRequired, List.getLast?_eq_some_getLast hheaders]
  dsimp only
  split
  · exact ⟨_, rfl, rfl⟩
  · next hmod =>
    have hlt : (extractHeaders chain).length - RETARGET_INTERVAL <
        (extractHeaders chain).length := by
      have hinterval : 0 < RETARGET_INTERVAL := by decide
      omega
    rw [List.getElem?_eq_getElem hlt]
    exact ⟨_, rfl, rfl⟩

/-- All flags of `run_connector` are set exactly for the blocks that `try_extend_chain` takes. -/
theorem connectorChecks_iff {chain : List CBlock} {tip : CBlock} {bits : UInt32}
    (htip : chain.getLast? = some tip) (hbits : expectedBits (extractHeaders chain) = some bits)
    (blk : CBlock) :
    ((connectorChecks chain tip bits blk).merkleOk && (connectorChecks chain tip bits blk).powOk &&
      (connectorChecks chain tip bits blk).linksToTip &&
      (connectorChecks chain tip bits blk).bitsOk && (connectorChecks chain tip bits blk).txsOk &&
      (connectorChecks chain tip bits blk).coinbaseOk) = true ↔ FastFits chain blk := by
  have hhash := tipHash_eq htip
  obtain ⟨hiff, hsum⟩ := connectorFees_spec (buildUtxoSet chain) 0 blk.vtx
  simp only [connectorChecks, Bool.and_eq_true, beq_iff_eq]
  constructor
  · rintro ⟨⟨⟨⟨⟨hmerkle, hpow⟩, hprev⟩, hnBits⟩, htxs⟩, hcoinbase⟩
    refine ⟨⟨hmerkle, hpow, hprev.trans hhash.symm, ?_⟩, hiff.mp htxs, ?_⟩
    · rw [hbits, hnBits]
    · rw [hsum htxs, Int64.zero_add] at hcoinbase
      split at hcoinbase
      · cases hcoinbase
      · next front rest hv =>
        rw [Bool.and_eq_true, beq_iff_eq] at hcoinbase
        exact ⟨front, rest, hv, hcoinbase⟩
  · intro h
    have htxs := hiff.mpr h.fees
    obtain ⟨front, rest, hv, hcb, htot⟩ := h.coinbase
    have hnBits : blk.nBits = bits := Option.some.inj (h.bits.trans hbits)
    refine ⟨⟨⟨⟨⟨h.merkle, h.work⟩, h.prev.trans hhash⟩, hnBits⟩, htxs⟩, ?_⟩
    rw [hsum htxs, Int64.zero_add]
    split
    · next hnil => simp [hnil] at hv
    · next front' rest' hv' =>
      obtain ⟨rfl, -⟩ := List.cons.inj (hv.symm.trans hv')
      rw [hcb, htot, Bool.true_and, beq_self_eq_true]

/-- The chain `run_connector` switches to is the one `try_reorg` switches to. -/
theorem connectorSwitch_eq {chain : List CBlock} (hne : chain ≠ []) (peerChain : List CBlock) :
    connectorSwitch chain peerChain =
      if eligible chain peerChain = true ∧ work chain < work peerChain then some peerChain
      else none := by
  obtain ⟨front, rest, rfl⟩ := List.exists_cons_of_ne_nil hne
  cases peerChain with
  | nil => simp [connectorSwitch, eligible, genesisHash]
  | cons peerFront peerRest =>
    have helig := eligible_cons front peerFront rest peerRest
    simp only [connectorSwitch, ← helig, work]
    cases eligible (front :: rest) (peerFront :: peerRest) with
    | false => simp
    | true => simp

/-! ## An honest peer -/

/-- What a peer that serves the chain sends in the course of a sync: its last block, and the
whole chain if it is asked. -/
def honestReplies (peerChain : List CBlock) (tip : CBlock) : List Message :=
  [⟨Command.VERSION, buildVersionPayload⟩, ⟨Command.VERACK, []⟩,
    ⟨Command.INV, tip.getHash.toList⟩, ⟨Command.BLOCK, tip.serialize⟩,
    ⟨Command.CHAIN, serializeChain peerChain⟩]

/-- All replies arrive if the block and the chain are within the receiver's bound. -/
theorem arrives_honestReplies {peerChain : List CBlock} {tip : CBlock}
    (hblock : tip.serialize.length ≤ MAX_PAYLOAD_SIZE)
    (hchain : (serializeChain peerChain).length ≤ MAX_PAYLOAD_SIZE) :
    ∀ msg ∈ honestReplies peerChain tip, msg.Arrives := by
  have hhash : tip.getHash.toList.length ≤ MAX_PAYLOAD_SIZE := by
    rw [List.Vector.toList_length]
    decide
  simp only [honestReplies, List.forall_mem_cons, List.not_mem_nil, false_implies, implies_true,
    and_true]
  exact ⟨by decide, by decide, ⟨isCommand_INV, hhash⟩, ⟨isCommand_BLOCK, hblock⟩,
    isCommand_CHAIN, hchain⟩

/-- The persisted chain. -/
def loadedChain (files : Files) : Option (Except ReadError (List CBlock)) :=
  files.chainFile.map deserializeChain

/-- A start state saves its chain. -/
private theorem loadedChain_saveChain {files : Files} {chain : List CBlock}
    (henc : ChainEncodable chain) : loadedChain (files.saveChain chain) = some (.ok chain) :=
  congrArg some (deserializeChain_saved henc)

/-- The block links to the tip of the chain and is mined, but fails another check of the fast
path: `run_connector` gives up, `PollPeer` asks for the whole chain. -/
structure LinkedMisfit (chain : List CBlock) (blk : CBlock) : Prop where
  merkle : blk.isMerkleRootValid = true
  work : checkProofOfWork blk.toCBlockHeader = true
  links : blk.hashPrevBlock = tipHash chain
  misfit : ¬ FastFits chain blk

/-- The peer's block is mined, its chain arrives, and that chain is one to switch to. -/
structure SwitchesTo (chain peerChain : List CBlock) (tip : CBlock) (rest : List Message) :
    Prop where
  arrives : rest ≠ []
  merkle : tip.isMerkleRootValid = true
  work : checkProofOfWork tip.toCBlockHeader = true
  eligible : eligible chain peerChain = true
  heavier : Ledger.work chain < Ledger.work peerChain

section Replies

variable {chain peerChain : List CBlock} (hne : chain ≠ []) (henc : ChainEncodable peerChain)
  {tip : CBlock} (htip : peerChain.getLast? = some tip)
  {rest : List Message} (hrest : rest <+: [⟨Command.CHAIN, serializeChain peerChain⟩])
include hne henc htip hrest

omit hne hrest in
private theorem deserialize_tip :
    CBlock.deserialize tip.serialize 0 = .ok (tip, tip.serialize.length) := by
  have hmem : tip ∈ peerChain := List.mem_of_getLast? htip
  exact CBlock.deserialize_serialize (henc.2 tip hmem)

omit hne htip in
/-- The reply to `getblocks`, if it arrives, is the peer's chain. -/
private theorem reply_cases : rest = [] ∨ ∃ msg, rest = [msg] ∧ msg.command = Command.CHAIN ∧
    deserializeChain msg.payload = .ok peerChain := by
  rcases List.prefix_cons_iff.mp hrest with rfl | ⟨tail, rfl, htail⟩
  · exact Or.inl rfl
  · rw [List.prefix_nil.mp htail]
    exact Or.inr ⟨_, rfl, rfl, deserializeChain_saved henc⟩

/-- Once the peer's last block is there, `run_connector` extends the chain, switches to the
peer's if the block does not link to its own tip, or leaves the file alone. -/
private theorem connectorBlock_cases (files : Files) (sent : List Message) :
    ∃ files' sent', connectorBlock files chain tip.serialize rest sent = .ok (files', sent') ∧
      ((FastFits chain tip ∧ files' = files.saveChain (chain ++ [tip])) ∨
        (¬ FastFits chain tip ∧ SwitchesTo chain peerChain tip rest ∧
          tip.hashPrevBlock ≠ tipHash chain ∧ files' = files.saveChain peerChain) ∨
        (¬ FastFits chain tip ∧ (SwitchesTo chain peerChain tip rest →
          tip.hashPrevBlock = tipHash chain) ∧ files' = files)) := by
  obtain ⟨own, hown⟩ : ∃ own, chain.getLast? = some own := ⟨_, List.getLast?_eq_some_getLast hne⟩
  obtain ⟨bits, hnext, hbits⟩ := exists_nextWorkRequired hne
  have hhash := tipHash_eq hown
  have hflags := connectorChecks_iff hown hbits tip
  unfold connectorBlock
  simp only [deserialize_tip henc htip, hown, hnext]
  by_cases hfits : FastFits chain tip
  · rw [if_pos (hflags.mpr hfits)]
    exact ⟨_, _, rfl, Or.inl ⟨hfits, rfl⟩⟩
  · rw [if_neg fun h ↦ hfits (hflags.mp h)]
    have hask : ((connectorChecks chain own bits tip).merkleOk &&
        (connectorChecks chain own bits tip).powOk &&
        !(connectorChecks chain own bits tip).linksToTip) = true ↔
          tip.isMerkleRootValid = true ∧ checkProofOfWork tip.toCBlockHeader = true ∧
            tip.hashPrevBlock ≠ tipHash chain := by
      simp [connectorChecks, hhash, and_assoc]
    split
    · next hasked =>
      obtain ⟨hmerkle, hpow, hlinks⟩ := hask.mp hasked
      rcases reply_cases henc hrest with rfl | ⟨msg, rfl, hcmd, hload⟩
      · exact ⟨_, _, rfl, Or.inr (Or.inr ⟨hfits, fun h ↦ absurd rfl h.arrives, rfl⟩)⟩
      · simp only [hcmd, hload, ne_eq, not_true_eq_false, if_false, connectorSwitch_eq hne]
        by_cases hswitch : eligible chain peerChain = true ∧ work chain < work peerChain
        · rw [if_pos hswitch]
          exact ⟨_, _, rfl, Or.inr (Or.inl ⟨hfits,
            ⟨by simp, hmerkle, hpow, hswitch.1, hswitch.2⟩, hlinks, rfl⟩)⟩
        · rw [if_neg hswitch]
          exact ⟨_, _, rfl, Or.inr (Or.inr ⟨hfits,
            fun h ↦ absurd ⟨h.eligible, h.heavier⟩ hswitch, rfl⟩)⟩
    · next hnot =>
      refine ⟨_, _, rfl, Or.inr (Or.inr ⟨hfits, fun h ↦ ?_, rfl⟩)⟩
      by_contra hlinks
      exact hnot (hask.mpr ⟨h.merkle, h.work, hlinks⟩)

/-- Once the peer's last block is there, `PollPeer` extends the chain, switches to the peer's, or
leaves the node alone. -/
private theorem pollBlock_cases {node : Node} (hchain : node.chain = chain) (sent : List Message) :
    ∃ node' sent', node.pollBlock id tip.serialize rest sent = .ok (node', sent') ∧
      ((FastFits chain tip ∧ node' = node.saveChain (chain ++ [tip])) ∨
        (¬ FastFits chain tip ∧ SwitchesTo chain peerChain tip rest ∧
          node' = node.saveChain peerChain) ∨
        (¬ FastFits chain tip ∧ ¬ SwitchesTo chain peerChain tip rest ∧ node' = node)) := by
  subst hchain
  unfold Node.pollBlock Node.pollExtend
  simp only [deserialize_tip henc htip]
  rcases tryExtendChain_cases hne tip with ⟨hfits, heq⟩ | ⟨hfits, heq⟩
  · rw [heq]
    exact ⟨_, _, rfl, Or.inl ⟨hfits, rfl⟩⟩
  · rw [heq]
    simp only [Bool.false_eq_true, if_false]
    split
    · next hbad =>
      refine ⟨_, _, rfl, Or.inr (Or.inr ⟨hfits, fun h ↦ ?_, rfl⟩)⟩
      rw [h.merkle, h.work] at hbad
      cases hbad
    · next hgood =>
      simp only [Bool.or_eq_true, Bool.not_eq_true', not_or, Bool.not_eq_false] at hgood
      rcases reply_cases henc hrest with rfl | ⟨msg, rfl, hcmd, hload⟩
      · exact ⟨_, _, rfl, Or.inr (Or.inr ⟨hfits, fun h ↦ h.arrives rfl, rfl⟩)⟩
      · simp only [hcmd, hload, ne_eq, not_true_eq_false, if_false, id, Node.pollReorg,
          tryReorg_eq hne]
        by_cases hswitch : eligible node.chain peerChain = true ∧
            work node.chain < work peerChain
        · simp only [if_pos hswitch, if_true]
          exact ⟨_, _, rfl, Or.inr (Or.inl ⟨hfits,
            ⟨by simp, hgood.1, hgood.2, hswitch.1, hswitch.2⟩, rfl⟩)⟩
        · simp only [if_neg hswitch, Bool.false_eq_true, if_false]
          exact ⟨_, _, rfl, Or.inr (Or.inr ⟨hfits,
            fun h ↦ hswitch ⟨h.eligible, h.heavier⟩, rfl⟩)⟩

/-- Behind the block, and from one loaded chain, both commands end with the same chain persisted
unless only `PollPeer` asks for the peer's and switches to it. -/
private theorem block_agree_iff {files : Files} (hload : loadedChain files = some (.ok chain))
    {node : Node} (hchain : node.chain = chain) (hself : loadedChain node.files = some (.ok chain))
    (hsaved : node.files.chainFile = some (serializeChain node.chain))
    (sent₁ sent₂ : List Message) :
    ∃ files' sent node' sent',
      connectorBlock files chain tip.serialize rest sent₁ = .ok (files', sent) ∧
      node.pollBlock id tip.serialize rest sent₂ = .ok (node', sent') ∧
      node'.files.chainFile = some (serializeChain node'.chain) ∧
      (loadedChain files' = loadedChain node'.files ↔
        ¬ (rest ≠ [] ∧ LinkedMisfit chain tip ∧ eligible chain peerChain = true ∧
          work chain < work peerChain)) := by
  have hunchanged : loadedChain files = loadedChain node.files := hload.trans hself.symm
  obtain ⟨files', sent, hblock, hcases⟩ := connectorBlock_cases hne henc htip hrest files sent₁
  obtain ⟨node', sent', hblock', hcases'⟩ := pollBlock_cases hne henc htip hrest hchain sent₂
  refine ⟨files', sent, node', sent', hblock, hblock', ?_, ?_⟩
  · rcases hcases' with ⟨-, rfl⟩ | ⟨-, -, rfl⟩ | ⟨-, -, rfl⟩
    · rfl
    · rfl
    · exact hsaved
  rcases hcases with ⟨hfits, rfl⟩ | ⟨hmisfit, hswitch, hlinks, rfl⟩ | ⟨hmisfit, hlinks, rfl⟩
  · -- both extend
    rcases hcases' with ⟨-, rfl⟩ | ⟨hmisfit, -⟩ | ⟨hmisfit, -⟩
    · exact iff_of_true rfl fun h ↦ h.2.1.misfit hfits
    · exact absurd hfits hmisfit
    · exact absurd hfits hmisfit
  · -- both switch
    rcases hcases' with ⟨hfits, -⟩ | ⟨-, -, rfl⟩ | ⟨-, hstay, -⟩
    · exact absurd hfits hmisfit
    · exact iff_of_true rfl fun h ↦ hlinks h.2.1.links
    · exact absurd hswitch hstay
  · rcases hcases' with ⟨hfits, -⟩ | ⟨-, hswitch, rfl⟩ | ⟨-, hstay, rfl⟩
    · exact absurd hfits hmisfit
    · -- only `PollPeer` asks for the chain and switches
      refine iff_of_false ?_ (not_not_intro ⟨hswitch.arrives,
        ⟨hswitch.merkle, hswitch.work, hlinks hswitch, hmisfit⟩, hswitch.eligible,
        hswitch.heavier⟩)
      have hother : loadedChain (node.saveChain peerChain).files = some (.ok peerChain) :=
        @loadedChain_saveChain _ node.files _ henc
      rw [hload, hother]
      intro heq
      obtain rfl : chain = peerChain := Except.ok.inj (Option.some.inj heq)
      exact absurd hswitch.heavier (lt_irrefl _)
    · exact iff_of_true hunchanged fun h ↦
        hstay ⟨h.1, h.2.1.merkle, h.2.1.work, h.2.2.1, h.2.2.2⟩

end Replies

/-- Four replies of an honest peer lead to its last block, and at most its chain follows. -/
private theorem honest_prefix {peerChain : List CBlock} {tip : CBlock} {ms : List Message}
    (hhonest : ms <+: honestReplies peerChain tip) (hlen : ¬ ms.length < 4) :
    ∃ rest, ms = ⟨Command.VERSION, buildVersionPayload⟩ :: ⟨Command.VERACK, []⟩ ::
        ⟨Command.INV, tip.getHash.toList⟩ :: ⟨Command.BLOCK, tip.serialize⟩ :: rest ∧
      rest <+: [⟨Command.CHAIN, serializeChain peerChain⟩] ∧
      (ms = honestReplies peerChain tip ↔ rest ≠ []) := by
  rcases ms with - | ⟨m1, - | ⟨m2, - | ⟨m3, - | ⟨m4, rest⟩⟩⟩⟩
  iterate 4 exact absurd (by simp) hlen
  simp only [honestReplies, List.cons_prefix_cons] at hhonest
  obtain ⟨rfl, rfl, rfl, rfl, hrest⟩ := hhonest
  refine ⟨rest, rfl, hrest, ?_⟩
  simp only [honestReplies, List.cons.injEq, true_and]
  rcases List.prefix_cons_iff.mp hrest with rfl | ⟨tail, rfl, htail⟩
  · simp
  · simp [List.prefix_nil.mp htail]

/-- Fewer than four replies: both commands end before the block. -/
private theorem syncs_short {files : Files} {chain : List CBlock}
    (hload : loadedChain files = some (.ok chain)) {stream : Bytes}
    (hshort : (messages stream).length < 4) (node : Node) :
    ∃ sent sent', runConnector files stream = .ok (files, sent) ∧
      node.pollPeer id stream = .ok (node, sent') := by
  have hfiles : files.chainFile.map deserializeChain = some (.ok chain) := hload
  unfold runConnector Node.pollPeer
  rw [hfiles]
  rcases hm : messages stream with - | ⟨m1, - | ⟨m2, - | ⟨m3, - | ⟨m4, rest⟩⟩⟩⟩
  · exact ⟨_, _, rfl, rfl⟩
  · dsimp only
    split <;> exact ⟨_, _, rfl, rfl⟩
  · dsimp only
    split <;> exact ⟨_, _, rfl, rfl⟩
  · dsimp only
    split
    · exact ⟨_, _, rfl, rfl⟩
    · split <;> exact ⟨_, _, rfl, rfl⟩
  · rw [hm, List.length_cons, List.length_cons, List.length_cons, List.length_cons] at hshort
    omega

/-- The first four replies lead both commands to the block. -/
private theorem runConnector_eq {files : Files} {chain : List CBlock}
    (hload : loadedChain files = some (.ok chain)) {stream version verack inv block : Bytes}
    {rest : List Message} (hm : messages stream = ⟨Command.VERSION, version⟩ ::
      ⟨Command.VERACK, verack⟩ :: ⟨Command.INV, inv⟩ :: ⟨Command.BLOCK, block⟩ :: rest) :
    ∃ sent, runConnector files stream = connectorBlock files chain block rest sent := by
  have hfiles : files.chainFile.map deserializeChain = some (.ok chain) := hload
  unfold runConnector
  simp only [hfiles, hm, ne_eq, not_true_eq_false, or_self, if_false]
  exact ⟨_, rfl⟩

private theorem pollPeer_eq (node : Node) {stream version verack inv block : Bytes}
    {rest : List Message} (hm : messages stream = ⟨Command.VERSION, version⟩ ::
      ⟨Command.VERACK, verack⟩ :: ⟨Command.INV, inv⟩ :: ⟨Command.BLOCK, block⟩ :: rest) :
    ∃ sent, node.pollPeer id stream = node.pollBlock id block rest sent := by
  unfold Node.pollPeer
  simp only [hm, ne_eq, not_true_eq_false, or_self, if_false]
  exact ⟨_, rfl⟩

/-- From one loaded chain, and with a peer that serves another, whatever part of its replies
arrives: neither sync throws, and they leave the same chain persisted unless everything arrives,
the peer's last block links to the tip but does not pass the fast path, and its chain is one to
switch to. -/
theorem sync_paths_agree_iff {files : Files} {chain peerChain : List CBlock} (hne : chain ≠ [])
    (hload : loadedChain files = some (.ok chain)) (henc : ChainEncodable peerChain)
    {tip : CBlock} (htip : peerChain.getLast? = some tip) {stream : Bytes}
    (hhonest : messages stream <+: honestReplies peerChain tip) :
    ∃ files' sent node' sent', runConnector files stream = .ok (files', sent) ∧
      (Node.start chain files.mempoolFile).pollPeer id stream = .ok (node', sent') ∧
      node'.files.chainFile = some (serializeChain node'.chain) ∧
      (loadedChain files' = loadedChain node'.files ↔
        ¬ (messages stream = honestReplies peerChain tip ∧ LinkedMisfit chain tip ∧
          eligible chain peerChain = true ∧ work chain < work peerChain)) := by
  obtain ⟨buffer, hfile, hbuffer⟩ := Option.map_eq_some_iff.mp hload
  have hself : loadedChain (Node.start chain files.mempoolFile).files = some (.ok chain) :=
    @loadedChain_saveChain _ files _ (chainEncodable_of_deserializeChain hbuffer)
  by_cases hshort : (messages stream).length < 4
  · obtain ⟨sent, sent', hrun, hpoll⟩ :=
      syncs_short hload hshort (Node.start chain files.mempoolFile)
    refine ⟨files, sent, _, sent', hrun, hpoll, rfl,
      iff_of_true (hload.trans hself.symm) fun h ↦ ?_⟩
    rw [h.1] at hshort
    simp [honestReplies] at hshort
  · obtain ⟨rest, hm, hrest, hall⟩ := honest_prefix hhonest hshort
    obtain ⟨sent₁, hrun⟩ := runConnector_eq hload hm
    obtain ⟨sent₂, hpoll⟩ := pollPeer_eq (Node.start chain files.mempoolFile) hm
    obtain ⟨files', sent, node', sent', hblock, hblock', hsaved, hagree⟩ :=
      @block_agree_iff _ _ _ hne henc _ htip _ hrest _ hload _ rfl hself rfl sent₁ sent₂
    rw [hall]
    exact ⟨files', sent, node', sent', hrun.trans hblock, hpoll.trans hblock', hsaved, hagree⟩

end

/-! ## A block that links and does not fit -/

/-- The chain with the block whose second payment spends the first one's output. -/
def paidChain : List CBlock := [openGenesis, minedBlock]

/-- The files of a node that has the first block only. -/
def genesisFiles : Files := ⟨some (serializeChain [openGenesis]), none⟩

/-- What an honest peer with the longer chain sends. -/
def paidStream : Bytes := @frames keylessCrypto (@honestReplies keylessCrypto paidChain minedBlock)

private theorem loadedChain_genesisFiles :
    @loadedChain keylessCrypto genesisFiles = some (.ok [openGenesis]) :=
  @loadedChain_saveChain keylessCrypto ⟨none, none⟩ _ encodable_openGenesis

theorem encodable_paidChain : @ChainEncodable keylessCrypto paidChain := by
  have hcoinbase : minedCoinbaseTx.txHash = @Transaction.getHash keylessCrypto minedCoinbaseTx := by
    decide +kernel
  have hmined : ∀ tx ∈ minedBlock.vtx, tx.txHash = @Transaction.getHash keylessCrypto tx := by
    show ∀ tx ∈ [minedCoinbaseTx, payingSpendTx, followingTx], _
    simp only [List.forall_mem_cons]
    exact ⟨hcoinbase, txHash_payingSpendTx,
      @Transaction.Encodable.txHash_eq keylessCrypto _ encodable_followingTx, by simp⟩
  refine @chainEncodable_of_length keylessCrypto _ (List.forall_mem_cons.mpr ⟨?_, ?_⟩)
    (by decide +kernel)
  · show ∀ tx ∈ [openRewardTx], _
    exact List.forall_mem_singleton.mpr txHash_openRewardTx
  · exact List.forall_mem_singleton.mpr hmined

private theorem messages_paidStream :
    @messages keylessCrypto paidStream = @honestReplies keylessCrypto paidChain minedBlock :=
  @messages_frames keylessCrypto _
    (@arrives_honestReplies keylessCrypto _ _ (by decide +kernel) (by decide +kernel))

theorem validateFullChain_paidChain :
    @validateFullChain keylessCrypto paidChain = true := validateFullChain_minedBlock

theorem linkedMisfit_minedBlock : @LinkedMisfit keylessCrypto [openGenesis] minedBlock := by
  have hheader : @HeaderFits keylessCrypto [openGenesis] minedBlock :=
    @BlockFits.toHeaderFits keylessCrypto _ _
      (((@validateFullChain_iff keylessCrypto _).mp validateFullChain_paidChain).2 _ _ [] rfl)
  obtain ⟨hmerkle, hwork, hlinks, -⟩ := hheader
  refine @LinkedMisfit.mk keylessCrypto _ _ hmerkle hwork hlinks fun h ↦ ?_
  -- the second payment spends an output that is not there yet
  have hfee := @FastFits.fees keylessCrypto _ _ h followingTx (by decide) rfl
  exact absurd hfee (by decide +kernel)

private theorem eligible_paidChain : @eligible keylessCrypto [openGenesis] paidChain = true := by
  unfold eligible
  rw [validateFullChain_paidChain, Bool.and_true, decide_eq_true_eq]
  rfl

theorem heavier_paidChain : work [openGenesis] < work paidChain :=
  work_lt_concat [openGenesis] (by decide)

/-- `run_connector` keeps the genesis block, `PollPeer` switches to the peer's chain. -/
theorem sync_paths_differ_minedBlock : ∃ files sent node sent',
    @runConnector keylessCrypto genesisFiles paidStream = .ok (files, sent) ∧
    @Node.pollPeer keylessCrypto (Node.start [openGenesis] none) id paidStream =
      .ok (node, sent') ∧
    @loadedChain keylessCrypto files = some (.ok [openGenesis]) ∧
    node.chain = paidChain ∧ @loadedChain keylessCrypto node.files = some (.ok paidChain) := by
  obtain ⟨hmerkle, hwork, hlinks, hmisfit⟩ := linkedMisfit_minedBlock
  have hswitch : @SwitchesTo keylessCrypto [openGenesis] paidChain minedBlock
      [⟨Command.CHAIN, serializeChain paidChain⟩] :=
    @SwitchesTo.mk keylessCrypto _ _ _ _ (by simp) hmerkle hwork
      eligible_paidChain heavier_paidChain
  obtain ⟨sent₁, hrun⟩ := @runConnector_eq keylessCrypto _ _ loadedChain_genesisFiles _ _ _ _ _ _
    messages_paidStream
  obtain ⟨sent₂, hpoll⟩ := @pollPeer_eq keylessCrypto (Node.start [openGenesis] none) _ _ _ _ _ _
    messages_paidStream
  obtain ⟨files, sent, hblock, hcases⟩ := @connectorBlock_cases keylessCrypto [openGenesis]
    paidChain (by simp) encodable_paidChain minedBlock rfl _ (List.prefix_refl _) genesisFiles sent₁
  obtain ⟨node, sent', hblock', hcases'⟩ := @pollBlock_cases keylessCrypto [openGenesis]
    paidChain (by simp) encodable_paidChain minedBlock rfl _ (List.prefix_refl _)
    (Node.start [openGenesis] none) rfl sent₂
  refine ⟨files, sent, node, sent', hrun.trans hblock, hpoll.trans hblock', ?_⟩
  rcases hcases with ⟨hfits, -⟩ | ⟨-, -, hne, -⟩ | ⟨-, -, rfl⟩
  · exact absurd hfits hmisfit
  · exact absurd hlinks hne
  rcases hcases' with ⟨hfits, -⟩ | ⟨-, -, rfl⟩ | ⟨-, hstay, -⟩
  · exact absurd hfits hmisfit
  · exact ⟨loadedChain_genesisFiles, rfl,
      @loadedChain_saveChain keylessCrypto genesisFiles _ encodable_paidChain⟩
  · exact absurd hswitch hstay

/-- The equivalence at the same exchange. -/
theorem sync_paths_agree_iff_paidStream : ∃ files sent node sent',
    @runConnector keylessCrypto genesisFiles paidStream = .ok (files, sent) ∧
    @Node.pollPeer keylessCrypto (Node.start [openGenesis] none) id paidStream =
      .ok (node, sent') ∧
    @loadedChain keylessCrypto files ≠ @loadedChain keylessCrypto node.files := by
  obtain ⟨files, sent, node, sent', hrun, hpoll, -, hagree⟩ := @sync_paths_agree_iff keylessCrypto
    genesisFiles [openGenesis] paidChain (by simp) loadedChain_genesisFiles encodable_paidChain
    minedBlock rfl paidStream (messages_paidStream ▸ List.prefix_refl _)
  refine ⟨files, sent, node, sent', hrun, hpoll, fun heq ↦ hagree.mp heq ⟨messages_paidStream,
    linkedMisfit_minedBlock, eligible_paidChain, heavier_paidChain⟩⟩

end Siliqua.Network
