import Siliqua.Ledger.ForkChoice
import Siliqua.Ledger.Retarget
import Siliqua.Network.Mempool

/-!
# What becomes of an accepted payment

A payment leaves the mempool only when a block is mined, and it is then in that block or has lost
an input to a transaction that is. A spent outpoint stays spent while the chain grows. A reorg
that drops the block does not bring the payment back.
-/

namespace Siliqua.Network

open ByteDecoder ByteDecoder.Decoder Siliqua.Core Siliqua.Storage Siliqua.Ledger KeyedStore Journal

/-- An input of the chain names the outpoint. -/
def Spent (chain : List CBlock) (p : COutPoint) : Prop :=
  ∃ tx ∈ transactions chain, p ∈ tx.prevouts

/-- From one chain to another, no outpoint the transaction spends becomes unspent or goes away. -/
def KeepsInputs (tx : Transaction) (chain chain' : List CBlock) : Prop :=
  ∀ p ∈ tx.prevouts, (Spent chain p → Spent chain' p) ∧
    ∀ out, (buildUtxoSet chain).lookup p = some out →
      Spent chain' p ∨ (buildUtxoSet chain').lookup p = some out

/-! ## Chains that keep inputs -/

/-- The chain's set holds the first output created for an outpoint until an input names it. -/
theorem lookup_buildUtxoSet_eq_some {chain : List CBlock} {p : COutPoint} {out : CTxOut} :
    (buildUtxoSet chain).lookup p = some out ↔
      ¬ Spent chain p ∧
        ((transactions chain).flatMap Transaction.outpoints).lookup p = some out := by
  have hnames : p ∈ (transactions chain).flatMap Transaction.prevouts ↔ Spent chain p :=
    List.mem_flatMap
  rw [buildUtxoSet_eq_settle, settle, lookup_eraseAll, lookup_emplaceAll,
    flatMap_journal_creates, flatMap_journal_names]
  by_cases hspent : Spent chain p
  · simp [hnames, hspent]
  · simp [hnames, hspent]

theorem not_mem_of_spent {chain : List CBlock} {p : COutPoint} (h : Spent chain p) :
    p ∉ buildUtxoSet chain := by
  intro hp
  obtain ⟨out, hout⟩ := Finmap.mem_iff.mp hp
  exact (lookup_buildUtxoSet_eq_some.mp hout).1 h

theorem Spent.of_prefix {chain chain' : List CBlock} {p : COutPoint} (h : Spent chain p)
    (hgrows : chain <+: chain') : Spent chain' p := by
  obtain ⟨blocks, rfl⟩ := hgrows
  obtain ⟨tx, htx, hp⟩ := h
  exact ⟨tx, by simp [htx], hp⟩

theorem KeepsInputs.refl (tx : Transaction) (chain : List CBlock) : KeepsInputs tx chain chain :=
  fun _ _ ↦ ⟨id, fun _ ↦ Or.inr⟩

theorem KeepsInputs.trans {tx : Transaction} {chain chain' chain'' : List CBlock}
    (h : KeepsInputs tx chain chain') (h' : KeepsInputs tx chain' chain'') :
    KeepsInputs tx chain chain'' := by
  intro p hp
  refine ⟨fun hspent ↦ (h' p hp).1 ((h p hp).1 hspent), fun out hout ↦ ?_⟩
  rcases (h p hp).2 out hout with hspent | hunspent
  · exact Or.inl ((h' p hp).1 hspent)
  · exact (h' p hp).2 out hunspent

/-- A chain that grows keeps every input. -/
theorem keepsInputs_of_prefix {tx : Transaction} {chain chain' : List CBlock}
    (h : chain <+: chain') : KeepsInputs tx chain chain' := by
  refine fun p _ ↦ ⟨fun hspent ↦ hspent.of_prefix h, fun out hout ↦ ?_⟩
  by_cases hspent : Spent chain' p
  · exact Or.inl hspent
  · obtain ⟨blocks, rfl⟩ := h
    have hfirst := (lookup_buildUtxoSet_eq_some.mp hout).2
    refine Or.inr (lookup_buildUtxoSet_eq_some.mpr ⟨hspent, ?_⟩)
    rw [transactions_append, List.flatMap_append, List.lookup_append, hfirst]
    rfl

section

variable [Crypto]

theorem fee_neg_of_spent {chain : List CBlock} {tx : Transaction} {p : COutPoint}
    (hp : p ∈ tx.prevouts) (hspent : Spent chain p) :
    validateAndGetFee tx (buildUtxoSet chain) < 0 :=
  Int64.not_le.mp fun hfee ↦ not_mem_of_spent hspent (mem_of_fee_nonneg hfee p hp)

/-- A transaction with a fee on one chain has it on every chain that keeps its inputs, until one
of them is spent. -/
theorem fee_eq_of_keepsInputs {chain chain' : List CBlock} {tx : Transaction}
    (hfee : 0 ≤ validateAndGetFee tx (buildUtxoSet chain)) (hkeep : KeepsInputs tx chain chain')
    (hunspent : ∀ p ∈ tx.prevouts, ¬ Spent chain' p) :
    validateAndGetFee tx (buildUtxoSet chain') = validateAndGetFee tx (buildUtxoSet chain) := by
  apply fee_congr
  intro p hp
  obtain ⟨out, hout⟩ := Finmap.mem_iff.mp (mem_of_fee_nonneg hfee p hp)
  rw [hout]
  exact ((hkeep p hp).2 out hout).resolve_left (hunspent p hp)

/-! ## Mining -/

/-- The miner takes each valid entry, or has taken one of its inputs with another entry. -/
theorem exists_taken_of_valid {chain : List CBlock} {mempool : List Transaction}
    {tx : Transaction} (htx : tx ∈ mempool)
    (hfee : 0 ≤ validateAndGetFee tx (buildUtxoSet chain)) :
    ∃ p ∈ tx.prevouts, ∃ t ∈ (selectMempool chain mempool).extraTxs, p ∈ t.prevouts := by
  obtain ⟨pre, post, rfl⟩ := List.append_of_mem htx
  by_cases htaken : ∃ p ∈ tx.prevouts, ∃ t ∈ (selectMempool chain pre).extraTxs, p ∈ t.prevouts
  · obtain ⟨p, hp, t, ht, hpt⟩ := htaken
    obtain ⟨before, after, rfl, hturn⟩ := mem_extraTxs_iff.mp ht
    exact ⟨p, hp, t, mem_extraTxs_iff.mpr ⟨before, after ++ tx :: post, by simp, hturn⟩, hpt⟩
  · have hsame := fee_selectMempool hfee fun t ht p hp hpt ↦ htaken ⟨p, hp, t, ht, hpt⟩
    have hmined : tx ∈ (selectMempool chain (pre ++ tx :: post)).extraTxs :=
      mem_extraTxs_iff.mpr ⟨pre, post, rfl, by rw [hsame]; exact hfee⟩
    obtain ⟨p, hp⟩ := exists_prevout_of_fee_nonneg hfee
    exact ⟨p, hp, tx, hmined, hp⟩

/-! ## Steps and runs -/

/-- Polling leaves the mempool file alone. -/
theorem mempoolFile_pollExtend (node : Node) (blk : CBlock) :
    (node.pollExtend blk).2.files.mempoolFile = node.files.mempoolFile := by
  unfold Node.pollExtend
  dsimp only
  split <;> rfl

theorem mempoolFile_pollReorg (node : Node) (peerChain : List CBlock) :
    (node.pollReorg peerChain).2.files.mempoolFile = node.files.mempoolFile := by
  unfold Node.pollReorg
  dsimp only
  split <;> rfl

/-- The chain of a node that switches is saved. -/
theorem pollReorg_of_switch {node : Node} {peerChain : List CBlock}
    (h : tryReorg node.chain peerChain = (true, peerChain)) :
    node.pollReorg peerChain = (true, node.saveChain peerChain) := by
  rw [Node.pollReorg, h]
  rfl

/-- A valid pending transaction stays pending, or the step spends one of its inputs. -/
theorem mem_mempool_step {address : Address} {s s' : System} {event : Event}
    (h : Logged address s event s') {tx : Transaction}
    (htx : tx ∈ loadMempoolOrEmpty s.node.files.mempoolFile)
    (hfee : 0 ≤ validateAndGetFee tx (buildUtxoSet s.node.chain)) :
    tx ∈ loadMempoolOrEmpty s'.node.files.mempoolFile ∨
      ∃ p ∈ tx.prevouts, Spent s'.node.chain p := by
  cases h with
  | mine fuel clock mined =>
    obtain ⟨blk, hblk, hchain, -⟩ := miningLoop_spec mined
    obtain ⟨p, hp, t, ht, hpt⟩ := exists_taken_of_valid htx hfee
    have hmem : t ∈ blk.vtx := by
      rw [(mineOnto_spec hblk).2.vtx]
      exact List.mem_cons_of_mem _ ht
    exact Or.inr ⟨p, hp, t, by simp [hchain, hmem], hpt⟩
  | accept payload decoded =>
    rw [loadMempoolOrEmpty_acceptTransaction _
      (Transaction.codec.canonical (Nat.zero_le _) decoded).1]
    split
    · exact Or.inl (List.mem_append_left _ htx)
    · exact Or.inl htx
  | pollExtend payload phase decoded =>
    rw [mempoolFile_pollExtend]
    exact Or.inl htx
  | pollReorg payload phase decoded =>
    rw [mempoolFile_pollReorg]
    exact Or.inl htx
  | pollGiveUp phase => exact Or.inl htx

/-- A step of the node that, where it leaves out a block of the chain, keeps a transaction's
inputs. -/
def KeepingStep (address : Address) (tx : Transaction) (s s' : System) : Prop :=
  (∃ event, Logged address s event s') ∧
    (¬ s.node.chain <+: s'.node.chain → KeepsInputs tx s.node.chain s'.node.chain)

/-- A transaction that was valid on `chain₀`: its inputs are kept, and it is pending or has lost
one of them. -/
structure Tracked (tx : Transaction) (chain₀ : List CBlock) (node : Node) : Prop where
  keeps : KeepsInputs tx chain₀ node.chain
  held : tx ∈ loadMempoolOrEmpty node.files.mempoolFile ∨ ∃ p ∈ tx.prevouts, Spent node.chain p

/-- One step. -/
theorem Tracked.step {address : Address} {tx : Transaction} {chain₀ : List CBlock}
    {s s' : System} (hfee : 0 ≤ validateAndGetFee tx (buildUtxoSet chain₀))
    (h : Tracked tx chain₀ s.node) (hstep : KeepingStep address tx s s') :
    Tracked tx chain₀ s'.node := by
  obtain ⟨⟨event, hlogged⟩, hreorg⟩ := hstep
  have hkeep : KeepsInputs tx s.node.chain s'.node.chain := by
    by_cases hgrows : s.node.chain <+: s'.node.chain
    · exact keepsInputs_of_prefix hgrows
    · exact hreorg hgrows
  refine ⟨h.keeps.trans hkeep, ?_⟩
  by_cases hspent : ∃ p ∈ tx.prevouts, Spent s.node.chain p
  · obtain ⟨p, hp, hpspent⟩ := hspent
    exact Or.inr ⟨p, hp, (hkeep p hp).1 hpspent⟩
  · have hsame := fee_eq_of_keepsInputs hfee h.keeps fun p hp hpspent ↦ hspent ⟨p, hp, hpspent⟩
    exact mem_mempool_step hlogged (h.held.resolve_right hspent) (by rw [hsame]; exact hfee)

/-- A whole run. -/
theorem tracked_run {address : Address} {tx : Transaction} {chain₀ : List CBlock}
    {s s' : System} (hfee : 0 ≤ validateAndGetFee tx (buildUtxoSet chain₀))
    (h : Tracked tx chain₀ s.node)
    (hrun : Relation.ReflTransGen (KeepingStep address tx) s s') :
    Tracked tx chain₀ s'.node := by
  induction hrun with
  | refl => exact h
  | tail _ hstep ih => exact ih.step hfee hstep

/-- An accepted transaction is in the chain, in the mempool or invalid in every later state, as
long as no reorg that leaves out a block unspends or removes an outpoint it spends. -/
theorem accepted_not_lost {address : Address} {s : System} {payload : Bytes}
    {tx : Transaction} {next : Nat} (hdecoded : Transaction.deserialize payload 0 = .ok (tx, next))
    (htakes : s.node.Takes tx) {s' : System}
    (hrun : Relation.ReflTransGen (KeepingStep address tx)
      { s with node := s.node.acceptTransaction tx } s') :
    tx ∈ transactions s'.node.chain ∨ tx ∈ loadMempoolOrEmpty s'.node.files.mempoolFile ∨
      validateAndGetFee tx (buildUtxoSet s'.node.chain) < 0 := by
  have hfirst : Tracked tx s.node.chain (s.node.acceptTransaction tx) := by
    refine ⟨?_, Or.inl ?_⟩
    · rw [Node.chain_acceptTransaction]
      exact KeepsInputs.refl tx _
    · rw [loadMempoolOrEmpty_acceptTransaction _
        (Transaction.codec.canonical (Nat.zero_le _) hdecoded).1, if_pos htakes]
      exact List.mem_append_right _ List.mem_cons_self
  rcases (tracked_run htakes.2.1 hfirst hrun).held with hpending | ⟨p, hp, hspent⟩
  · exact Or.inr (Or.inl hpending)
  · exact Or.inr (Or.inr (fee_neg_of_spent hp hspent))

end

/-! ## A reorg that drops a payment -/

/-- The coinbase for the fee of `payingSpendTx` at height one. -/
def paidCoinbaseTx : Transaction where
  nVersion := 1
  vin := [⟨COutPoint.null, [1, 0, 0, 0], 0xFFFFFFFF⟩]
  vout := [⟨5000001000, Wallet.buildP2pkhScriptPubkey zeroAddress⟩]
  nLockTime := 0
  txHash := .ofBigEndian 0xe60335b79c4035885f080f523d00c4696c0d7f87d19d6c07206cce69159c1f7d

/-- The block mined on `openGenesis` with `payingSpendTx` pending. -/
def paidBlock : CBlock where
  nVersion := 1
  hashPrevBlock :=
    .ofBigEndian 0x2477962e6252d54915bb84656a75a7fc211629eb6a2bf05c30fd489f2f694de0
  hashMerkleRoot :=
    .ofBigEndian 0xa438ca81097192c01133876ae5e1e04ea3b0da591dac57ec4c0942a1537ca7eb
  nTime := 1700000021
  nBits := INITIAL_BITS
  nNonce := 0
  vtx := [paidCoinbaseTx, payingSpendTx]

/-- A peer's chain on the same genesis block, one block longer and without the payment. -/
def rivalChain : List CBlock := slowChain.take 3

/-- The node after it has mined the payment. -/
def paidNode : Node := Node.start [openGenesis, paidBlock] (some (serializeMempool []))

theorem decoded_payingSpendTx :
    @Transaction.deserialize keylessCrypto payingSpendTx.serialize 0 =
      .ok (payingSpendTx, 74) :=
  @Transaction.deserialize_serialize keylessCrypto _ encodable_payingSpendTx

private theorem takes_payingSpendTx : @Node.Takes keylessCrypto openNode payingSpendTx := by
  decide +kernel

/-- Mining that payment. -/
theorem miningLoop_paidBlock : @Node.miningLoop keylessCrypto
    (@Node.acceptTransaction keylessCrypto openNode payingSpendTx) 1 1700000021 zeroAddress =
      some paidNode := by
  have hblk : @mineOnto keylessCrypto 1 1700000021 [openGenesis] zeroAddress [payingSpendTx] =
      some paidBlock := by
    decide +kernel
  have hpending : @loadMempoolOrEmpty keylessCrypto (@Node.acceptTransaction keylessCrypto
      openNode payingSpendTx).files.mempoolFile = [payingSpendTx] := by
    rw [@loadMempoolOrEmpty_acceptTransaction keylessCrypto _ _ encodable_payingSpendTx,
      if_pos takes_payingSpendTx]
    rfl
  have hchain : (@Node.acceptTransaction keylessCrypto openNode payingSpendTx).chain =
      [openGenesis] := @Node.chain_acceptTransaction keylessCrypto _ _
  unfold Node.miningLoop
  rw [hchain, hpending, hblk]
  rfl

/-- The last block of `rivalChain`. -/
def rivalTip : CBlock := rivalChain.getLast (by decide)

/-- It is the beginning of an accepted chain. -/
private theorem validateFullChain_rivalChain :
    @validateFullChain keylessCrypto rivalChain = true := by
  have hslow := validateFullChain_slowChain
  rw [← List.take_append_drop 3 slowChain] at hslow
  exact @validateFullChain_of_append keylessCrypto _ _ hslow (by decide)

/-- A node that switches to `rivalChain`: it gets the tip, which does not extend its chain, and then
the chain. -/
private theorem logged_of_switch {node : Node}
    (hextend : @tryExtendChain keylessCrypto node.chain rivalTip = (false, node.chain))
    (hreorg : @tryReorg keylessCrypto node.chain rivalChain = (true, rivalChain)) :
    (@Logged keylessCrypto zeroAddress ⟨node, .idle⟩ .polled ⟨node, .awaitingChain⟩) ∧
      @Logged keylessCrypto zeroAddress ⟨node, .awaitingChain⟩ .polled
        ⟨node.saveChain rivalChain, .idle⟩ := by
  have hencodable : @ChainEncodable keylessCrypto rivalChain :=
    @chainEncodable_of_length keylessCrypto _ (by decide +kernel) (by decide +kernel)
  have htip : @CBlock.deserialize keylessCrypto rivalTip.serialize 0 =
      .ok (rivalTip, rivalTip.serialize.length) :=
    @CBlock.deserialize_serialize keylessCrypto _ (hencodable.2 rivalTip (List.getLast_mem _))
  have hheader : @HeaderFits keylessCrypto (rivalChain.take 2) rivalTip :=
    @BlockFits.toHeaderFits keylessCrypto _ _
      (((@validateFullChain_iff keylessCrypto _).mp validateFullChain_rivalChain).2 _ _ [] rfl)
  have hmerkle := @HeaderFits.merkle keylessCrypto _ _ hheader
  have hwork := @HeaderFits.work keylessCrypto _ _ hheader
  constructor
  · have hstep := @Logged.pollExtend keylessCrypto zeroAddress ⟨node, .idle⟩ rivalTip _ _ rfl
      htip
    simpa [Node.pollExtend, hextend, hmerkle, hwork] using hstep
  · have hstep := @Logged.pollReorg keylessCrypto zeroAddress ⟨node, .awaitingChain⟩
      rivalChain _ rfl (@deserializeChain_saved keylessCrypto _ hencodable)
    rwa [@pollReorg_of_switch keylessCrypto _ _ hreorg] at hstep

/-- `rivalChain` is taken by a chain with its genesis block and less work. -/
private theorem tryReorg_rivalChain {chain : List CBlock} (hne : chain ≠ [])
    (hgenesis : @genesisHash keylessCrypto rivalChain = @genesisHash keylessCrypto chain)
    (hwork : work chain < work rivalChain) :
    @tryReorg keylessCrypto chain rivalChain = (true, rivalChain) := by
  have helig : @eligible keylessCrypto chain rivalChain = true := by
    unfold eligible
    rw [validateFullChain_rivalChain, Bool.and_true, decide_eq_true_eq, hgenesis]
  rw [@tryReorg_eq keylessCrypto _ hne, if_pos ⟨helig, hwork⟩]

/-- What the node does after it has mined the payment. -/
theorem logged_rivalChain :
    (@Logged keylessCrypto zeroAddress ⟨paidNode, .idle⟩ .polled ⟨paidNode, .awaitingChain⟩) ∧
      @Logged keylessCrypto zeroAddress ⟨paidNode, .awaitingChain⟩ .polled
        ⟨paidNode.saveChain rivalChain, .idle⟩ :=
  logged_of_switch (by decide +kernel) (tryReorg_rivalChain (by decide) rfl (by decide +kernel))

/-- The payment is accepted and mined; then the node reorgs onto a chain on which it is valid,
and it is neither there nor pending. -/
theorem accepted_lost_rivalChain :
    @validateFullChain keylessCrypto openNode.chain = true ∧
      @Node.Takes keylessCrypto openNode payingSpendTx ∧
      ∃ s, Relation.ReflTransGen (fun s s' ↦ ∃ event, @Logged keylessCrypto zeroAddress s event s')
          ⟨@Node.acceptTransaction keylessCrypto openNode payingSpendTx, .idle⟩ s ∧
        payingSpendTx ∉ transactions s.node.chain ∧
        payingSpendTx ∉ @loadMempoolOrEmpty keylessCrypto s.node.files.mempoolFile ∧
        0 ≤ @validateAndGetFee keylessCrypto payingSpendTx (buildUtxoSet s.node.chain) := by
  refine ⟨validateFullChain_openGenesis, takes_payingSpendTx,
    ⟨paidNode.saveChain rivalChain, .idle⟩, ?_, by decide +kernel, by decide +kernel,
    by decide +kernel⟩
  have hmine := @Logged.mine keylessCrypto zeroAddress
    ⟨@Node.acceptTransaction keylessCrypto openNode payingSpendTx, .idle⟩ _ 1 1700000021
    miningLoop_paidBlock
  exact ((Relation.ReflTransGen.single ⟨_, hmine⟩).tail ⟨_, logged_rivalChain.1⟩).tail
    ⟨_, logged_rivalChain.2⟩

/-- A node with another block on the same genesis block, and nothing pending. -/
def siblingNode : Node := Node.start (briskChain.take 2) (some (serializeMempool []))

/-- The payment gets through a reorg that leaves out the other block: neither chain spends what it
spends. -/
theorem accepted_not_lost_siblingNode :
    ¬ siblingNode.chain <+: rivalChain ∧
      (payingSpendTx ∈ transactions rivalChain ∨
        payingSpendTx ∈ @loadMempoolOrEmpty keylessCrypto
          ((@Node.acceptTransaction keylessCrypto siblingNode payingSpendTx).saveChain
            rivalChain).files.mempoolFile ∨
        @validateAndGetFee keylessCrypto payingSpendTx (buildUtxoSet rivalChain) < 0) := by
  have htakes : @Node.Takes keylessCrypto siblingNode payingSpendTx := by decide +kernel
  have hchain : (@Node.acceptTransaction keylessCrypto siblingNode payingSpendTx).chain =
      siblingNode.chain := @Node.chain_acceptTransaction keylessCrypto _ _
  have hkeeps : KeepsInputs payingSpendTx siblingNode.chain rivalChain := by
    have hinputs : ∀ p ∈ payingSpendTx.prevouts,
        (∀ tx ∈ transactions siblingNode.chain, p ∉ tx.prevouts) ∧
          (buildUtxoSet siblingNode.chain).lookup p = (buildUtxoSet rivalChain).lookup p := by
      decide +kernel
    intro p hp
    obtain ⟨hunspent, hsame⟩ := hinputs p hp
    exact ⟨fun ⟨tx, htx, hspends⟩ ↦ absurd hspends (hunspent tx htx),
      fun out hout ↦ Or.inr (hsame ▸ hout)⟩
  obtain ⟨hasks, hswitches⟩ :=
    @logged_of_switch (@Node.acceptTransaction keylessCrypto siblingNode payingSpendTx)
      (by rw [hchain]; decide +kernel)
      (by rw [hchain]; exact tryReorg_rivalChain (by decide) rfl (by decide +kernel))
  refine ⟨by decide +kernel, @accepted_not_lost keylessCrypto zeroAddress ⟨siblingNode, .idle⟩ _ _ _
    decoded_payingSpendTx htakes
    ⟨(@Node.acceptTransaction keylessCrypto siblingNode payingSpendTx).saveChain rivalChain, .idle⟩
    ?_⟩
  refine (Relation.ReflTransGen.single ⟨⟨_, hasks⟩, fun h ↦ absurd List.prefix_rfl h⟩).tail
    ⟨⟨_, hswitches⟩, fun _ ↦ ?_⟩
  show KeepsInputs payingSpendTx
    (@Node.acceptTransaction keylessCrypto siblingNode payingSpendTx).chain rivalChain
  rw [hchain]
  exact hkeeps

end Siliqua.Network
