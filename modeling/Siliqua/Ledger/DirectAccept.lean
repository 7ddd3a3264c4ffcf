import Siliqua.Ledger.Mining

/-!
# A mined block at an up-to-date peer

The selection loop updates its set after every transaction it takes, the fast path of the
receiving node does not: a block with a transaction that spends another one's output is mined
but not taken.
-/

namespace Siliqua.Ledger

open Siliqua.Core Siliqua.Consensus Siliqua.Network Siliqua.Storage KeyedStore Journal
  Splits

section

variable [Crypto]

/-- Every pending transaction that checks out when the miner's loop reaches it spends outputs of
the chain only. -/
def SpendsOnlyChain (chain : List CBlock) (mempool : List Transaction) : Prop :=
  ∀ pre tx post, mempool = pre ++ tx :: post →
    0 ≤ validateAndGetFee tx (selectMempool chain pre).utxoSet →
    ∀ p ∈ tx.prevouts, ∃ tx' ∈ transactions chain, p ∈ tx'.outpoints.map Prod.fst

theorem selectMempool_concat (chain : List CBlock) (mempool : List Transaction)
    (tx : Transaction) :
    selectMempool chain (mempool ++ [tx]) = selectTx (selectMempool chain mempool) tx := by
  simp [selectMempool]

/-- The miner selects exactly the transactions that check out when its loop reaches them. -/
theorem mem_extraTxs_iff {chain : List CBlock} {mempool : List Transaction} {tx : Transaction} :
    tx ∈ (selectMempool chain mempool).extraTxs ↔
      ∃ pre post, mempool = pre ++ tx :: post ∧
        0 ≤ validateAndGetFee tx (selectMempool chain pre).utxoSet := by
  induction mempool using List.reverseRecOn with
  | nil => simp [selectMempool]
  | append_singleton mempool last ih =>
    have hstep : tx ∈ (selectMempool chain (mempool ++ [last])).extraTxs ↔
        tx ∈ (selectMempool chain mempool).extraTxs ∨
          (tx = last ∧ 0 ≤ validateAndGetFee last (selectMempool chain mempool).utxoSet) := by
      rw [selectMempool_concat, selectTx]
      split
      · next hf => simp [hf]
      · next hf => simp [hf]
    rw [hstep, ih]
    constructor
    · rintro (⟨pre, post, rfl, hf⟩ | ⟨rfl, hf⟩)
      · exact ⟨pre, post ++ [last], by simp, hf⟩
      · exact ⟨mempool, [], rfl, hf⟩
    · rintro ⟨pre, post, heq, hf⟩
      rcases concat_eq_split_iff.mp heq with ⟨rfl, rfl, rfl⟩ | ⟨post', rfl, hmem⟩
      · exact Or.inr ⟨rfl, hf⟩
      · exact Or.inl ⟨pre, post', hmem, hf⟩

section Loop

variable {chain : List CBlock} (hacc : validateFullChain chain = true)
  {all : List Transaction} (hid : Identified all) (hbase : transactions chain ⊆ all)
include hacc hid hbase

omit hacc in
/-- Any beginning of the loop, with the validator's set as the other side. -/
private theorem selects_before {mempool : List Transaction} (hin : mempool ⊆ all) :
    Selects all (utxosAfter (transactions chain)) (selectMempool chain mempool) :=
  selects_selectMempool hid ((sourced_utxosAfter _).subset hbase) hbase hin (buildUtxoSet_sub chain)

omit hid hbase in
private theorem created_of_accepted {tx : Transaction} (htx : tx ∈ transactions chain)
    (hc : tx.isCoinbase = false) {p : COutPoint} (hp : p ∈ tx.prevouts) :
    ∃ tx' ∈ transactions chain, p ∈ tx'.outpoints.map Prod.fst := by
  obtain ⟨pre, post, heq⟩ := List.append_of_mem htx
  have hmem := mem_of_fee_nonneg ((admits_of_accepted hacc heq).fee hc) p hp
  obtain ⟨out, hl⟩ := Finmap.mem_iff.mp hmem
  obtain ⟨tx', htx', hout⟩ := sourced_utxosAfter pre p out hl
  exact ⟨tx', by simp [heq, htx'], List.mem_map.mpr ⟨_, hout, rfl⟩⟩

/-- The loop never brings back an output of the chain: what it holds and the chain created was
unspent before. -/
theorem mem_buildUtxoSet_of_selected {mempool : List Transaction} (hin : mempool ⊆ all)
    {p : COutPoint} (hp : p ∈ (selectMempool chain mempool).utxoSet)
    (hmade : ∃ tx ∈ transactions chain, p ∈ tx.outpoints.map Prod.fst) :
    p ∈ buildUtxoSet chain := by
  induction mempool using List.reverseRecOn generalizing p with
  | nil => exact hp
  | append_singleton mempool tx ih =>
    obtain ⟨hin', htx⟩ := List.append_subset.mp hin
    have hsel := selects_before hid hbase hin'
    rw [selectMempool_concat, selectTx] at hp
    split at hp
    · next hf =>
      rcases mem_emplaceAll.mp hp with hold | hnew
      · exact ih hin' (mem_eraseAll.mp hold).1 hmade
      · obtain ⟨t, ht, hpt⟩ := hmade
        -- The selected transaction is already in the chain, so its inputs are named there.
        have htx' : tx ∈ all := htx List.mem_cons_self
        obtain rfl := hid.injective.eq_of_outpoint (hbase ht) htx' hpt hnew
        have hc := not_isCoinbase_of_fee hid hsel.sourced hf
        obtain ⟨txin, rest, hv, -⟩ := Transaction.exists_head_of_not_isCoinbase hc
        have hq : txin.prevout ∈ t.prevouts := by simp [Transaction.prevouts, hv]
        have hheld := ih hin' (mem_of_fee_nonneg hf _ hq) (created_of_accepted hacc ht hc hq)
        exact absurd hq ((mem_buildUtxoSet.mp hheld).2 t ht)
    · exact ih hin' hp hmade

/-- Where the loop takes only spends of chain outputs, each has the same fee in the set the loop
started from. -/
theorem selected_fees {mempool : List Transaction} (hin : mempool ⊆ all)
    (h : SpendsOnlyChain chain mempool) :
    (∀ tx ∈ (selectMempool chain mempool).extraTxs,
        0 ≤ validateAndGetFee tx (buildUtxoSet chain)) ∧
      (selectMempool chain mempool).totalFees =
        ((selectMempool chain mempool).extraTxs.map (feeOf (buildUtxoSet chain))).sum := by
  induction mempool using List.reverseRecOn with
  | nil => simp [selectMempool]
  | append_singleton mempool tx ih =>
    obtain ⟨hin', -⟩ := List.append_subset.mp hin
    obtain ⟨hfees, hsum⟩ := ih hin' (forall_split_concat.mp h).1
    have hsel := selects_before hid hbase hin'
    rw [selectMempool_concat, selectTx]
    split
    · next hf =>
      have hc := not_isCoinbase_of_fee hid hsel.sourced hf
      have hheld : ∀ p ∈ tx.prevouts, p ∈ buildUtxoSet chain := fun p hp ↦
        mem_buildUtxoSet_of_selected hacc hid hbase hin' (mem_of_fee_nonneg hf p hp)
          (h mempool tx [] rfl hf p hp)
      have hfee := hsel.sourced.fee_eq hid ((sourced_buildUtxoSet chain).subset hbase)
        (mem_of_fee_nonneg hf) hheld
      refine ⟨fun t ht ↦ ?_, ?_⟩
      · rcases List.mem_append.mp ht with hold | hnew
        · exact hfees t hold
        · rw [List.mem_singleton.mp hnew, ← hfee]
          exact hf
      · rw [List.map_append, List.sum_append, List.map_singleton, List.sum_singleton, ← hsum, feeOf,
          hc, hfee]
        rfl
    · exact ⟨hfees, hsum⟩

end Loop

/-- The fast path of a node with the same chain takes a mined block exactly when the miner took
only spends of chain outputs. -/
theorem fastFits_iff_spendsOnlyChain {chain : List CBlock} (hacc : validateFullChain chain = true)
    {mempool : List Transaction} (hdec : ∀ tx ∈ mempool, tx.Decoded) {address : Address}
    {blk : CBlock}
    (hblk : Built (extractHeaders chain) (tipHash chain) address
      (selectMempool chain mempool).totalFees (selectMempool chain mempool).extraTxs blk)
    (hcol : Collisionless (transactions chain ++ mempool)) :
    FastFits chain blk ↔ SpendsOnlyChain chain mempool := by
  have hid : Identified (transactions chain ++ mempool) := by
    refine ⟨fun tx htx ↦ ?_, hcol⟩
    exact (List.mem_append.mp htx).elim (outputs_of_accepted hacc) fun h ↦ (hdec tx h).spec.2
  have hbase : transactions chain ⊆ transactions chain ++ mempool := List.subset_append_left _ _
  have hin : mempool ⊆ transactions chain ++ mempool := List.subset_append_right _ _
  have hlen : (extractHeaders chain).length = chain.length := List.length_map _
  constructor
  · intro hfast pre tx post heq hf p hp
    have hsel : tx ∈ (selectMempool chain mempool).extraTxs :=
      mem_extraTxs_iff.mpr ⟨pre, post, heq, hf⟩
    have hc := (selects_before hid hbase hin).ordinary tx hsel
    have hfee := hfast.fees tx (by simp [hblk.vtx, hsel]) hc
    exact (mem_buildUtxoSet.mp (mem_of_fee_nonneg hfee p hp)).1
  · intro honly
    obtain ⟨hfees, hsum⟩ := selected_fees hacc hid hbase hin honly
    have hiscb := isCoinbase_buildCoinbaseTx address (UInt32.ofNat (extractHeaders chain).length)
      (selectMempool chain mempool).totalFees
    refine ⟨hblk.headerFits, fun tx htx hc ↦ ?_, _, _, hblk.vtx, hiscb, ?_⟩
    · rw [hblk.vtx] at htx
      rcases List.mem_cons.mp htx with rfl | hrest
      · rw [hiscb] at hc
        cases hc
      · exact hfees tx hrest
    · rw [outputTotal_buildCoinbaseTx, hblk.vtx, List.map_cons, List.sum_cons, ← hsum, feeOf, hiscb,
        if_pos rfl, Int64.zero_add, hlen]

/-- A peer with the same chain takes a mined block, and its chain file is then the miner's, byte
for byte, exactly when the miner took only spends of chain outputs. -/
theorem peer_takes_mined_iff {address : Address} {chain : List CBlock}
    {mempool : List Transaction} {blk : CBlock} {file : Option Bytes} {peer : Node}
    (hacc : validateFullChain chain = true) (hmines : Mines address chain mempool blk file)
    (hcol : Collisionless (transactions (chain ++ [blk]) ++ mempool))
    (hpeer : peer.chain = chain) :
    ((peer.pollExtend blk).1 = true ∧ (peer.pollExtend blk).2.files.chainFile = file) ↔
      SpendsOnlyChain chain mempool := by
  obtain ⟨hdec, hne, hblk, rfl⟩ := hmines.spec
  have hcol' : Collisionless (transactions chain ++ mempool) := by
    refine hcol.subset (List.append_subset.mpr ⟨fun tx htx ↦ ?_, List.subset_append_right _ _⟩)
    simp [transactions_append, htx]
  rw [← fastFits_iff_spendsOnlyChain hacc hdec hblk hcol', Node.pollExtend, hpeer]
  rcases tryExtendChain_cases hne blk with ⟨hfit, heq⟩ | ⟨hfit, heq⟩ <;>
    simp [heq, hfit, Node.saveChain]

end

/-! ## The same pair of payments -/

/-- A node that holds `openGenesis`. -/
def openNode : Node := Node.start [openGenesis] none

/-- The miner takes both payments, the peer with the same chain refuses the block. -/
theorem peer_refuses_minedBlock :
    @validateFullChain keylessCrypto [openGenesis] = true ∧
      @Mines keylessCrypto zeroAddress [openGenesis] [payingSpendTx, followingTx] minedBlock
        (some (serializeChain ([openGenesis] ++ [minedBlock]))) ∧
      Collisionless
        (transactions ([openGenesis] ++ [minedBlock]) ++ [payingSpendTx, followingTx]) ∧
      openNode.chain = [openGenesis] ∧
      (@Node.pollExtend keylessCrypto openNode minedBlock).1 = false := by
  refine ⟨validateFullChain_openGenesis, mines_minedBlock, collisionless_minedBlock, rfl, ?_⟩
  decide +kernel

/-- The equivalence for the same block. -/
theorem peer_takes_mined_iff_minedBlock :
    ((@Node.pollExtend keylessCrypto openNode minedBlock).1 = true ∧
        (@Node.pollExtend keylessCrypto openNode minedBlock).2.files.chainFile =
          some (serializeChain ([openGenesis] ++ [minedBlock]))) ↔
      @SpendsOnlyChain keylessCrypto [openGenesis] [payingSpendTx, followingTx] :=
  @peer_takes_mined_iff keylessCrypto _ _ _ _ _ _ validateFullChain_openGenesis mines_minedBlock
    collisionless_minedBlock rfl

end Siliqua.Ledger
