import Siliqua.Base.FirstCome
import Siliqua.Ledger.Conservation
import Siliqua.Network.Mempool

/-!
# First come, first served

Every accepted payment spends outputs of the chain, and none creates one of them: the miner's
loop passes an entry over only where an earlier one has taken an output it spends. The fees stay
the ones at acceptance. Their sum and the reward are added up in `int64_t`.
-/

namespace Siliqua.Network

open Siliqua.Core Siliqua.Storage Siliqua.Ledger KeyedStore FirstCome

/-- An input of the second transaction names an outpoint the first one names. -/
def Conflict (tx tx' : Transaction) : Prop := ∃ p ∈ tx'.prevouts, p ∈ tx.prevouts

instance : DecidableRel Conflict := fun tx tx' ↦
  inferInstanceAs (Decidable (∃ p ∈ tx'.prevouts, p ∈ tx.prevouts))

section

variable [Crypto]

/-- Exact sum of the fees some transactions have on a chain. -/
def feesOn (chain : List CBlock) (txs : List Transaction) : ℤ :=
  (txs.map fun tx ↦ (validateAndGetFee tx (buildUtxoSet chain)).toInt).sum

/-- Reward of the next block. -/
def rewardOn (chain : List CBlock) : ℤ :=
  (calculateBlockReward (UInt32.ofNat chain.length)).toInt

/-- The block takes the pending transactions first come, first served, each with the fee it has
on the chain. -/
structure Serves (chain : List CBlock) (mempool : List Transaction) (blk : CBlock) : Prop where
  included : blk.vtx.tail = served Conflict mempool
  fees : ∀ pre tx post, mempool = pre ++ tx :: post →
    (∀ t ∈ served Conflict pre, ¬ Conflict t tx) →
    validateAndGetFee tx (selectMempool chain pre).utxoSet =
      validateAndGetFee tx (buildUtxoSet chain)

/-- The block's first transaction pays the reward and the fees of the rest. -/
def PaysExactly (chain : List CBlock) (blk : CBlock) : Prop :=
  ∃ coinbase, blk.vtx.head? = some coinbase ∧
    outputWorth coinbase.vout = rewardOn chain + feesOn chain blk.vtx.tail

/-! ## The stored mempool -/

/-- Any number of calls leave the chain alone and store the valid transactions in order. -/
theorem foldl_acceptTransaction {node : Node}
    (hempty : loadMempoolOrEmpty node.files.mempoolFile = []) {txs : List Transaction}
    (htxs : ∀ tx ∈ txs, tx.Encodable) :
    (txs.foldl Node.acceptTransaction node).chain = node.chain ∧
      loadMempoolOrEmpty (txs.foldl Node.acceptTransaction node).files.mempoolFile =
        storedFor node.chain txs := by
  induction txs using List.reverseRecOn with
  | nil => exact ⟨rfl, hempty⟩
  | append_singleton txs tx ih =>
    obtain ⟨hchain, hstored⟩ := ih fun t ht ↦ htxs t (List.mem_append_left _ ht)
    rw [List.foldl_append, List.foldl_cons, List.foldl_nil]
    exact ⟨by rw [Node.chain_acceptTransaction, hchain],
      stored_acceptTransaction hchain hstored (htxs tx (by simp))⟩

theorem validOn_of_mem_storedFor {chain : List CBlock} {txs : List Transaction}
    {tx : Transaction} (h : tx ∈ storedFor chain txs) : validOn chain tx = true :=
  (List.mem_filter.mp (List.mem_of_mem_take h)).2

/-! ## The selection loop -/

/-- A transaction with a fee on the chain creates no output the chain's set holds, unless another
transaction of the chain shares its hash. -/
theorem notMem_outpoints_of_fee {chain : List CBlock} {tx : Transaction}
    (hcol : Collisionless (transactions chain ++ [tx]))
    (hfee : 0 ≤ validateAndGetFee tx (buildUtxoSet chain)) {p : COutPoint}
    (hp : p ∈ buildUtxoSet chain) : p ∉ tx.outpoints.map Prod.fst := by
  intro hout
  obtain ⟨⟨tx', htx', hout'⟩, -⟩ := mem_buildUtxoSet.mp hp
  obtain rfl := hcol.eq_of_outpoint (by simp [htx']) (by simp) hout' hout
  -- A transaction of the chain finds none of its own inputs in the chain's set.
  obtain ⟨q, hq⟩ := exists_prevout_of_fee_nonneg hfee
  exact (mem_buildUtxoSet.mp (mem_of_fee_nonneg hfee q hq)).2 tx' htx' hq

/-- The miner's loop after some entries: it holds what the chain's set holds, without what the
served ones have taken. -/
structure Serving (chain : List CBlock) (txs : List Transaction) (s : Selection) : Prop where
  extraTxs_eq : s.extraTxs = served Conflict txs
  lookup_eq : ∀ p ∈ buildUtxoSet chain, s.utxoSet.lookup p =
    if ∃ t ∈ served Conflict txs, p ∈ t.prevouts then none else (buildUtxoSet chain).lookup p
  totalFees_eq : s.totalFees = Int64.ofInt (feesOn chain (served Conflict txs))

section Loop

variable {chain : List CBlock} {txs : List Transaction} {s : Selection} (h : Serving chain txs s)
  {tx : Transaction} (hfee : 0 ≤ validateAndGetFee tx (buildUtxoSet chain))
include h hfee

/-- An entry no served one is in conflict with has the fee it has on the chain. -/
theorem Serving.fee_eq (hfree : ∀ t ∈ served Conflict txs, ¬ Conflict t tx) :
    validateAndGetFee tx s.utxoSet = validateAndGetFee tx (buildUtxoSet chain) := by
  apply fee_congr
  intro p hp
  rw [h.lookup_eq p (mem_of_fee_nonneg hfee p hp), if_neg]
  rintro ⟨t, ht, hpt⟩
  exact hfree t ht ⟨p, hp, hpt⟩

/-- An entry in conflict with a served one fails. -/
theorem Serving.fee_neg (hconflict : ¬ ∀ t ∈ served Conflict txs, ¬ Conflict t tx) :
    ¬ validateAndGetFee tx s.utxoSet ≥ 0 := by
  intro hs
  push Not at hconflict
  obtain ⟨t, ht, p, hp, hpt⟩ := hconflict
  have hmem : p ∈ s.utxoSet := mem_of_fee_nonneg hs p hp
  rw [← Finmap.lookup_isSome, h.lookup_eq p (mem_of_fee_nonneg hfee p hp), if_pos ⟨t, ht, hpt⟩]
    at hmem
  cases hmem

/-- One turn of the loop. -/
theorem Serving.selectTx (hcol : Collisionless (transactions chain ++ [tx])) :
    Serving chain (txs ++ [tx]) (selectTx s tx) := by
  unfold Network.selectTx
  by_cases hfree : ∀ t ∈ served Conflict txs, ¬ Conflict t tx
  · have hsame := h.fee_eq hfee hfree
    simp only [hsame, ge_iff_le, hfee, if_true]
    refine ⟨?_, fun p hp ↦ ?_, ?_⟩
    · rw [served_concat, if_pos hfree, h.extraTxs_eq]
    · have hnew : tx.outpoints.lookup p = none := by
        rw [Option.eq_none_iff_forall_ne_some]
        intro out hout
        exact notMem_outpoints_of_fee hcol hfee hp
          (List.mem_map_of_mem (mem_of_lookup_eq_some hout))
      rw [lookup_emplaceAll, lookup_eraseAll, hnew, Option.or_none, h.lookup_eq p hp,
        served_concat, if_pos hfree]
      by_cases hin : p ∈ tx.prevouts
      · simp [hin]
      · simp [hin]
    · rw [served_concat, if_pos hfree, h.totalFees_eq, feesOn, feesOn, List.map_append,
        List.sum_append, Int64.ofInt_add, List.map_singleton, List.sum_singleton,
        Int64.ofInt_toInt]
  · simp only [h.fee_neg hfee hfree, if_false]
    have hserved : served Conflict (txs ++ [tx]) = served Conflict txs := by
      rw [served_concat, if_neg hfree]
    exact ⟨by rw [hserved, h.extraTxs_eq], fun p hp ↦ by rw [hserved, h.lookup_eq p hp],
      by rw [hserved, h.totalFees_eq]⟩

end Loop

/-- The whole loop, over entries that are all valid on the chain. -/
theorem serving_selectMempool {chain : List CBlock} {mempool : List Transaction}
    (hvalid : ∀ tx ∈ mempool, validOn chain tx = true)
    (hcol : Collisionless (transactions chain ++ mempool)) :
    Serving chain mempool (selectMempool chain mempool) := by
  induction mempool using List.reverseRecOn with
  | nil => exact ⟨rfl, fun p _ ↦ by simp [served, selectMempool], rfl⟩
  | append_singleton mempool tx ih =>
    have hserving := ih (fun t ht ↦ hvalid t (List.mem_append_left _ ht))
      (hcol.subset (by rw [← List.append_assoc]; exact List.subset_append_left _ _))
    rw [selectMempool_concat]
    refine hserving.selectTx (fee_nonneg_of_validOn (hvalid tx (by simp)))
      (hcol.subset fun t ht ↦ ?_)
    rcases List.mem_append.mp ht with hold | hnew
    · exact List.mem_append_left _ hold
    · exact List.mem_append_right _ (List.mem_append_right _ hnew)

/-! ## The mined block -/

/-- Fees of entries that are valid on the chain are not negative. -/
theorem feesOn_nonneg {chain : List CBlock} {txs : List Transaction}
    (hvalid : ∀ tx ∈ txs, validOn chain tx = true) : 0 ≤ feesOn chain txs := by
  refine List.sum_nonneg fun fee hfee ↦ ?_
  obtain ⟨tx, htx, rfl⟩ := List.mem_map.mp hfee
  exact Int64.le_iff_toInt_le.mp (fee_nonneg_of_validOn (hvalid tx htx))

/-- The coinbase's output is the wrapped sum of reward and fees. -/
theorem outputWorth_buildCoinbaseTx (address : Address) (height : UInt32) (fees : ℤ) :
    outputWorth (buildCoinbaseTx address height (Int64.ofInt fees)).vout =
      (Int64.ofInt ((calculateBlockReward height).toInt + fees)).toInt := by
  change (calculateBlockReward height + Int64.ofInt fees).toInt + 0 = _
  rw [Int64.ofInt_add, Int64.ofInt_toInt, add_zero]

/-- From an empty mempool and with the chain unchanged, the next mined block takes the stored
payments first come, first served, each with its fee at acceptance. The coinbase pays exactly
the reward and those fees when their sum is an `int64_t`, and only then. -/
theorem mined_first_come {node node' : Node}
    (hempty : loadMempoolOrEmpty node.files.mempoolFile = []) {txs : List Transaction}
    (htxs : ∀ tx ∈ txs, tx.Encodable)
    (hcol : Collisionless (transactions node.chain ++ storedFor node.chain txs))
    {fuel : Nat} {clock : UInt32} {address : Address}
    (hmined : (txs.foldl Node.acceptTransaction node).miningLoop fuel clock address =
      some node') :
    loadMempoolOrEmpty (txs.foldl Node.acceptTransaction node).files.mempoolFile =
        storedFor node.chain txs ∧
      ∃ blk, node'.chain = node.chain ++ [blk] ∧
        Serves node.chain (storedFor node.chain txs) blk ∧
        (PaysExactly node.chain blk ↔
          rewardOn node.chain +
            feesOn node.chain (served Conflict (storedFor node.chain txs)) < 2 ^ 63) := by
  obtain ⟨hchain, hstored⟩ := foldl_acceptTransaction hempty htxs
  obtain ⟨blk, hblk, hchain', -⟩ := miningLoop_spec hmined
  rw [hchain, hstored] at hblk
  have hvtx := (mineOnto_spec hblk).2.vtx
  have hvalid : ∀ tx ∈ storedFor node.chain txs, validOn node.chain tx = true :=
    fun _ ↦ validOn_of_mem_storedFor
  have hserving := serving_selectMempool hvalid hcol
  rw [hserving.extraTxs_eq, hserving.totalFees_eq, extractHeaders, List.length_map] at hvtx
  have htail : blk.vtx.tail = served Conflict (storedFor node.chain txs) := by rw [hvtx]; rfl
  refine ⟨hstored, blk, by rw [hchain', hchain], ⟨htail, ?_⟩, ?_⟩
  · intro pre tx post heq hfree
    rw [heq] at hvalid hcol
    have hpre : Serving node.chain pre (selectMempool node.chain pre) :=
      serving_selectMempool (fun t ht ↦ hvalid t (List.mem_append_left _ ht))
        (hcol.subset (List.append_subset.mpr ⟨List.subset_append_left _ _, fun t ht ↦
          List.mem_append_right _ (List.mem_append_left _ ht)⟩))
    exact hpre.fee_eq (fee_nonneg_of_validOn (hvalid tx (by simp))) hfree
  · have hreward : 0 ≤ rewardOn node.chain := calculateBlockReward_nonneg _
    have hfees : 0 ≤ feesOn node.chain (served Conflict (storedFor node.chain txs)) :=
      feesOn_nonneg fun tx htx ↦ hvalid tx ((served_sublist Conflict _).subset htx)
    rw [PaysExactly, htail, hvtx, List.head?_cons]
    simp only [Option.some.injEq, exists_eq_left', outputWorth_buildCoinbaseTx]
    generalize feesOn node.chain _ = fees at hfees ⊢
    rw [← rewardOn]
    generalize rewardOn node.chain = reward at hreward ⊢
    constructor
    · intro heq
      rw [← heq]
      exact Int64.toInt_lt _
    · intro hlt
      exact Int64.toInt_ofInt_of_le (by omega) hlt

end

/-! ## A fee that leaves no room for the reward -/

/-- Spends the output of `openRewardTx` and pays out a negative amount; the fee is the largest
`int64_t`. -/
def maximalFeeTx : Transaction where
  nVersion := 1
  vin := [⟨⟨openRewardTx.txHash, 0⟩, [], 0xFFFFFFFF⟩]
  vout := [⟨-9223372031854775807, openScript⟩]
  nLockTime := 0
  txHash := .ofBigEndian 0xdfb3be7d2cba5b65f75ca987ffea235cbaa8ea60f99df321abe018ea659fcdcc

/-- The coinbase for that fee: the reward takes the sum over the edge. -/
def wrappedCoinbaseTx : Transaction where
  nVersion := 1
  vin := [⟨COutPoint.null, [1, 0, 0, 0], 0xFFFFFFFF⟩]
  vout := [⟨-9223372031854775809, Wallet.buildP2pkhScriptPubkey zeroAddress⟩]
  nLockTime := 0
  txHash := .ofBigEndian 0xcc8a4923fc56153d551a95f4f2892433abadca41105f9ee9504e63aba2717b1c

/-- The block mined on `openGenesis` with `maximalFeeTx` pending. -/
def wrappedBlock : CBlock where
  nVersion := 1
  hashPrevBlock :=
    .ofBigEndian 0x2477962e6252d54915bb84656a75a7fc211629eb6a2bf05c30fd489f2f694de0
  hashMerkleRoot :=
    .ofBigEndian 0x31681117fb1b1e9aea6203d6d4c6258fdd480a079e4b7cdaf838833ee2eb67d6
  nTime := 1700000021
  nBits := INITIAL_BITS
  nNonce := 0
  vtx := [wrappedCoinbaseTx, maximalFeeTx]

/-- The node accepts the payment and mines it, and the coinbase pays a negative amount. -/
theorem mined_underpays_maximalFeeTx :
    @validateFullChain keylessCrypto openNode.chain = true ∧
      @loadMempoolOrEmpty keylessCrypto openNode.files.mempoolFile = [] ∧
      @Transaction.Encodable keylessCrypto maximalFeeTx ∧
      Collisionless (transactions openNode.chain ++
        @storedFor keylessCrypto openNode.chain [maximalFeeTx]) ∧
      ∃ node', @Node.miningLoop keylessCrypto
          (@Node.acceptTransaction keylessCrypto openNode maximalFeeTx) 1 1700000021 zeroAddress =
            some node' ∧
        node'.chain = openNode.chain ++ [wrappedBlock] ∧
        ¬ @PaysExactly keylessCrypto openNode.chain wrappedBlock := by
  have hmine : (@Node.miningLoop keylessCrypto
      (@Node.acceptTransaction keylessCrypto openNode maximalFeeTx) 1 1700000021
        zeroAddress).map Node.chain = some [openGenesis, wrappedBlock] := by
    decide +kernel
  obtain ⟨node', hnode, hchain⟩ := Option.map_eq_some_iff.mp hmine
  have hstored : @storedFor keylessCrypto openNode.chain [maximalFeeTx] = [maximalFeeTx] := by
    decide +kernel
  have hsum : @rewardOn [openGenesis] + @feesOn keylessCrypto [openGenesis] [maximalFeeTx] =
      9223372041854775807 := by
    decide +kernel
  refine ⟨validateFullChain_openGenesis, rfl, ?_, ?_, node', hnode, hchain, ?_⟩
  · exact @Transaction.encodable_of_length keylessCrypto _ (by decide +kernel) (by decide +kernel)
  · rw [hstored]
    decide +kernel
  · rintro ⟨coinbase, hhead, hpays⟩
    obtain rfl := Option.some.inj hhead
    exact absurd (hpays.trans hsum) (by decide)

/-- A payment is mined for its fee, and the one that spends the same output after it is not. -/
theorem mined_first_come_payingSpendTx :
    ∃ node', @Node.miningLoop keylessCrypto
        ([payingSpendTx, freeSpendTx].foldl (@Node.acceptTransaction keylessCrypto) openNode)
          1 1700000021 zeroAddress = some node' ∧
      ∃ blk, node'.chain = [openGenesis] ++ [blk] ∧ blk.vtx.tail = [payingSpendTx] ∧
        @PaysExactly keylessCrypto [openGenesis] blk := by
  have hmine : (@Node.miningLoop keylessCrypto
      ([payingSpendTx, freeSpendTx].foldl (@Node.acceptTransaction keylessCrypto) openNode)
        1 1700000021 zeroAddress).isSome = true := by
    decide +kernel
  obtain ⟨node', hnode⟩ := Option.isSome_iff_exists.mp hmine
  have hstored : @storedFor keylessCrypto openNode.chain [payingSpendTx, freeSpendTx] =
      [payingSpendTx, freeSpendTx] := by
    decide +kernel
  have hfree : @Transaction.Encodable keylessCrypto freeSpendTx :=
    @Transaction.encodable_of_length keylessCrypto _ txHash_freeSpendTx (by decide +kernel)
  have hencodable : ∀ tx ∈ [payingSpendTx, freeSpendTx],
      @Transaction.Encodable keylessCrypto tx := by
    simp only [List.forall_mem_cons]
    exact ⟨encodable_payingSpendTx, hfree, by simp⟩
  have hserved := (@mined_first_come keylessCrypto openNode node' rfl _ hencodable
    (by rw [hstored]; decide +kernel) _ _ _ hnode).2
  rw [hstored] at hserved
  obtain ⟨blk, hchain, ⟨hincluded, -⟩, hpays⟩ := hserved
  have hroom : rewardOn [openGenesis] + @feesOn keylessCrypto [openGenesis]
      (served Conflict [payingSpendTx, freeSpendTx]) < 2 ^ 63 := by
    decide +kernel
  exact ⟨node', hnode, blk, hchain, hincluded, hpays.mpr hroom⟩

end Siliqua.Network
