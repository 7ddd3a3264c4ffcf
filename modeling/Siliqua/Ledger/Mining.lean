import Siliqua.Core.Codec
import Siliqua.Ledger.Building
import Siliqua.Ledger.FastPath
import Siliqua.Network.Daemon

/-!
# Miner against validator

The miner filters the mempool against `build_utxo_set`, the validator replays the mined block
on its own set, which also holds the new coinbase. The miner's set stays part of the
validator's all along the selection loop.
-/

namespace Siliqua.Ledger

open Siliqua.Core Siliqua.Consensus Siliqua.Network Siliqua.Storage KeyedStore Journal

section

variable [Crypto]

/-! ## The selection loop -/

/-- The miner's side of the loop against the validator's replay from the set `n`. -/
structure Selects (all : List Transaction) (n : UtxoSet) (s : Selection) : Prop where
  sourced : Sourced all s.utxoSet
  sub : Sub s.utxoSet (replay n (journal s.extraTxs))
  admits : AdmitsAll n s.extraTxs
  fees : s.totalFees = feesOf n s.extraTxs
  ordinary : ∀ tx ∈ s.extraTxs, tx.isCoinbase = false
  listed : s.extraTxs ⊆ all

/-- Whatever has a fee in a set of real outputs does not look like a coinbase. -/
theorem not_isCoinbase_of_fee {all : List Transaction} (hid : Identified all) {m : UtxoSet}
    (hm : Sourced all m) {tx : Transaction} (hf : 0 ≤ validateAndGetFee tx m) :
    tx.isCoinbase = false := by
  have hne := (fee_nonneg_iff.mp hf).1
  unfold Transaction.isCoinbase
  split
  · next hv => exact absurd hv hne
  · next txin rest hv =>
    have hmem : txin.prevout ∈ m := mem_of_fee_nonneg hf _ (by simp [Transaction.prevouts, hv])
    obtain ⟨out, hl⟩ := Finmap.mem_iff.mp hmem
    obtain ⟨tx', htx', hout⟩ := hm _ out hl
    exact Transaction.isNull_of_mem_outpoints (hid.sized tx' htx') hout

theorem feesOf_concat (m : UtxoSet) (txs : List Transaction) (tx : Transaction) :
    feesOf m (txs ++ [tx]) = feesOf m txs + feeOf (replay m (journal txs)) tx := by
  induction txs generalizing m with
  | nil => simp [feesOf, replay]
  | cons t rest ih =>
    rw [List.cons_append, feesOf, feesOf, ih, Int64.add_assoc]
    rfl

section Loop

variable {all : List Transaction} {n : UtxoSet} (hid : Identified all) (hn : Sourced all n)
include hid hn

/-- One turn of the selection loop. -/
theorem Selects.selectTx {s : Selection} (h : Selects all n s) {tx : Transaction}
    (htx : tx ∈ all) : Selects all n (selectTx s tx) := by
  unfold Network.selectTx
  dsimp only
  split
  · next hf =>
    have hc := not_isCoinbase_of_fee hid h.sourced hf
    have hplay : emplaceAll (eraseAll s.utxoSet tx.prevouts) tx.outpoints =
        play s.utxoSet (entry tx) := by
      rw [play, entry, spends_of_not_isCoinbase hc]
    have hreplay := hn.replay h.listed
    have hfee := fee_eq_of_sub h.sub hf
    refine ⟨?_, ?_, ?_, ?_, ?_, ?_⟩
    · rw [hplay]
      exact h.sourced.play htx
    · rw [hplay, journal_append, replay_append]
      exact h.sourced.sub_play hid hreplay h.sub htx
    · refine admitsAll_append.mpr ⟨h.admits, ⟨hid.sized tx htx, fun _ ↦ ?_⟩, trivial⟩
      rw [hfee]
      exact hf
    · rw [feesOf_concat, h.fees, feeOf, hc, hfee]
      rfl
    · intro t ht
      rcases List.mem_append.mp ht with hold | hnew
      · exact h.ordinary t hold
      · rw [List.mem_singleton.mp hnew]
        exact hc
    · exact List.append_subset.mpr ⟨h.listed, by simpa using htx⟩
  · exact h

/-- The whole selection loop. -/
theorem selects_foldl {mempool : List Transaction} (hin : mempool ⊆ all) {s : Selection}
    (h : Selects all n s) : Selects all n (mempool.foldl Network.selectTx s) := by
  induction mempool generalizing s with
  | nil => exact h
  | cons tx rest ih =>
    rw [List.cons_subset] at hin
    exact ih hin.2 (h.selectTx hid hn hin.1)

/-- From a set that holds the miner's, the validator admits whatever the miner selects, with the
same fees. -/
theorem selects_selectMempool {chain : List CBlock} {mempool : List Transaction}
    (hbase : transactions chain ⊆ all) (hin : mempool ⊆ all) (hsub : Sub (buildUtxoSet chain) n) :
    Selects all n (selectMempool chain mempool) :=
  selects_foldl hid hn hin
    ⟨(sourced_buildUtxoSet chain).subset hbase, hsub, trivial, rfl, by simp, by simp⟩

end Loop

/-! ## Mined blocks are accepted -/

section Mined

variable {chain : List CBlock} (hacc : validateFullChain chain = true)
  {mempool : List Transaction} (hdec : ∀ tx ∈ mempool, tx.Decoded)
  {address : Address} {blk : CBlock}
  (hblk : Built (extractHeaders chain) (tipHash chain) address
    (selectMempool chain mempool).totalFees (selectMempool chain mempool).extraTxs blk)
  (hcol : Collisionless (transactions (chain ++ [blk]) ++ mempool))
include hacc hdec hblk hcol

private theorem identified_mined :
    Identified (transactions chain ++ blk.vtx.take 1 ++ mempool) := by
  have hvtx : blk.vtx.take 1 = [buildCoinbaseTx address (UInt32.ofNat (extractHeaders chain).length)
      (selectMempool chain mempool).totalFees] := by simp [hblk.vtx]
  refine ⟨fun tx htx ↦ ?_, hcol.subset ?_⟩
  · rcases List.mem_append.mp htx with hold | hmem
    · rcases List.mem_append.mp hold with hch | hcb
      · exact outputs_of_accepted hacc hch
      · rw [hvtx, List.mem_singleton] at hcb
        rw [hcb, length_vout_buildCoinbaseTx]
        decide
    · exact (hdec tx hmem).spec.2
  · rw [transactions_append, transactions_singleton]
    refine List.append_subset.mpr ⟨List.append_subset.mpr ⟨fun tx htx ↦ ?_, fun tx htx ↦ ?_⟩, ?_⟩
    · simp [htx]
    · simp [List.mem_of_mem_take htx]
    · exact List.subset_append_right _ _

/-- A block built on an accepted chain from a filtered mempool passes full validation. -/
theorem blockFits_of_built : BlockFits chain blk := by
  have hid := identified_mined hacc hdec hblk hcol
  have hlen : (extractHeaders chain).length = chain.length := List.length_map _
  have hiscb := isCoinbase_buildCoinbaseTx address (UInt32.ofNat (extractHeaders chain).length)
    (selectMempool chain mempool).totalFees
  have htot := outputTotal_buildCoinbaseTx address (UInt32.ofNat (extractHeaders chain).length)
    (selectMempool chain mempool).totalFees
  have hvtx := hblk.vtx
  generalize buildCoinbaseTx address _ _ = coinbase at hiscb htot hvtx
  have hcb : coinbase ∈ transactions chain ++ blk.vtx.take 1 ++ mempool := by simp [hvtx]
  have hbase : transactions chain ⊆ transactions chain ++ blk.vtx.take 1 ++ mempool := by
    intro tx htx
    simp [htx]
  have hn := ((sourced_utxosAfter (transactions chain)).subset hbase).play hcb
  have hnone : (entry coinbase).spends = [] := by simp [entry, spends, hiscb]
  have hsub := (buildUtxoSet_sub chain).trans (sub_play hnone)
  have hsel := selects_selectMempool hid hn hbase (List.subset_append_right _ _) hsub
  refine ⟨hblk.headerFits, ?_, _, _, hvtx, hiscb, ?_⟩
  · rw [hvtx]
    exact ⟨⟨hid.sized _ hcb, by simp [hiscb]⟩, hsel.admits⟩
  · rw [htot, hvtx, feesOf, ← hsel.fees, feeOf, hiscb, if_pos rfl, Int64.zero_add, hlen]

theorem validateFullChain_of_built : validateFullChain (chain ++ [blk]) = true :=
  (validateFullChain_concat_iff hacc).mpr (blockFits_of_built hacc hdec hblk hcol)

end Mined

/-- A fresh genesis chain passes full validation. -/
theorem validateFullChain_buildGenesisChain {fuel : Nat} {clock : UInt32} {address : Address}
    {chain : List CBlock} (h : buildGenesisChain fuel clock address = some chain) :
    validateFullChain chain = true := by
  obtain ⟨blk, hblk, rfl⟩ := Option.map_eq_some_iff.mp h
  have hbuilt : Built (extractHeaders []) (tipHash []) address 0 [] blk := buildNextBlock_spec hblk
  have hiscb := isCoinbase_buildCoinbaseTx address 0 0
  rw [validateFullChain_singleton_iff]
  refine ⟨hbuilt.headerFits, ?_, _, _, hbuilt.vtx, hiscb, ?_⟩
  · rw [hbuilt.vtx]
    exact ⟨⟨by rw [length_vout_buildCoinbaseTx]; decide, by simp [isCoinbase_buildCoinbaseTx]⟩,
      trivial⟩
  · rw [outputTotal_buildCoinbaseTx, hbuilt.vtx, feesOf, feeOf, isCoinbase_buildCoinbaseTx,
      if_pos rfl]
    rfl

/-- The loaded mempool holds decoded transactions only. -/
theorem decoded_of_loadMempoolOrEmpty (file : Option Bytes) :
    ∀ tx ∈ loadMempoolOrEmpty file, tx.Decoded := by
  unfold loadMempoolOrEmpty
  cases file with
  | none => simp
  | some buffer =>
    cases hl : loadMempool buffer with
    | error e => simp [hl]
    | ok mempool => simpa only [hl] using decoded_of_loadMempool hl

/-- One iteration of the mining loop appends the block mined on the node's chain. -/
theorem miningLoop_spec {node node' : Node} {fuel : Nat} {clock : UInt32} {address : Address}
    (h : node.miningLoop fuel clock address = some node') :
    ∃ blk, mineOnto fuel clock node.chain address (loadMempoolOrEmpty node.files.mempoolFile) =
        some blk ∧ node'.chain = node.chain ++ [blk] ∧
      node'.files.chainFile = some (serializeChain (node.chain ++ [blk])) := by
  unfold Node.miningLoop at h
  rw [Option.bind_eq_bind, Option.bind_eq_some_iff] at h
  obtain ⟨blk, hblk, h⟩ := h
  cases h
  exact ⟨blk, hblk, rfl, rfl⟩

/-- `run_listener` mines one block on the chain it loads and saves the longer chain. -/
theorem runListener_spec {fuel : Nat} {genesisClock clock : UInt32} {files files' : Files}
    {address : Address} {blk : CBlock} {chain : List CBlock}
    (hload : loadOrCreateChain fuel genesisClock files.chainFile address = some chain)
    (h : runListener fuel genesisClock clock files address = some (blk, files')) :
    mineOnto fuel clock chain address (loadMempoolOrEmpty files.mempoolFile) = some blk ∧
      files'.chainFile = some (serializeChain (chain ++ [blk])) := by
  unfold runListener at h
  rw [hload, Option.bind_eq_bind, Option.bind_some, Option.bind_eq_bind,
    Option.bind_eq_some_iff] at h
  obtain ⟨blk', hblk, h⟩ := h
  cases h
  exact ⟨hblk, rfl⟩

/-- A block has been mined on a chain with some transactions pending, and the longer chain saved:
by the shared body of both miners, by one iteration of the mining loop, or by `run_listener`. -/
inductive Mines (address : Address) :
    List CBlock → List Transaction → CBlock → Option Bytes → Prop
  | body {chain : List CBlock} {mempool : List Transaction} {blk : CBlock} {fuel : Nat}
      {clock : UInt32} (decoded : ∀ tx ∈ mempool, tx.Decoded)
      (mined : mineOnto fuel clock chain address mempool = some blk) :
      Mines address chain mempool blk (some (serializeChain (chain ++ [blk])))
  | miningLoop {node node' : Node} {blk : CBlock} {fuel : Nat} {clock : UInt32}
      (mined : node.miningLoop fuel clock address = some node')
      (extended : node'.chain = node.chain ++ [blk]) :
      Mines address node.chain (loadMempoolOrEmpty node.files.mempoolFile) blk
        node'.files.chainFile
  | runListener {files files' : Files} {chain : List CBlock} {blk : CBlock} {fuel : Nat}
      {genesisClock clock : UInt32}
      (loaded : loadOrCreateChain fuel genesisClock files.chainFile address = some chain)
      (mined : runListener fuel genesisClock clock files address = some (blk, files')) :
      Mines address chain (loadMempoolOrEmpty files.mempoolFile) blk files'.chainFile

/-- All three ways run the shared body on decoded transactions and save the longer chain. -/
theorem Mines.spec {address : Address} {chain : List CBlock} {mempool : List Transaction}
    {blk : CBlock} {file : Option Bytes} (h : Mines address chain mempool blk file) :
    (∀ tx ∈ mempool, tx.Decoded) ∧ chain ≠ [] ∧
      Built (extractHeaders chain) (tipHash chain) address
        (selectMempool chain mempool).totalFees (selectMempool chain mempool).extraTxs blk ∧
      file = some (serializeChain (chain ++ [blk])) := by
  cases h with
  | body decoded mined =>
    obtain ⟨hne, hbuilt⟩ := mineOnto_spec mined
    exact ⟨decoded, hne, hbuilt, rfl⟩
  | miningLoop mined extended =>
    obtain ⟨blk', hmined, hchain, hfile⟩ := miningLoop_spec mined
    obtain rfl : blk' = blk := by simpa using hchain.symm.trans extended
    obtain ⟨hne, hbuilt⟩ := mineOnto_spec hmined
    exact ⟨decoded_of_loadMempoolOrEmpty _, hne, hbuilt, hfile⟩
  | runListener loaded mined =>
    obtain ⟨hmined, hfile⟩ := runListener_spec loaded mined
    obtain ⟨hne, hbuilt⟩ := mineOnto_spec hmined
    exact ⟨decoded_of_loadMempoolOrEmpty _, hne, hbuilt, hfile⟩

/-- Fresh genesis chains pass full validation, and so does every accepted chain with one more
block mined on it, whatever was pending. -/
theorem mined_chain_accepted {address : Address} :
    (∀ fuel clock chain, buildGenesisChain fuel clock address = some chain →
      validateFullChain chain = true) ∧
    ∀ chain mempool blk file, validateFullChain chain = true →
      Mines address chain mempool blk file →
      Collisionless (transactions (chain ++ [blk]) ++ mempool) →
      validateFullChain (chain ++ [blk]) = true := by
  refine ⟨fun fuel clock chain h ↦ validateFullChain_buildGenesisChain h, ?_⟩
  intro chain mempool blk file hacc hmines hcol
  obtain ⟨hdec, -, hbuilt, -⟩ := hmines.spec
  exact validateFullChain_of_built hacc hdec hbuilt hcol

end

/-! ## A payment and one that builds on it -/

/-- Spends the output of `payingSpendTx` for another fee of 1000. -/
def followingTx : Transaction where
  nVersion := 1
  vin := [⟨⟨payingSpendTx.txHash, 0⟩, [], 0xFFFFFFFF⟩]
  vout := [⟨4999998000, openScript⟩]
  nLockTime := 0
  txHash := .ofBigEndian 0x4765fd45fd8962ac6fb52db7f52c1324261d51bf1d1f6ef75cc5f2d45486f481

/-- The all-zero address. -/
def zeroAddress : Address := List.Vector.replicate 20 0

/-- The coinbase for both fees at height one. -/
def minedCoinbaseTx : Transaction where
  nVersion := 1
  vin := [⟨COutPoint.null, [1, 0, 0, 0], 0xFFFFFFFF⟩]
  vout := [⟨5000002000, Wallet.buildP2pkhScriptPubkey zeroAddress⟩]
  nLockTime := 0
  txHash := .ofBigEndian 0xf55b9b5f8b38073c603253cbbfab9d75a6530a8abd44e95767f6ae20eae45607

/-- The block mined on `openGenesis` with both payments pending. -/
def minedBlock : CBlock where
  nVersion := 1
  hashPrevBlock :=
    .ofBigEndian 0x2477962e6252d54915bb84656a75a7fc211629eb6a2bf05c30fd489f2f694de0
  hashMerkleRoot :=
    .ofBigEndian 0xe47026c88c7c70c73b3f1be020c02ed0b792903a95644132fe3f0e5551fcf5c0
  nTime := 1700000020
  nBits := INITIAL_BITS
  nNonce := 0
  vtx := [minedCoinbaseTx, payingSpendTx, followingTx]

theorem encodable_payingSpendTx : @Transaction.Encodable keylessCrypto payingSpendTx :=
  @Transaction.encodable_of_length keylessCrypto _ txHash_payingSpendTx (by decide +kernel)

theorem encodable_followingTx : @Transaction.Encodable keylessCrypto followingTx :=
  @Transaction.encodable_of_length keylessCrypto _ (by decide +kernel) (by decide +kernel)

theorem mineOnto_minedBlock : @mineOnto keylessCrypto 1 1700000020 [openGenesis] zeroAddress
    [payingSpendTx, followingTx] = some minedBlock := by
  decide +kernel

/-- Mining `minedBlock` is a run of the miners' body. -/
theorem mines_minedBlock : @Mines keylessCrypto zeroAddress [openGenesis]
    [payingSpendTx, followingTx] minedBlock
    (some (serializeChain ([openGenesis] ++ [minedBlock]))) := by
  have hpaying := @Transaction.Encodable.decoded keylessCrypto _ encodable_payingSpendTx
  have hfollowing := @Transaction.Encodable.decoded keylessCrypto _ encodable_followingTx
  exact @Mines.body keylessCrypto _ _ _ _ _ _ (by simp [hpaying, hfollowing]) mineOnto_minedBlock

theorem collisionless_minedBlock : Collisionless
    (transactions ([openGenesis] ++ [minedBlock]) ++ [payingSpendTx, followingTx]) := by
  decide +kernel

/-- The chain with both payments is accepted. -/
theorem validateFullChain_minedBlock :
    @validateFullChain keylessCrypto [openGenesis, minedBlock] = true := by
  obtain ⟨hdecoded, -, hbuilt, -⟩ := @Mines.spec keylessCrypto _ _ _ _ _ mines_minedBlock
  exact @validateFullChain_of_built keylessCrypto _ validateFullChain_openGenesis _ hdecoded _ _
    hbuilt collisionless_minedBlock

/-- Full validation accepts `minedBlock`. -/
theorem mined_chain_accepted_minedBlock :
    @validateFullChain keylessCrypto ([openGenesis] ++ [minedBlock]) = true :=
  (@mined_chain_accepted keylessCrypto zeroAddress).2 _ _ _ _ validateFullChain_openGenesis
    mines_minedBlock collisionless_minedBlock

end Siliqua.Ledger
