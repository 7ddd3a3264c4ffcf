import Siliqua.Crypto.Picosha2
import Siliqua.Ledger.Replay

/-!
# The two UTXO sets

`build_utxo_set` against the set `validate_full_chain` keeps while it goes. The validator never
erases what a coinbase-looking transaction names, `build_utxo_set` erases every named
outpoint, whatever the order.
-/

namespace Siliqua.Ledger

open Siliqua.Core Siliqua.Network KeyedStore Journal

/-- Each creation of the outpoint is followed by a transaction with checked inputs that
spends it. -/
def SpentForGood (txs : List Transaction) (p : COutPoint) : Prop :=
  ∀ pre tx post, txs = pre ++ tx :: post → p ∈ tx.outpoints.map Prod.fst →
    ∃ tx' ∈ post, tx'.isCoinbase = false ∧ p ∈ tx'.prevouts

private theorem mem_spends_iff {tx : Transaction} {p : COutPoint} :
    p ∈ spends tx ↔ tx.isCoinbase = false ∧ p ∈ tx.prevouts := by
  cases h : tx.isCoinbase <;> simp [spends, h]

/-- Spent for good is what the journal calls gone. -/
theorem gone_journal_iff {txs : List Transaction} {p : COutPoint} :
    Gone (journal txs) p ↔ SpentForGood txs p := by
  constructor
  · intro h pre tx post heq hp
    obtain ⟨e, he, hs⟩ := h (journal pre) (entry tx) (journal post) (by simp [heq]) hp
    obtain ⟨tx', htx', rfl⟩ := List.mem_map.mp he
    exact ⟨tx', htx', mem_spends_iff.mp hs⟩
  · intro h pre e post heq hp
    obtain ⟨tpre, trest, rfl, rfl, hrest⟩ := List.map_eq_append_iff.mp heq
    obtain ⟨tx, tpost, rfl, rfl, rfl⟩ := List.map_eq_cons_iff.mp hrest
    obtain ⟨tx', htx', hs⟩ := h tpre tx tpost rfl hp
    exact ⟨entry tx', List.mem_map_of_mem htx', mem_spends_iff.mpr hs⟩

section

variable [Crypto]

/-- On an accepted chain the two sets are the same map exactly when every outpoint that some
input names has been spent for good. -/
theorem buildUtxoSet_eq_iff {chain : List CBlock} {st : ChainState}
    (h : replayChain chain = some st) :
    buildUtxoSet chain = st.utxoSet ↔
      ∀ tx ∈ transactions chain, ∀ p ∈ tx.prevouts, SpentForGood (transactions chain) p := by
  obtain ⟨-, rfl⟩ := replayChain_eq_some_iff.mp h
  rw [buildUtxoSet_eq_settle, stateAfter, utxosAfter, settle_eq_replay_iff (journal_named _)]
  constructor
  · intro hall tx htx p hp
    exact gone_journal_iff.mp
      (hall p (List.mem_flatMap.mpr ⟨entry tx, List.mem_map_of_mem htx, hp⟩))
  · intro hall p hp
    obtain ⟨e, he, hpe⟩ := List.mem_flatMap.mp hp
    obtain ⟨tx, htx, rfl⟩ := List.mem_map.mp he
    exact gone_journal_iff.mpr (hall tx htx p hpe)

end

/-! ## A coinbase-looking transaction that names an output -/

/-- Pays the first reward to the all-zero address. -/
def rewardTx : Transaction where
  nVersion := 1
  vin := [⟨COutPoint.null, [0, 0, 0, 0], 0xFFFFFFFF⟩]
  vout := [⟨5000000000, Wallet.buildP2pkhScriptPubkey (List.Vector.replicate 20 0)⟩]
  nLockTime := 0
  txHash := .ofBigEndian 0x7395f32b502a67f0709865e70ac2bf48fc27eade722662ce452125e7ce71fa47

/-- A null first input, then the output of `rewardTx` with an empty `scriptSig`; pays forty times
the first reward. -/
def disguisedTx : Transaction where
  nVersion := 1
  vin := [⟨COutPoint.null, [], 0xFFFFFFFF⟩, ⟨⟨rewardTx.txHash, 0⟩, [], 0xFFFFFFFF⟩]
  vout := [⟨200000000000, Wallet.buildP2pkhScriptPubkey (List.Vector.replicate 20 0)⟩]
  nLockTime := 0
  txHash := .ofBigEndian 0xf7f4c4697e49fc2d07dc55a97fb9c847157df83fc169c49d797977145206e0ec

/-- A genesis block whose second transaction is `disguisedTx`. -/
def disguisedBlock : CBlock where
  nVersion := 1
  hashPrevBlock := Hash256.zero
  hashMerkleRoot :=
    .ofBigEndian 0xe983f1b84ba19c48bac7fce6a96ef8eec9ba0f1eccaa83575e358746a6d4ef00
  nTime := 1700000000
  nBits := INITIAL_BITS
  nNonce := 0
  vtx := [rewardTx, disguisedTx]

theorem validateFullChain_disguisedBlock :
    @validateFullChain keylessCrypto [disguisedBlock] = true := by
  decide +kernel

theorem txHash_disguisedBlock : ∀ tx ∈ transactions [disguisedBlock],
    tx.txHash = @Transaction.getHash keylessCrypto tx := by
  decide +kernel

private theorem utxosAfter_disguisedBlock :
    (utxosAfter (transactions [disguisedBlock])).lookup ⟨rewardTx.txHash, 0⟩ ≠ none := by
  decide +kernel

private theorem buildUtxoSet_disguisedBlock :
    (buildUtxoSet [disguisedBlock]).lookup ⟨rewardTx.txHash, 0⟩ = none := by
  decide +kernel

/-- `disguisedTx` names the reward without spending it: the validator still holds the reward,
`build_utxo_set` does not. -/
theorem buildUtxoSet_ne_validator_disguisedBlock :
    @validateFullChain keylessCrypto [disguisedBlock] = true ∧
      (∀ tx ∈ transactions [disguisedBlock], tx.txHash = @Transaction.getHash keylessCrypto tx) ∧
      ∃ st, @replayChain keylessCrypto [disguisedBlock] = some st ∧
        buildUtxoSet [disguisedBlock] ≠ st.utxoSet := by
  refine ⟨validateFullChain_disguisedBlock, txHash_disguisedBlock, _,
    @replayChain_of_accepted keylessCrypto _ validateFullChain_disguisedBlock, fun heq ↦ ?_⟩
  apply utxosAfter_disguisedBlock
  rw [← buildUtxoSet_disguisedBlock, heq]
  rfl

/-- The equivalence at the same block: `rewardTx`'s output is not spent for good. -/
theorem buildUtxoSet_eq_iff_disguisedBlock :
    buildUtxoSet [disguisedBlock] = utxosAfter (transactions [disguisedBlock]) ↔
      ∀ tx ∈ transactions [disguisedBlock], ∀ p ∈ tx.prevouts,
        SpentForGood (transactions [disguisedBlock]) p :=
  @buildUtxoSet_eq_iff keylessCrypto _ _
    (@replayChain_of_accepted keylessCrypto _ validateFullChain_disguisedBlock)

end Siliqua.Ledger
