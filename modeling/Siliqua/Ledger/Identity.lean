import Siliqua.Ledger.FastPath
import Siliqua.Ledger.Spends

/-!
# Transactions that appear twice

A transaction with checked inputs cannot enter a chain a second time, because nothing brings its
inputs back. A coinbase can, and its outputs then find their outpoints taken: the validator does
not ask for the height that `build_coinbase_tx` embeds.
-/

namespace Siliqua.Ledger

open Siliqua.Core Siliqua.Network KeyedStore Journal Splits

/-- No transaction is in the list twice, and each one's outputs are all inserted when it is
played. -/
structure NoneVanishes (txs : List Transaction) : Prop where
  identities : (txs.map Transaction.txHash).Nodup
  inserts : ∀ pre tx post, txs = pre ++ tx :: post →
    AllInserted (eraseAll (utxosAfter pre) (spends tx)) tx.outpoints

/-- Where hashes do not repeat, every output is inserted. -/
theorem noneVanishes_of_nodup {txs : List Transaction}
    (hd : (txs.map Transaction.txHash).Nodup) (hsized : ∀ tx ∈ txs, tx.vout.length < 2 ^ 32) :
    NoneVanishes txs := by
  refine ⟨hd, fun pre tx post heq ↦ ?_⟩
  apply allInserted_of_nodup (Transaction.nodup_outpoints (hsized tx (by simp [heq])))
  intro kv hkv hm
  obtain ⟨out, hout⟩ := Finmap.mem_iff.mp (mem_eraseAll.mp hm).1
  obtain ⟨tx', htx', hp⟩ := sourced_utxosAfter pre _ out hout
  have hhash : tx'.txHash = tx.txHash :=
    @Transaction.txHash_eq_of_outpoint _ _ kv.1 (List.mem_map.mpr ⟨_, hp, rfl⟩)
      (List.mem_map_of_mem hkv)
  rw [heq, List.map_append] at hd
  exact (List.nodup_append.mp hd).2.2 _ (List.mem_map_of_mem htx') _
    (List.mem_map_of_mem List.mem_cons_self) hhash

section

variable [Crypto]

/-- A transaction with checked inputs is not admitted again while the hashes before it do not
repeat. -/
theorem notMem_of_admits {txs : List Transaction} (hd : (txs.map Transaction.txHash).Nodup)
    (hadm : AdmitsAll ∅ txs) {tx : Transaction} (hc : tx.isCoinbase = false)
    (h : Admits (utxosAfter txs) tx) : tx ∉ txs := by
  intro htx
  obtain ⟨pre, mid, heq⟩ := List.append_of_mem htx
  obtain ⟨txin, rest, hv, -⟩ := Transaction.exists_head_of_not_isCoinbase hc
  have hp : txin.prevout ∈ tx.prevouts := by simp [Transaction.prevouts, hv]
  have hfirst := admitsAll_iff.mp hadm pre tx mid heq
  have hgone := @notMem_utxosAfter_of_spent txs hd pre mid [] tx (by simpa using heq) _
    (mem_of_fee_nonneg (hfirst.fee hc) _ hp) (by rwa [spends_of_not_isCoinbase hc])
  rw [← heq] at hgone
  exact hgone (mem_of_fee_nonneg (h.fee hc) _ hp)

/-- Transactions admitted one after the other repeat no hash if those that look like coinbases do
not repeat. -/
theorem nodup_of_coinbases {txs : List Transaction} (hadm : AdmitsAll ∅ txs)
    (hcol : Collisionless txs) (hcb : (txs.filter Transaction.isCoinbase).Nodup) :
    (txs.map Transaction.txHash).Nodup := by
  induction txs using List.reverseRecOn with
  | nil => exact List.nodup_nil
  | append_singleton txs tx ih =>
    obtain ⟨hadm', hlast, -⟩ := admitsAll_append.mp hadm
    rw [List.filter_append] at hcb
    have hd := ih hadm' (hcol.subset (List.subset_append_left _ _))
      (List.nodup_append.mp hcb).1
    rw [List.map_append, List.map_singleton, List.nodup_append]
    refine ⟨hd, List.nodup_singleton _, fun hash hhash hash' hhash' heq ↦ ?_⟩
    obtain ⟨tx', htx', rfl⟩ := List.mem_map.mp hhash
    obtain rfl := List.mem_singleton.mp hhash'
    obtain rfl : tx' = tx := hcol tx' (by simp [htx']) tx (by simp) heq
    cases hc : tx'.isCoinbase with
    | true =>
      refine (List.nodup_append.mp hcb).2.2 tx' ?_ tx' ?_ rfl
      · exact List.mem_filter.mpr ⟨htx', hc⟩
      · simp [hc]
    | false => exact notMem_of_admits hd hadm' hc hlast htx'

/-- On an accepted chain without colliding hashes, no transaction is there twice and no output
vanishes exactly when no transaction that looks like a coinbase is there twice. -/
theorem noneVanishes_iff {chain : List CBlock} (h : validateFullChain chain = true)
    (hcol : Collisionless (transactions chain)) :
    NoneVanishes (transactions chain) ↔
      ((transactions chain).filter Transaction.isCoinbase).Nodup := by
  constructor
  · intro hnone
    exact (List.Nodup.of_map _ hnone.identities).filter _
  · intro hcb
    exact noneVanishes_of_nodup (nodup_of_coinbases (admitsAll_of_accepted h) hcol hcb)
      fun tx htx ↦ outputs_of_accepted h htx

end

/-! ## The same coinbase at two heights -/

/-- A second block whose coinbase is the one of `openGenesis`. -/
def repeatingBlock : CBlock where
  nVersion := 1
  hashPrevBlock :=
    .ofBigEndian 0x2477962e6252d54915bb84656a75a7fc211629eb6a2bf05c30fd489f2f694de0
  hashMerkleRoot := openRewardTx.txHash
  nTime := 1700000024
  nBits := INITIAL_BITS
  nNonce := 0
  vtx := [openRewardTx]

theorem validateFullChain_repeatingBlock :
    @validateFullChain keylessCrypto [openGenesis, repeatingBlock] = true := by
  decide +kernel

theorem collisionless_repeatingBlock :
    Collisionless (transactions [openGenesis, repeatingBlock]) := by
  decide +kernel

/-- The chain is accepted, and its two rewards leave one output behind. -/
theorem vanishes_repeatingBlock :
    @validateFullChain keylessCrypto [openGenesis, repeatingBlock] = true ∧
      (∀ tx ∈ transactions [openGenesis, repeatingBlock],
        tx.txHash = @Transaction.getHash keylessCrypto tx) ∧
      Collisionless (transactions [openGenesis, repeatingBlock]) ∧
      ¬ ((transactions [openGenesis, repeatingBlock]).map Transaction.txHash).Nodup ∧
      utxosAfter (transactions [openGenesis, repeatingBlock]) =
        utxosAfter (transactions [openGenesis]) := by
  refine ⟨validateFullChain_repeatingBlock, ?_, collisionless_repeatingBlock,
    by decide +kernel, by decide +kernel⟩
  show ∀ tx ∈ [openRewardTx, openRewardTx], _
  simp [txHash_openRewardTx]

/-- The equivalence at the same chain. -/
theorem noneVanishes_iff_repeatingBlock :
    NoneVanishes (transactions [openGenesis, repeatingBlock]) ↔
      ((transactions [openGenesis, repeatingBlock]).filter Transaction.isCoinbase).Nodup :=
  @noneVanishes_iff keylessCrypto _ validateFullChain_repeatingBlock collisionless_repeatingBlock

end Siliqua.Ledger
