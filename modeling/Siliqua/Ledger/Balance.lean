import Siliqua.Ledger.Supply
import Siliqua.Ledger.Mining

/-!
# Balances

What `--balance` prints for an address, and how one more block changes it: the outputs it pays to
the address come in, the address's outputs it spends go out, provided that the block's hashes are
new. Where they are not, `build_utxo_set` can drop an output or erase a new one.
-/

namespace Siliqua.Ledger

open Siliqua.Core Siliqua.Network Siliqua.Wallet KeyedStore Journal

/-- Sum of the outputs locked to an address, as `--balance` prints it; `Siliqua.cpp:177–182`. -/
def balance (address : Address) (chain : List CBlock) : ℤ :=
  total worth (filterUtxosByAddress (buildUtxoSet chain) address)

/-- Value of an output for an address, zero where it is not locked to it. -/
def ownedWorth (address : Address) (out : CTxOut) : ℤ :=
  if extractP2pkhAddress out.scriptPubKey = some address then worth out else 0

theorem balance_eq (address : Address) (chain : List CBlock) :
    balance address chain = total (ownedWorth address) (buildUtxoSet chain) := by
  rw [balance, filterUtxosByAddress, total_restrict]
  simp only [decide_eq_true_eq]
  rfl

/-- A P2PKH output counts for the address it was built for. -/
theorem ownedWorth_p2pkh (address owner : Address) (value : Int64) :
    ownedWorth address ⟨value, buildP2pkhScriptPubkey owner⟩ =
      if address = owner then value.toInt else 0 := by
  have hextract : extractP2pkhAddress (buildP2pkhScriptPubkey owner) = some owner :=
    extractP2pkhAddress_eq_some_iff.mpr rfl
  simp only [ownedWorth, hextract, Option.some.injEq, worth, eq_comm]

/-- The block's transaction hashes are new to the chain, as hashes and as ids in outpoints. -/
def FreshHashes (chain : List CBlock) (blk : CBlock) : Prop :=
  ∀ tx ∈ blk.vtx, ∀ tx' ∈ transactions chain,
    tx'.txHash ≠ tx.txHash ∧ ∀ p ∈ tx'.prevouts, p.txid ≠ tx.txHash

/-- No transaction of the list names an output of the list. -/
def Independent (txs : List Transaction) : Prop :=
  ∀ tx ∈ txs, ∀ kv ∈ tx.outpoints, ∀ tx' ∈ txs, kv.1 ∉ tx'.prevouts

/-- Transactions with different hashes have different outpoints. -/
theorem nodup_flatMap_outpoints {txs : List Transaction}
    (hsized : ∀ tx ∈ txs, tx.vout.length < 2 ^ 32) (hd : (txs.map Transaction.txHash).Nodup) :
    ((txs.flatMap Transaction.outpoints).map Prod.fst).Nodup := by
  rw [List.map_flatMap, List.nodup_flatMap]
  refine ⟨fun tx htx ↦ Transaction.nodup_outpoints (hsized tx htx), ?_⟩
  exact (List.pairwise_map.mp hd).imp fun {tx tx'} hne p hp hp' ↦
    hne (Transaction.txHash_eq_of_outpoint hp hp')

section

variable {chain : List CBlock} {blk : CBlock} (hfresh : FreshHashes chain blk)
  (hind : Independent blk.vtx)
include hfresh hind

/-- A block with new hashes erases its inputs from the chain's set and adds its outputs. -/
theorem buildUtxoSet_concat :
    buildUtxoSet (chain ++ [blk]) =
      emplaceAll (eraseAll (buildUtxoSet chain) (blk.vtx.flatMap Transaction.prevouts))
        (blk.vtx.flatMap Transaction.outpoints) := by
  rw [buildUtxoSet_eq_settle, buildUtxoSet_eq_settle, transactions_append, transactions_singleton,
    journal_append, settle_append, flatMap_journal_creates, flatMap_journal_names]
  intro kv hkv hnamed
  rw [flatMap_journal_creates] at hkv
  obtain ⟨tx, htx, hout⟩ := List.mem_flatMap.mp hkv
  rw [← journal_append, flatMap_journal_names] at hnamed
  obtain ⟨tx', htx', hp⟩ := List.mem_flatMap.mp hnamed
  rcases List.mem_append.mp htx' with hold | hnew
  · exact (hfresh tx htx tx' hold).2 kv.1 hp (Transaction.txid_of_mem_outpoints hout)
  · exact hind tx htx kv hout tx' hnew hp

/-- What such a block does to a balance. -/
theorem balance_concat (hsized : ∀ tx ∈ blk.vtx, tx.vout.length < 2 ^ 32)
    (hd : (blk.vtx.map Transaction.txHash).Nodup)
    (hspends : (blk.vtx.flatMap Transaction.prevouts).Nodup) (address : Address) :
    balance address (chain ++ [blk]) - balance address chain =
      ((blk.vtx.flatMap Transaction.vout).map (ownedWorth address)).sum -
        ((blk.vtx.flatMap Transaction.prevouts).map
          (valueAt (ownedWorth address) (buildUtxoSet chain))).sum := by
  have hinserted : AllInserted
      (eraseAll (buildUtxoSet chain) (blk.vtx.flatMap Transaction.prevouts))
      (blk.vtx.flatMap Transaction.outpoints) := by
    apply allInserted_of_nodup
    · exact nodup_flatMap_outpoints hsized hd
    · intro kv hkv hm
      obtain ⟨tx, htx, hout⟩ := List.mem_flatMap.mp hkv
      obtain ⟨⟨tx', htx', hp⟩, -⟩ := mem_buildUtxoSet.mp (mem_eraseAll.mp hm).1
      have hkey : kv.1 ∈ tx.outpoints.map Prod.fst := List.mem_map_of_mem hout
      exact (hfresh tx htx tx' htx').1 (Transaction.txHash_eq_of_outpoint hkey hp).symm
  have hvalues : (blk.vtx.flatMap Transaction.outpoints).map (fun kv ↦ ownedWorth address kv.2) =
      (blk.vtx.flatMap Transaction.vout).map (ownedWorth address) := by
    rw [List.map_flatMap, List.map_flatMap]
    refine congrArg (List.flatMap · blk.vtx) (funext fun tx ↦ ?_)
    rw [← Transaction.map_snd_outpoints, List.map_map]
    rfl
  rw [balance_eq, balance_eq, buildUtxoSet_concat hfresh hind, total_emplaceAll _ hinserted,
    total_eraseAll _ hspends, hvalues]
  omega

end

end Siliqua.Ledger
