import Siliqua.Ledger.Values

/-!
# Where a fee comes from

The fee is a difference of two sums over lists; what disappears from the UTXO set is a difference
of two sums over sets. The two agree up to the inputs that name an output again, which the first
sum counts and the erasure does not.
-/

namespace Siliqua.Ledger

open Siliqua.Core Siliqua.Network KeyedStore

/-- The set after the transaction: every input's outpoint erased, every output emplaced under the
transaction's hash; `node.h:172–179`, `daemon.h:158–163`. -/
def applyTx (utxoSet : UtxoSet) (tx : Transaction) : UtxoSet :=
  emplaceAll (eraseAll utxoSet tx.prevouts) tx.outpoints

/-- Exact sum of the values found by the inputs whose outpoint a later input names again. -/
def recounted (tx : Transaction) (utxoSet : UtxoSet) : ℤ :=
  ((repeated tx.prevouts).map (valueAt worth utxoSet)).sum

/-- Naming an output without value again counts nothing again. -/
theorem recounted_eq_zero {tx : Transaction} {m : UtxoSet}
    (h : ∀ p ∈ repeated tx.prevouts, valueAt worth m p = 0) : recounted tx m = 0 := by
  rw [recounted, List.map_congr_left h]
  simp

section

variable {tx : Transaction} {m : UtxoSet}

/-- What an application does to the exact value of a set without the new outpoints. -/
theorem supply_applyTx (hnew : ∀ i, (⟨tx.txHash, i⟩ : COutPoint) ∉ m)
    (hsize : tx.vout.length < 2 ^ 32) :
    supply (applyTx m tx) =
      supply m - (inputWorth tx m - recounted tx m) + outputWorth tx.vout := by
  have hinserted : AllInserted (eraseAll m tx.prevouts) tx.outpoints := by
    apply allInserted_of_nodup (Transaction.nodup_outpoints hsize)
    intro kv hkv hmem
    have hkey : kv.1 = ⟨tx.txHash, kv.1.n⟩ := by
      rw [← Transaction.txid_of_mem_outpoints hkv]
    exact hnew kv.1.n (hkey ▸ (mem_eraseAll.mp hmem).1)
  have herase := total_eraseAll_add_repeated worth m tx.prevouts
  rw [supply, applyTx, total_emplaceAll worth hinserted, sum_worth_outpoints, supply, inputWorth,
    recounted]
  omega

/-- The values counted again are among those counted. -/
theorem recounted_le_inputWorth (h : Nonneg m) : recounted tx m ≤ inputWorth tx m := by
  refine ((repeated_sublist tx.prevouts).map _).sum_le_sum fun x hx ↦ ?_
  obtain ⟨p, -, rfl⟩ := List.mem_map.mp hx
  exact valueAt_nonneg h p

/-- Each output counted once, the inputs find no more than the whole set holds. -/
theorem inputWorth_sub_recounted_le (h : Nonneg m) :
    inputWorth tx m - recounted tx m ≤ supply m := by
  have hle := supply_nonneg (h.eraseAll tx.prevouts)
  have herase := total_eraseAll_add_repeated worth m tx.prevouts
  rw [supply] at hle
  rw [inputWorth, recounted, supply]
  omega

variable [Crypto]

/-- A fee that is not negative is what disappears from the UTXO set exactly when the values
counted again vanish, at 64 bits. -/
theorem fee_disappears_iff (hnew : ∀ i, (⟨tx.txHash, i⟩ : COutPoint) ∉ m)
    (hsize : tx.vout.length < 2 ^ 32) (hfee : 0 ≤ validateAndGetFee tx m) (hnonneg : Nonneg m)
    (htotal : supply m < 2 ^ 63) (hfits : Fits (outputWorth tx.vout)) :
    (∀ txs fees, (selectTx ⟨m, txs, fees⟩ tx).utxoSet = applyTx m tx) ∧
    (tx.isCoinbase = false → ∀ fees, connectTx (m, fees) tx =
      some (applyTx m tx, fees + validateAndGetFee tx m)) ∧
    (supply (applyTx m tx) - supply m = -(validateAndGetFee tx m).toInt ↔
      2 ^ 64 ∣ recounted tx m) := by
  have hnonneg' : ¬ validateAndGetFee tx m < 0 := Int64.not_lt.mpr hfee
  refine ⟨fun txs fees ↦ ?_, fun hc fees ↦ ?_, ?_⟩
  · rw [selectTx]
    simp only [ge_iff_le, hfee, ↓reduceIte, applyTx]
  · rw [connectTx, if_neg (by omega)]
    simp only [hc, Bool.false_eq_true, ↓reduceIte, hnonneg', applyTx]
  · obtain ⟨wraps, hwraps⟩ : ∃ wraps, (validateAndGetFee tx m).toInt + 2 ^ 64 * wraps =
        inputWorth tx m - outputWorth tx.vout := by
      have hsplit := Int.bmod_add_bdiv (inputWorth tx m - outputWorth tx.vout) Int64.size
      have hsize : ((Int64.size : Nat) : ℤ) = 2 ^ 64 := rfl
      rw [hsize, ← Int64.toInt_ofInt, ← fee_eq hfee] at hsplit
      exact ⟨_, hsplit⟩
    have hpos : 0 ≤ (validateAndGetFee tx m).toInt := Int64.le_iff_toInt_le.mp hfee
    have hlt := (validateAndGetFee tx m).toInt_lt
    have hcounted := @recounted_le_inputWorth tx _ hnonneg
    have hheld := @inputWorth_sub_recounted_le tx _ hnonneg
    obtain ⟨hlow, hhigh⟩ := hfits
    rw [supply_applyTx hnew hsize]
    constructor
    · exact fun h ↦ ⟨wraps, by omega⟩
    · rintro ⟨k, hk⟩
      omega

end

/-! ## One output named twice -/

/-- Names the output of `openRewardTx` twice and pays out twice its value. -/
def doubleNameTx : Transaction where
  nVersion := 1
  vin :=
    [⟨⟨openRewardTx.txHash, 0⟩, [], 0xFFFFFFFF⟩, ⟨⟨openRewardTx.txHash, 0⟩, [], 0xFFFFFFFF⟩]
  vout := [⟨10000000000, openScript⟩]
  nLockTime := 0
  txHash := .ofBigEndian 0x1d85ad7deb8cb87572be01785a7ced20dc6b7a985325933d71d5fd8b16ed5e0d

/-- The validator's set after `openGenesis`. -/
def openUtxoSet : UtxoSet := emplaceAll ∅ openRewardTx.outpoints

private theorem nonneg_openUtxoSet : Nonneg openUtxoSet := by
  intro p out hl
  have hall : ∀ kv ∈ openRewardTx.outpoints, 0 ≤ worth kv.2 := by decide +kernel
  rw [openUtxoSet, lookup_emplaceAll, Finmap.lookup_empty, Option.none_or] at hl
  exact hall _ (mem_of_lookup_eq_some hl)

private theorem notMem_openUtxoSet {hash : Hash256} (h : openRewardTx.txHash ≠ hash)
    (i : UInt32) : (⟨hash, i⟩ : COutPoint) ∉ openUtxoSet := by
  intro hmem
  rcases mem_emplaceAll.mp hmem with hempty | hnew
  · exact Finmap.notMem_empty hempty
  · obtain ⟨kv, hkv, heq⟩ := List.mem_map.mp hnew
    rw [← Transaction.txid_of_mem_outpoints hkv, heq] at h
    exact h rfl

private theorem supply_openUtxoSet : supply openUtxoSet = 5000000000 := by decide +kernel

/-- The transaction is valid without a fee, and five billion appear. -/
theorem fee_appears_doubleNameTx :
    doubleNameTx.txHash = @Transaction.getHash keylessCrypto doubleNameTx ∧
      (∀ i, (⟨doubleNameTx.txHash, i⟩ : COutPoint) ∉ openUtxoSet) ∧
      @validateAndGetFee keylessCrypto doubleNameTx openUtxoSet = 0 ∧
      supply openUtxoSet = 5000000000 ∧
      supply (applyTx openUtxoSet doubleNameTx) = 10000000000 :=
  ⟨by decide +kernel, notMem_openUtxoSet (by decide +kernel), by decide +kernel, supply_openUtxoSet,
    by decide +kernel⟩

/-- The fee of `payingSpendTx` disappears. -/
theorem fee_disappears_iff_payingSpendTx :
    supply (applyTx openUtxoSet payingSpendTx) - supply openUtxoSet =
      -(@validateAndGetFee keylessCrypto payingSpendTx openUtxoSet).toInt := by
  refine (@fee_disappears_iff payingSpendTx openUtxoSet keylessCrypto
    (notMem_openUtxoSet (by decide +kernel)) (by decide) (by decide +kernel) nonneg_openUtxoSet ?_
    (by decide +kernel)).2.2.mpr ?_
  · rw [supply_openUtxoSet]
    omega
  · have hnone : repeated payingSpendTx.prevouts = [] := repeated_eq_nil (List.nodup_singleton _)
    rw [recounted_eq_zero (by simp [hnone])]
    exact dvd_zero _

end Siliqua.Ledger
