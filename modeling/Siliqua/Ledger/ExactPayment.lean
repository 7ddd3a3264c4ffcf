import Siliqua.Ledger.Transfer
import Siliqua.Network.CommandLine

/-!
# Payments are exact

`CreateTransaction` with the fee of `run_send_tx` on a UTXO set that belongs to the wallet: it
throws exactly when the set does not cover payment and fee, and else pays what it was asked to,
as long as payment and fee together are an `int64_t`.
-/

namespace Siliqua.Ledger

open Siliqua.Core Siliqua.Network Siliqua.Wallet KeyedStore

variable [SigningCrypto]

/-- The transaction is the payment that was asked for, as far as the UTXO set shows. -/
structure Settles (w : Wallet) (utxoSet : UtxoSet) (recipient : Address) (amount fee : Int64)
    (tx : Transaction) : Prop where
  nodup : tx.prevouts.Nodup
  held : ∀ p ∈ tx.prevouts, p ∈ utxoSet
  outputs : ∃ change : Int64, 0 ≤ change ∧
    change.toInt = inputWorth tx utxoSet - amount.toInt - fee.toInt ∧
    tx.vout = ⟨amount, buildP2pkhScriptPubkey recipient⟩ ::
      if change < DUST_THRESHOLD then [] else [⟨change, buildP2pkhScriptPubkey w.address⟩]
  txHash : tx.txHash = tx.getHash
  fee : ∃ d : ℤ, 0 ≤ d ∧ d < DUST_THRESHOLD.toInt ∧
    (validateAndGetFee tx utxoSet).toInt = fee.toInt + d

/-- `CreateTransaction` throws exactly when the set does not cover the payment, and else builds
it. -/
structure ExactPayment (w : Wallet) (utxoSet : UtxoSet) (kvs : List (COutPoint × CTxOut))
    (recipient : Address) (amount fee : Int64) : Prop where
  throws : (∃ e, w.createTransaction kvs recipient amount fee = .error e) ↔
    total worth utxoSet < amount.toInt + fee.toInt
  settles : ∀ tx, w.createTransaction kvs recipient amount fee = .ok tx →
    Settles w utxoSet recipient amount fee tx

omit [SigningCrypto] in
/-- A sum in range is exact. -/
private theorem toInt_add_of_lt {amount fee : Int64} (hamount : 0 < amount.toInt)
    (hfee : 0 ≤ fee.toInt) (h : amount.toInt + fee.toInt < 2 ^ 63) :
    (amount + fee).toInt = amount.toInt + fee.toInt := by
  have hsum := toInt_add_ofInt (a := amount) (x := fee.toInt) (by omega) h
  rwa [Int64.ofInt_toInt] at hsum

section

variable {w : Wallet} {utxoSet : UtxoSet} {kvs : List (COutPoint × CTxOut)} {recipient : Address}
  {amount fee : Int64}

/-- A wallet that can sign throws only for lack of funds. -/
theorem createTransaction_eq_error_iff (hkey : KeyWorks w) :
    (∃ e, w.createTransaction kvs recipient amount fee = .error e) ↔
      (selectCoins (amount + fee) kvs [] 0).2 < amount + fee := by
  unfold Wallet.createTransaction
  dsimp only
  split
  · next hless => exact ⟨fun _ ↦ hless, fun _ ↦ ⟨_, rfl⟩⟩
  · next henough =>
    refine ⟨?_, fun hless ↦ absurd hless henough⟩
    rintro ⟨e, he⟩
    split at he
    · next hsign =>
      rw [Wallet.sign, Option.map_eq_none_iff] at hsign
      exact absurd hsign (hkey.signs _)
    · cases he

/-- The built transaction carries its hash. -/
theorem txHash_of_createTransaction {tx : Transaction}
    (h : w.createTransaction kvs recipient amount fee = .ok tx) : tx.txHash = tx.getHash := by
  unfold Wallet.createTransaction at h
  dsimp only at h
  split at h
  · cases h
  · split at h
    · cases h
    · cases h
      rfl

/-- The set belongs to the wallet, and its values are an `int64_t` amount. -/
structure Spendable (w : Wallet) (utxoSet : UtxoSet) : Prop where
  locked : ∀ p out, utxoSet.lookup p = some out →
    out.scriptPubKey = buildP2pkhScriptPubkey w.address
  nonneg : ∀ p out, utxoSet.lookup p = some out → 0 ≤ out.nValue
  fits : total worth utxoSet < 2 ^ 63

/-- It is enough to look at the walk. -/
theorem Spendable.of_enumerates (hwalk : Enumerates utxoSet kvs)
    (hlocked : ∀ kv ∈ kvs, kv.2.scriptPubKey = buildP2pkhScriptPubkey w.address)
    (hnonneg : ∀ kv ∈ kvs, 0 ≤ kv.2.nValue) (hfits : walkWorth kvs < 2 ^ 63) :
    Spendable w utxoSet := by
  have hmem {p : COutPoint} {out : CTxOut} (h : utxoSet.lookup p = some out) : (p, out) ∈ kvs :=
    (hwalk.2 p out).mpr h
  have htotal : total worth utxoSet = walkWorth kvs := total_of_enumerates hwalk
  exact ⟨fun p out h ↦ hlocked (p, out) (hmem h), fun p out h ↦ hnonneg (p, out) (hmem h),
    htotal ▸ hfits⟩

section

variable (hspend : Spendable w utxoSet) (hwalk : Enumerates utxoSet kvs)
include hspend hwalk

theorem Spendable.nonneg_of_mem {kv : COutPoint × CTxOut} (h : kv ∈ kvs) : 0 ≤ kv.2.nValue :=
  hspend.nonneg kv.1 kv.2 ((hwalk.2 kv.1 kv.2).mp h)

theorem Spendable.owned {front back : List (COutPoint × CTxOut)} (heq : kvs = front ++ back) :
    Owned w utxoSet front := by
  have hheld (kv : COutPoint × CTxOut) (hkv : kv ∈ front) : utxoSet.lookup kv.1 = some kv.2 :=
    (hwalk.2 kv.1 kv.2).mp (by simp [heq, hkv])
  refine ⟨?_, hheld, fun kv hkv ↦ hspend.locked kv.1 kv.2 (hheld kv hkv)⟩
  have hd := hwalk.1
  rw [heq, List.map_append] at hd
  exact (List.nodup_append.mp hd).1

/-- What is built for a covered payment settles it. -/
theorem Spendable.settles_of_covers (hkey : KeyWorks w) (hcovers : Covers kvs amount fee)
    {tx : Transaction} (htx : w.createTransaction kvs recipient amount fee = .ok tx) :
    Settles w utxoSet recipient amount fee tx := by
  obtain ⟨front, back, heq, hfront, hspec, -⟩ :=
    @createTransaction_spec _ w kvs recipient amount fee hcovers
  have hpays := hspec tx htx
  have howned := hspend.owned hwalk heq
  have hchange := hcovers.toInt_change heq hfront
  generalize Int64.ofInt (walkWorth front) - amount - fee = change at hpays hchange
  have hin : inputWorth tx utxoSet = walkWorth front := hpays.sum_prevouts howned worth
  have hle := (hcovers.walkWorth_le heq).2
  have hfits := hcovers.fits
  obtain ⟨hamountPos, hfeeNonneg⟩ := hcovers.toInt_bounds
  have hchangePos : 0 ≤ change := by
    rw [Int64.le_iff_toInt_le, hchange]
    show 0 ≤ _
    omega
  have hne : front ≠ [] := by
    rintro rfl
    simp only [walkWorth, List.map_nil, List.sum_nil] at hfront
    omega
  have hpaid := hpays.outputWorth
  obtain ⟨hpos, hless⟩ : 0 ≤ outputWorth tx.vout ∧ outputWorth tx.vout ≤ walkWorth front := by
    split at hpaid <;> omega
  have hfee := (hpays.fee hkey howned hne hpos hless (by omega)).2
  refine ⟨?_, ?_, ⟨change, hchangePos, ?_, ?_⟩, txHash_of_createTransaction htx, ?_⟩
  · rw [hpays.prevouts]
    exact howned.nodup
  · intro p hp
    rw [hpays.prevouts] at hp
    obtain ⟨kv, hkv, rfl⟩ := List.mem_map.mp hp
    exact Finmap.mem_iff.mpr ⟨kv.2, howned.held kv hkv⟩
  · rw [hin, hchange]
  · rw [hpays.vout]
    by_cases hdust : change < DUST_THRESHOLD
    · rw [if_pos hdust, if_neg (Int64.not_le.mpr hdust)]
    · rw [if_neg hdust, if_pos (Int64.not_lt.mp hdust)]
  · rw [hfee, Int64.toInt_ofInt_of_le (by omega) (by omega)]
    by_cases hdust : change ≥ DUST_THRESHOLD
    · -- the change is paid out, and the fee is what was asked for
      rw [if_pos hdust] at hpaid
      exact ⟨0, Int.le_refl 0, by decide, by omega⟩
    · rw [if_neg hdust] at hpaid
      have hsmall := Int64.lt_iff_toInt_lt.mp (Int64.not_le.mp hdust)
      exact ⟨change.toInt, by omega, hsmall, by omega⟩

/-- A payment whose sum is exact is built if it is covered. -/
theorem Spendable.exactPayment_of_covers (hkey : KeyWorks w) (hcovers : Covers kvs amount fee) :
    ExactPayment w utxoSet kvs recipient amount fee := by
  refine ⟨?_, fun tx htx ↦ hspend.settles_of_covers hwalk hkey hcovers htx⟩
  have htotal : total worth utxoSet = walkWorth kvs := total_of_enumerates hwalk
  obtain ⟨front, back, -, -, -, hexists⟩ :=
    @createTransaction_spec _ w kvs recipient amount fee hcovers
  obtain ⟨built, hbuilt⟩ := hexists fun sighash ↦ hkey.signs _
  have hcovered := hcovers.covered
  rw [hbuilt, htotal]
  constructor
  · rintro ⟨e, he⟩
    cases he
  · intro hless
    omega

/-- A payment whose sum is exact is refused if it is not covered. -/
theorem Spendable.exactPayment_of_not_covered (hkey : KeyWorks w) (hamount : 0 < amount.toInt)
    (hfee : 0 ≤ fee.toInt) (hfits : amount.toInt + fee.toInt < 2 ^ 63)
    (hless : total worth utxoSet < amount.toInt + fee.toInt) :
    ExactPayment w utxoSet kvs recipient amount fee := by
  rw [total_of_enumerates hwalk] at hless
  have htarget := toInt_add_of_lt hamount hfee hfits
  have hthrows : ∃ e, w.createTransaction kvs recipient amount fee = .error e := by
    rw [createTransaction_eq_error_iff hkey]
    obtain ⟨front, back, heq, hsel, -⟩ := selectCoins_spec (amount + fee) kvs [] 0
    have hfront : 0 ≤ walkWorth front :=
      walkWorth_nonneg fun kv hkv ↦ hspend.nonneg_of_mem hwalk (by simp [heq, hkv])
    have hback : 0 ≤ walkWorth back :=
      walkWorth_nonneg fun kv hkv ↦ hspend.nonneg_of_mem hwalk (by simp [heq, hkv])
    rw [heq, walkWorth_append] at hless
    rw [hsel, Int64.zero_add, Int64.lt_iff_toInt_lt, htarget,
      Int64.toInt_ofInt_of_le (by omega) (by omega)]
    omega
  refine ⟨⟨fun _ ↦ ?_, fun _ ↦ hthrows⟩, fun tx htx ↦ ?_⟩
  · rw [total_of_enumerates hwalk]
    exact hless
  · obtain ⟨e, he⟩ := hthrows
    rw [htx] at he
    cases he

/-- A sum that wraps is negative, and any set covers it. -/
theorem Spendable.not_exactPayment_of_wrap (hkey : KeyWorks w) (hfee : fee.toInt < 2 ^ 62)
    (hwrap : 2 ^ 63 ≤ amount.toInt + fee.toInt) :
    ¬ ExactPayment w utxoSet kvs recipient amount fee := by
  intro h
  have hamount := Int64.toInt_lt amount
  have hfits := hspend.fits
  have htarget : (amount + fee).toInt = amount.toInt + fee.toInt - 2 ^ 64 := by
    have hsum : amount + fee = Int64.ofInt (amount.toInt + fee.toInt - 2 ^ 64) := by
      have hzero : Int64.ofInt (2 ^ 64) = 0 := by decide
      rw [Int64.ofInt_sub, Int64.ofInt_add, Int64.ofInt_toInt, Int64.ofInt_toInt, hzero,
        Int64.sub_zero]
    rw [hsum]
    exact Int64.toInt_ofInt_of_le (by omega) (by omega)
  have hthrows := h.throws.mpr (by omega)
  rw [createTransaction_eq_error_iff hkey] at hthrows
  obtain ⟨front, back, heq, hsel, -⟩ := selectCoins_spec (amount + fee) kvs [] 0
  have hfront : 0 ≤ walkWorth front :=
    walkWorth_nonneg fun kv hkv ↦ hspend.nonneg_of_mem hwalk (by simp [heq, hkv])
  have hback : 0 ≤ walkWorth back :=
    walkWorth_nonneg fun kv hkv ↦ hspend.nonneg_of_mem hwalk (by simp [heq, hkv])
  rw [total_of_enumerates hwalk, heq, walkWorth_append] at hfits
  rw [hsel, Int64.zero_add, Int64.lt_iff_toInt_lt, htarget,
    Int64.toInt_ofInt_of_le (by omega) (by omega)] at hthrows
  omega

/-- Payments with the default fee are exact, for every order of the walk and every amount that
`parse_amount` admits, exactly if amount and fee together are an `int64_t`. -/
theorem exactPayment_iff (hkey : KeyWorks w) {text : Bytes}
    (hamount : parseAmount text = some amount) (recipient : Address) :
    ExactPayment w utxoSet kvs recipient amount DEFAULT_FEE ↔
      amount.toInt + DEFAULT_FEE.toInt < 2 ^ 63 := by
  have hpos : 0 < amount := exists_parseAmount_iff.mp ⟨text, hamount⟩
  have hpos' : 0 < amount.toInt := Int64.lt_iff_toInt_lt.mp hpos
  have hfee : DEFAULT_FEE.toInt = 1000 := by decide
  by_cases hsum : amount.toInt + DEFAULT_FEE.toInt < 2 ^ 63
  · refine ⟨fun _ ↦ hsum, fun _ ↦ ?_⟩
    by_cases hless : total worth utxoSet < amount.toInt + DEFAULT_FEE.toInt
    · exact hspend.exactPayment_of_not_covered hwalk hkey hpos' (by omega) hsum hless
    · apply hspend.exactPayment_of_covers hwalk hkey
      have htotal : total worth utxoSet = walkWorth kvs := total_of_enumerates hwalk
      exact ⟨fun kv ↦ hspend.nonneg_of_mem hwalk, htotal ▸ hspend.fits, hpos, by decide, by omega⟩
  · refine ⟨fun h ↦ absurd h ?_, fun h ↦ absurd h hsum⟩
    exact hspend.not_exactPayment_of_wrap hwalk hkey (by omega) (Int.not_lt.mp hsum)

end

end

/-! ## A wallet with two outputs -/

/-- The chain with the payment that the wallet's owner mined. -/
def payerChain : List CBlock := [payerGenesis, paymentBlock]

/-- The outputs of the wallet then: the change of the payment and the second reward. -/
def payerPurse : List (COutPoint × CTxOut) :=
  [(⟨paymentTx.txHash, 1⟩, ⟨2999999000, buildP2pkhScriptPubkey payerAddress⟩),
    (⟨paymentCoinbaseTx.txHash, 0⟩, ⟨5000001000, buildP2pkhScriptPubkey payerAddress⟩)]

omit [SigningCrypto] in
private theorem enumerates_payerPurse :
    Enumerates (filterUtxosByAddress (buildUtxoSet payerChain) payerAddress) payerPurse := by
  have hset : filterUtxosByAddress (buildUtxoSet payerChain) payerAddress =
      emplaceAll ∅ payerPurse := by
    decide +kernel
  rw [hset]
  exact enumerates_emplaceAll (by decide +kernel)

omit [SigningCrypto] in
/-- Sixty coins, which take both outputs, are paid exactly. -/
theorem exactPayment_sixty_coins :
    parseAmount (decimal 6000000000) = some 6000000000 ∧
      (selectCoins (6000000000 + DEFAULT_FEE) payerPurse [] 0).1 = payerPurse.map Prod.fst ∧
      @ExactPayment payerCrypto payerWallet
        (filterUtxosByAddress (buildUtxoSet payerChain) payerAddress) payerPurse zeroAddress
        6000000000 DEFAULT_FEE := by
  have hspend : @Spendable payerCrypto payerWallet
      (filterUtxosByAddress (buildUtxoSet payerChain) payerAddress) :=
    @Spendable.of_enumerates payerCrypto payerWallet _ _ enumerates_payerPurse
      (by simp [payerPurse, payerWallet]) (by decide) (by decide)
  have hamount : parseAmount (decimal 6000000000) = some 6000000000 := by decide +kernel
  exact ⟨hamount, by decide +kernel, (@exactPayment_iff payerCrypto payerWallet _ _ _ hspend
    enumerates_payerPurse keyWorks_payerWallet _ hamount zeroAddress).mpr (by decide)⟩

omit [SigningCrypto] in
/-- The largest amount, which the wallet does not have, is not refused. -/
theorem not_exactPayment_largest :
    parseAmount (decimal 9223372036854775807) = some 9223372036854775807 ∧
      ¬ @ExactPayment payerCrypto payerWallet
        (filterUtxosByAddress (buildUtxoSet [payerGenesis]) payerAddress) payerOutputs zeroAddress
        9223372036854775807 DEFAULT_FEE := by
  have hspend : @Spendable payerCrypto payerWallet
      (filterUtxosByAddress (buildUtxoSet [payerGenesis]) payerAddress) :=
    @Spendable.of_enumerates payerCrypto payerWallet _ _ enumerates_payerOutputs
      (by simp [payerOutputs, payerWallet]) (by decide) (by decide)
  refine ⟨by decide +kernel, ?_⟩
  exact @Spendable.not_exactPayment_of_wrap payerCrypto _ _ _ _ _ _ hspend
    enumerates_payerOutputs keyWorks_payerWallet (by decide) (by decide)

end Siliqua.Ledger
