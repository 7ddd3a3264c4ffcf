import Siliqua.Ledger.Balance
import Siliqua.Wallet.Ownership

/-!
# Payments a wallet builds

`CreateTransaction` takes outputs in the order of the hash table until they cover the payment, pays
the recipient, returns the change unless it is dust, and signs. This module says what comes out:
which outputs are spent, what is paid to whom, and that every input unlocks.
-/

namespace Siliqua.Ledger

open Siliqua.Core Siliqua.Network Siliqua.Wallet KeyedStore

/-- A wrapping sum that is in range is exact. -/
theorem toInt_add_ofInt {a : Int64} {x : ℤ} (hlo : -2 ^ 63 ≤ a.toInt + x)
    (hhi : a.toInt + x < 2 ^ 63) : (a + Int64.ofInt x).toInt = a.toInt + x := by
  have hsum : a + Int64.ofInt x = Int64.ofInt (a.toInt + x) := by
    rw [Int64.ofInt_add, Int64.ofInt_toInt]
  rw [hsum]
  exact Int64.toInt_ofInt_of_le hlo hhi

/-! ## Coin selection -/

/-- Exact sum of the values met on a walk through a UTXO set. -/
def walkWorth (kvs : List (COutPoint × CTxOut)) : ℤ := (kvs.map fun kv ↦ worth kv.2).sum

theorem walkWorth_append (front back : List (COutPoint × CTxOut)) :
    walkWorth (front ++ back) = walkWorth front + walkWorth back := by
  rw [walkWorth, List.map_append, List.sum_append]
  rfl

theorem walkWorth_nonneg {kvs : List (COutPoint × CTxOut)} (h : ∀ kv ∈ kvs, 0 ≤ kv.2.nValue) :
    0 ≤ walkWorth kvs := by
  apply List.sum_nonneg
  intro x hx
  obtain ⟨kv, hkv, rfl⟩ := List.mem_map.mp hx
  exact Int64.le_iff_toInt_le.mp (h kv hkv)

/-- Selection takes a front part of the walk, all of it or one that reaches the target. -/
theorem selectCoins_spec (target : Int64) (kvs : List (COutPoint × CTxOut))
    (selected : List COutPoint) (total : Int64) :
    ∃ front back, kvs = front ++ back ∧
      selectCoins target kvs selected total =
        (selected ++ front.map Prod.fst, total + Int64.ofInt (walkWorth front)) ∧
      (back = [] ∨ target ≤ total + Int64.ofInt (walkWorth front)) := by
  induction kvs generalizing selected total with
  | nil => exact ⟨[], [], rfl, by simp [selectCoins, walkWorth], Or.inl rfl⟩
  | cons kv rest ih =>
    have hone (front : List (COutPoint × CTxOut)) :
        total + kv.2.nValue + Int64.ofInt (walkWorth front) =
          total + Int64.ofInt (walkWorth (kv :: front)) := by
      rw [walkWorth, walkWorth, List.map_cons, List.sum_cons, Int64.ofInt_add, worth,
        Int64.ofInt_toInt, Int64.add_assoc]
    unfold selectCoins
    dsimp only
    split
    · next hge =>
      have hlast : total + kv.2.nValue = total + Int64.ofInt (walkWorth [kv]) := by
        simp [walkWorth, worth]
      refine ⟨[kv], rest, rfl, ?_, Or.inr ?_⟩
      · rw [← hlast]
        rfl
      · rw [← hlast]
        exact hge
    · obtain ⟨front, back, rfl, heq, hback⟩ := ih (selected ++ [kv.1]) (total + kv.2.nValue)
      rw [hone] at heq hback
      refine ⟨kv :: front, back, rfl, ?_, hback⟩
      rw [heq]
      simp

/-- A walk over a store sums up to the store's total. -/
theorem total_of_enumerates {m : UtxoSet} {kvs : List (COutPoint × CTxOut)}
    (h : Enumerates m kvs) : total worth m = walkWorth kvs := by
  rw [← h.emplaceAll_empty, total_emplaceAll worth
    (allInserted_of_nodup h.1 fun kv _ ↦ Finmap.notMem_empty)]
  exact Int.zero_add _

/-- What the caller of `CreateTransaction` has to bring: values that are not negative and cover
the payment, none of it out of range. -/
structure Covers (kvs : List (COutPoint × CTxOut)) (amount fee : Int64) : Prop where
  nonneg : ∀ kv ∈ kvs, 0 ≤ kv.2.nValue
  fits : walkWorth kvs < 2 ^ 63
  amount_pos : 0 < amount
  fee_nonneg : 0 ≤ fee
  covered : amount.toInt + fee.toInt ≤ walkWorth kvs

section

variable {kvs front back : List (COutPoint × CTxOut)} {amount fee : Int64}

theorem Covers.walkWorth_le (h : Covers kvs amount fee) (heq : kvs = front ++ back) :
    0 ≤ walkWorth front ∧ walkWorth front ≤ walkWorth kvs := by
  have hfront : 0 ≤ walkWorth front :=
    walkWorth_nonneg fun kv hkv ↦ h.nonneg kv (by simp [heq, hkv])
  have hback : 0 ≤ walkWorth back :=
    walkWorth_nonneg fun kv hkv ↦ h.nonneg kv (by simp [heq, hkv])
  rw [heq, walkWorth_append]
  exact ⟨hfront, by omega⟩

theorem Covers.toInt_bounds (h : Covers kvs amount fee) : 0 < amount.toInt ∧ 0 ≤ fee.toInt :=
  ⟨Int64.lt_iff_toInt_lt.mp h.amount_pos, Int64.le_iff_toInt_le.mp h.fee_nonneg⟩

/-- Sums over a front part of the walk are exact in `int64_t`. -/
theorem Covers.toInt_walkWorth (h : Covers kvs amount fee) (heq : kvs = front ++ back) :
    (Int64.ofInt (walkWorth front)).toInt = walkWorth front := by
  obtain ⟨hpos, hle⟩ := h.walkWorth_le heq
  exact Int64.toInt_ofInt_of_le (by omega) (Int.lt_of_le_of_lt hle h.fits)

theorem Covers.toInt_target (h : Covers kvs amount fee) :
    (amount + fee).toInt = amount.toInt + fee.toInt := by
  obtain ⟨hamount, hfee⟩ := h.toInt_bounds
  have hlt := Int.lt_of_le_of_lt h.covered h.fits
  have hsum := toInt_add_ofInt (a := amount) (x := fee.toInt) (by omega) hlt
  rwa [Int64.ofInt_toInt] at hsum

/-- The change is exact. -/
theorem Covers.toInt_change (h : Covers kvs amount fee) (heq : kvs = front ++ back)
    (hcover : amount.toInt + fee.toInt ≤ walkWorth front) :
    (Int64.ofInt (walkWorth front) - amount - fee).toInt =
      walkWorth front - amount.toInt - fee.toInt := by
  obtain ⟨hamount, hfee⟩ := h.toInt_bounds
  obtain ⟨hpos, hle⟩ := h.walkWorth_le heq
  have hfits := h.fits
  have hdiff : Int64.ofInt (walkWorth front) - amount - fee =
      Int64.ofInt (walkWorth front - amount.toInt - fee.toInt) := by
    rw [Int64.ofInt_sub, Int64.ofInt_sub, Int64.ofInt_toInt, Int64.ofInt_toInt]
  rw [hdiff]
  exact Int64.toInt_ofInt_of_le (by omega) (by omega)

/-- The front part that selection takes covers the payment. -/
theorem Covers.selectCoins (h : Covers kvs amount fee) :
    ∃ front back, kvs = front ++ back ∧ amount.toInt + fee.toInt ≤ walkWorth front ∧
      selectCoins (amount + fee) kvs [] 0 =
        (front.map Prod.fst, Int64.ofInt (walkWorth front)) := by
  obtain ⟨front, back, heq, hsel, hback⟩ := selectCoins_spec (amount + fee) kvs [] 0
  rw [List.nil_append, Int64.zero_add] at hsel
  refine ⟨front, back, heq, ?_, hsel⟩
  rcases hback with rfl | hge
  · rw [List.append_nil] at heq
    rw [← heq]
    exact h.covered
  · rw [Int64.zero_add, Int64.le_iff_toInt_le, h.toInt_target, h.toInt_walkWorth heq] at hge
    exact hge

end

/-! ## The created transaction -/

section

variable [SigningCrypto]

/-- What `CreateTransaction` builds out of the selected outputs. -/
structure Pays (w : Wallet) (front : List (COutPoint × CTxOut)) (recipient : Address)
    (amount change : Int64) (tx : Transaction) : Prop where
  prevouts : tx.prevouts = front.map Prod.fst
  vout : tx.vout = ⟨amount, buildP2pkhScriptPubkey recipient⟩ ::
    if change ≥ DUST_THRESHOLD then [⟨change, buildP2pkhScriptPubkey w.address⟩] else []
  signed : ∃ signature, signRaw w.seckey (sighash tx) = some signature ∧ ∀ txin ∈ tx.vin,
    txin.scriptSig = buildScriptSig signature.toList w.compressedPubkey.toList

variable {w : Wallet} {kvs front back : List (COutPoint × CTxOut)} {recipient : Address}
  {amount fee : Int64}

/-- The transaction before it is signed. -/
def unsignedPayment (w : Wallet) (front : List (COutPoint × CTxOut)) (recipient : Address)
    (amount change : Int64) : Transaction where
  nVersion := 1
  vin := (front.map Prod.fst).map fun outpoint ↦ ⟨outpoint, [], 0xFFFFFFFF⟩
  vout := ⟨amount, buildP2pkhScriptPubkey recipient⟩ ::
    if change ≥ DUST_THRESHOLD then [⟨change, buildP2pkhScriptPubkey w.address⟩] else []
  nLockTime := 0
  txHash := Hash256.zero

/-- The same `scriptSig` in every input, and the hash of the result. -/
def withScriptSig (tx : Transaction) (scriptSig : Bytes) : Transaction :=
  let tx : Transaction :=
    { tx with vin := tx.vin.map fun txin ↦ { txin with scriptSig := scriptSig } }
  { tx with txHash := tx.getHash }

/-- Signing does not change what the signature covers. -/
theorem sighash_withScriptSig {tx : Transaction} (h : ∀ txin ∈ tx.vin, txin.scriptSig = [])
    (scriptSig : Bytes) : sighash (withScriptSig tx scriptSig) = tx.getHash := by
  have hvin : (unsignedTx (withScriptSig tx scriptSig)).vin = tx.vin := by
    change (tx.vin.map _).map _ = _
    rw [List.map_map]
    refine (List.map_congr_left fun txin htxin ↦ ?_).trans (List.map_id _)
    change { txin with scriptSig := [] } = txin
    rw [← h txin htxin]
  have hserialize : (unsignedTx (withScriptSig tx scriptSig)).serialize = tx.serialize := by
    rw [Transaction.serialize, hvin]
    rfl
  rw [sighash, Transaction.getHash, hserialize]
  rfl

theorem pays_withScriptSig {change : Int64} {signature : List.Vector UInt8 64}
    (hsign : signRaw w.seckey (unsignedPayment w front recipient amount change).getHash =
      some signature) :
    Pays w front recipient amount change
      (withScriptSig (unsignedPayment w front recipient amount change)
        (buildScriptSig signature.toList w.compressedPubkey.toList)) := by
  refine ⟨?_, rfl, signature, ?_, ?_⟩
  · change ((((front.map Prod.fst).map _).map _).map CTxIn.prevout) = _
    rw [List.map_map, List.map_map]
    exact List.map_id _
  · rw [sighash_withScriptSig, hsign]
    intro txin htxin
    obtain ⟨outpoint, -, rfl⟩ := List.mem_map.mp htxin
    rfl
  · intro txin htxin
    obtain ⟨unsigned, -, rfl⟩ := List.mem_map.mp htxin
    rfl

/-- A covered payment fails only where signing does, and is otherwise built as described. -/
theorem createTransaction_spec (h : Covers kvs amount fee) :
    ∃ front back, kvs = front ++ back ∧ amount.toInt + fee.toInt ≤ walkWorth front ∧
      (∀ tx, w.createTransaction kvs recipient amount fee = .ok tx →
        Pays w front recipient amount (Int64.ofInt (walkWorth front) - amount - fee) tx) ∧
      ((∀ sighash, signRaw w.seckey sighash ≠ none) →
        ∃ tx, w.createTransaction kvs recipient amount fee = .ok tx) := by
  obtain ⟨front, back, heq, hcover, hsel⟩ := h.selectCoins
  have henough : ¬ Int64.ofInt (walkWorth front) < amount + fee := by
    rw [Int64.lt_iff_toInt_lt, h.toInt_target, h.toInt_walkWorth heq]
    omega
  generalize hchange : Int64.ofInt (walkWorth front) - amount - fee = change
  have hrun : w.createTransaction kvs recipient amount fee =
      ((w.sign (unsignedPayment w front recipient amount change)).map
        (withScriptSig (unsignedPayment w front recipient amount change))).elim
          (.error "sign_raw: signing failed") .ok := by
    unfold Wallet.createTransaction
    rw [hsel]
    dsimp only
    rw [if_neg henough, hchange]
    split
    · next hnone =>
      have hsign : w.sign (unsignedPayment w front recipient amount change) = none := hnone
      rw [hsign]
      rfl
    · next scriptSig hsome =>
      have hsign : w.sign (unsignedPayment w front recipient amount change) = some scriptSig :=
        hsome
      rw [hsign]
      rfl
  refine ⟨front, back, heq, hcover, fun tx htx ↦ ?_, fun hall ↦ ?_⟩
  · rw [hrun, Wallet.sign] at htx
    cases hsign : signRaw w.seckey (unsignedPayment w front recipient amount change).getHash with
    | none => simp [hsign] at htx
    | some signature =>
      simp only [hsign, Option.map_some, Option.elim_some, Except.ok.injEq] at htx
      rw [hchange, ← htx]
      exact pays_withScriptSig hsign
  · obtain ⟨signature, hsign⟩ := Option.ne_none_iff_exists'.mp
      (hall (unsignedPayment w front recipient amount change).getHash)
    rw [hrun, Wallet.sign, hsign]
    exact ⟨_, rfl⟩

end

/-! ## Signing -/

section

variable [SigningCrypto]

/-- What secp256k1 does for a wallet's key pair: it signs every message hash, and the signature
verifies under the public key. -/
structure KeyWorks (w : Wallet) : Prop where
  signs : ∀ messageHash, SigningCrypto.ecdsaSign messageHash w.seckey ≠ none
  verifies : ∀ messageHash signature,
    SigningCrypto.ecdsaSign messageHash w.seckey = some signature →
      verifySign signature.toList w.compressedPubkey.toList messageHash = true

variable {w : Wallet} {front back : List (COutPoint × CTxOut)} {recipient : Address}
  {amount change : Int64} {tx : Transaction}

theorem verifyRawSignature_signRaw (hkey : KeyWorks w) {hash : Hash256}
    {signature : List.Vector UInt8 64} (h : signRaw w.seckey hash = some signature) :
    verifyRawSignature signature.toList w.compressedPubkey.toList hash = true := by
  rw [verifyRawSignature, if_neg]
  · exact hkey.verifies _ _ h
  · rw [signature.toList_length, w.compressedPubkey.toList_length]
    decide

/-- Every input of a payment unlocks outputs of the wallet. -/
theorem Pays.verifyTransactionSignature (hkey : KeyWorks w)
    (h : Pays w front recipient amount change tx) {inputIndex : Nat}
    (hi : inputIndex < tx.vin.length) :
    verifyTransactionSignature tx inputIndex (buildP2pkhScriptPubkey w.address) = true := by
  obtain ⟨signature, hsign, hscripts⟩ := h.signed
  have haddress : w.address = hash160 w.compressedPubkey.toList := w.addressed
  rw [Wallet.verifyTransactionSignature, List.getElem?_eq_getElem hi]
  dsimp only
  rw [hscripts _ (List.getElem_mem hi), haddress]
  exact evaluate_buildScriptSig (verifyRawSignature_signRaw hkey hsign)

end

end Siliqua.Ledger
