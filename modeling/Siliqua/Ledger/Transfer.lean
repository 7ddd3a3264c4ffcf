import Siliqua.Ledger.Payment

/-!
# Mined payments

A payment from chain to chain: the miner selects it, the block it mines spends the wallet's
outputs, and the balances of payer, recipient and miner change by the payment, its change and the
coinbase, whichever of the three are one address.
-/

namespace Siliqua.Ledger

open Siliqua.Core Siliqua.Network Siliqua.Wallet KeyedStore

/-! ## The miner takes the payment -/

section

variable [SigningCrypto] {w : Wallet} {utxoSet : UtxoSet} {front back : List (COutPoint × CTxOut)}
  {recipient : Address} {amount change : Int64} {tx : Transaction}

/-- The selected outputs are different outputs of the wallet that the UTXO set holds. -/
structure Owned (w : Wallet) (utxoSet : UtxoSet) (front : List (COutPoint × CTxOut)) : Prop where
  nodup : (front.map Prod.fst).Nodup
  held : ∀ kv ∈ front, utxoSet.lookup kv.1 = some kv.2
  locked : ∀ kv ∈ front, kv.2.scriptPubKey = buildP2pkhScriptPubkey w.address

theorem owned_of_enumerates {kvs : List (COutPoint × CTxOut)}
    (h : Enumerates (filterUtxosByAddress utxoSet w.address) kvs) (heq : kvs = front ++ back) :
    Owned w utxoSet front := by
  have hfound (kv : COutPoint × CTxOut) (hkv : kv ∈ front) :
      utxoSet.lookup kv.1 = some kv.2 ∧ extractP2pkhAddress kv.2.scriptPubKey = some w.address := by
    have hlookup := (h.2 kv.1 kv.2).mp (by simp [heq, hkv])
    rw [filterUtxosByAddress, lookup_restrict_eq_some, decide_eq_true_eq] at hlookup
    exact hlookup
  refine ⟨?_, fun kv hkv ↦ (hfound kv hkv).1, fun kv hkv ↦
    extractP2pkhAddress_eq_some_iff.mp (hfound kv hkv).2⟩
  have hd := h.1
  rw [heq, List.map_append] at hd
  exact (List.nodup_append.mp hd).1

/-- A measure summed over the inputs of a payment. -/
theorem Pays.sum_prevouts (h : Pays w front recipient amount change tx)
    (howned : Owned w utxoSet front) (f : CTxOut → ℤ) :
    (tx.prevouts.map (valueAt f utxoSet)).sum = (front.map fun kv ↦ f kv.2).sum := by
  rw [h.prevouts, List.map_map]
  refine congrArg List.sum (List.map_congr_left fun kv hkv ↦ ?_)
  simp [valueAt, howned.held kv hkv]

/-- Every input of a payment is there and unlocks. -/
theorem Pays.unlocks (hkey : KeyWorks w) (h : Pays w front recipient amount change tx)
    (howned : Owned w utxoSet front) :
    ∀ input ∈ tx.vin.zipIdx, Unlocks tx utxoSet input := by
  rintro ⟨txin, i⟩ hinput
  have hget := List.mem_zipIdx_iff_getElem?.mp hinput
  obtain ⟨hi, -⟩ := List.getElem?_eq_some_iff.mp hget
  have hp : txin.prevout ∈ tx.prevouts := List.mem_map_of_mem (List.mem_of_getElem? hget)
  rw [h.prevouts] at hp
  obtain ⟨kv, hkv, heq⟩ := List.mem_map.mp hp
  refine ⟨kv.2, ?_, ?_⟩
  · rw [← heq]
    exact howned.held kv hkv
  · rw [howned.locked kv hkv]
    exact h.verifyTransactionSignature hkey hi

/-- The payment and the change, if there is any. -/
theorem Pays.outputWorth (h : Pays w front recipient amount change tx) :
    outputWorth tx.vout =
      amount.toInt + if change ≥ DUST_THRESHOLD then change.toInt else 0 := by
  rw [Ledger.outputWorth, h.vout, List.map_cons, List.sum_cons]
  split <;> simp [worth]

/-- A payment out of the wallet's outputs leaves the exact difference as its fee. -/
theorem Pays.fee (hkey : KeyWorks w) (h : Pays w front recipient amount change tx)
    (howned : Owned w utxoSet front) (hne : front ≠ []) (hpos : 0 ≤ Ledger.outputWorth tx.vout)
    (hle : Ledger.outputWorth tx.vout ≤ walkWorth front) (hfits : walkWorth front < 2 ^ 63) :
    0 ≤ validateAndGetFee tx utxoSet ∧
      validateAndGetFee tx utxoSet =
        Int64.ofInt (walkWorth front - Ledger.outputWorth tx.vout) := by
  have hin : inputWorth tx utxoSet = walkWorth front := h.sum_prevouts howned worth
  have hvin : tx.vin ≠ [] := by
    intro hnil
    have hp := h.prevouts
    rw [Transaction.prevouts, hnil] at hp
    exact hne (List.map_eq_nil_iff.mp hp.symm)
  have hfee : 0 ≤ validateAndGetFee tx utxoSet := by
    refine fee_nonneg_iff.mpr ⟨hvin, h.unlocks hkey howned, ?_, ?_⟩
    · rw [hin, Int64.le_iff_toInt_le, Int64.toInt_ofInt_of_le (by omega) (by omega),
        Int64.toInt_ofInt_of_le (by omega) hfits]
      exact hle
    · rw [hin, Int64.le_iff_toInt_le, Int64.toInt_ofInt_of_le (by omega) (by omega)]
      simpa using hle
  exact ⟨hfee, hin ▸ fee_eq hfee⟩

end

/-- A miner with nothing else pending selects the payment. -/
theorem selectMempool_singleton [Crypto] {chain : List CBlock} {tx : Transaction}
    (h : 0 ≤ validateAndGetFee tx (buildUtxoSet chain)) :
    (selectMempool chain [tx]).extraTxs = [tx] ∧
      (selectMempool chain [tx]).totalFees = validateAndGetFee tx (buildUtxoSet chain) := by
  change (selectTx ⟨buildUtxoSet chain, [], 0⟩ tx).extraTxs = _ ∧
    (selectTx ⟨buildUtxoSet chain, [], 0⟩ tx).totalFees = _
  rw [selectTx, if_pos h]
  exact ⟨rfl, Int64.zero_add _⟩

/-- What a mined payment adds to the balance of an address: the payer gives the inputs and gets the
change, the recipient gets the amount, the miner the reward and what the inputs exceed the outputs
by. -/
def paymentDelta (chain : List CBlock) (payer recipient miner : Address) (amount : Int64)
    (tx : Transaction) (address : Address) : ℤ :=
  (if address = payer then
    outputWorth (tx.vout.drop 1) - inputWorth tx (buildUtxoSet chain) else 0) +
  (if address = recipient then amount.toInt else 0) +
  (if address = miner then
    (calculateBlockReward (UInt32.ofNat chain.length)).toInt +
      (inputWorth tx (buildUtxoSet chain) - outputWorth tx.vout) else 0)

/-- An outpoint the chain's UTXO set holds is not null and carries a hash of the chain. -/
theorem exists_source_of_mem_buildUtxoSet [Crypto] {chain : List CBlock}
    (hacc : validateFullChain chain = true) {p : COutPoint} (h : p ∈ buildUtxoSet chain) :
    p.isNull = false ∧ ∃ tx ∈ transactions chain, tx.txHash = p.txid := by
  obtain ⟨⟨tx, htx, hp⟩, -⟩ := mem_buildUtxoSet.mp h
  obtain ⟨kv, hkv, rfl⟩ := List.mem_map.mp hp
  exact ⟨Transaction.isNull_of_mem_outpoints (outputs_of_accepted hacc htx) hkv, tx, htx,
    (Transaction.txid_of_mem_outpoints hkv).symm⟩

section

variable [SigningCrypto] {chain : List CBlock} {w : Wallet}
  {front : List (COutPoint × CTxOut)} {recipient miner : Address} {amount change fees : Int64}
  {tx : Transaction} {blk : CBlock}

/-- The selected outputs count for the wallet's address. -/
theorem Owned.sum_ownedWorth {utxoSet : UtxoSet} (h : Owned w utxoSet front) (address : Address) :
    (front.map fun kv ↦ ownedWorth address kv.2).sum =
      if address = w.address then walkWorth front else 0 := by
  have hone : ∀ kv ∈ front,
      ownedWorth address kv.2 = if address = w.address then worth kv.2 else 0 := by
    intro kv hkv
    change _ = if address = w.address then kv.2.nValue.toInt else 0
    rw [← ownedWorth_p2pkh, ← h.locked kv hkv]
  rw [List.map_congr_left hone]
  split
  · rfl
  · simp

section

variable (hacc : validateFullChain chain = true)
  (hpays : Pays w front recipient amount change tx) (howned : Owned w (buildUtxoSet chain) front)
include hpays howned

omit hacc in
theorem Pays.mem_buildUtxoSet {p : COutPoint} (h : p ∈ tx.prevouts) : p ∈ buildUtxoSet chain := by
  rw [hpays.prevouts] at h
  obtain ⟨kv, hkv, rfl⟩ := List.mem_map.mp h
  exact Finmap.mem_iff.mpr ⟨kv.2, howned.held kv hkv⟩

omit howned in
theorem Pays.length_vout : tx.vout.length ≤ 2 := by
  rw [hpays.vout]
  split <;> simp

include hacc in
theorem Pays.null_notMem : COutPoint.null ∉ tx.prevouts := by
  intro h
  have hnull := (exists_source_of_mem_buildUtxoSet hacc (hpays.mem_buildUtxoSet howned h)).1
  rw [COutPoint.isNull_null] at hnull
  cases hnull

section Block

variable {value : Int64} {coinbase : Transaction} (hvtx : blk.vtx = [coinbase, tx])
  (hin : coinbase.prevouts = [COutPoint.null])
  (hout : coinbase.vout = [⟨value, buildP2pkhScriptPubkey miner⟩])
include hvtx hout

omit howned in
theorem Pays.sized : ∀ t ∈ blk.vtx, t.vout.length < 2 ^ 32 := by
  intro t ht
  have htx := hpays.length_vout
  rw [hvtx] at ht
  rcases List.mem_pair.mp ht with rfl | rfl
  · rw [hout, List.length_singleton]
    decide
  · omega

include hacc hin

/-- A coinbase and a payment do not spend each other's outputs. -/
theorem Pays.independent (hfresh : FreshHashes chain blk) : Independent blk.vtx := by
  intro t ht kv hkv t' ht' hp
  rw [hvtx] at ht'
  rcases List.mem_pair.mp ht' with rfl | rfl
  · have hnull := Transaction.isNull_of_mem_outpoints (hpays.sized hvtx hout t ht) hkv
    rw [hin] at hp
    rw [List.mem_singleton.mp hp, COutPoint.isNull_null] at hnull
    cases hnull
  · obtain ⟨-, t'', ht'', hhash⟩ :=
      exists_source_of_mem_buildUtxoSet hacc (hpays.mem_buildUtxoSet howned hp)
    exact (hfresh t ht t'' ht'').1 (hhash.trans (Transaction.txid_of_mem_outpoints hkv))

omit hout in
/-- The block takes the selected outputs out of the wallet's balance. -/
theorem Pays.sum_spent (address : Address) :
    ((blk.vtx.flatMap Transaction.prevouts).map
      (valueAt (ownedWorth address) (buildUtxoSet chain))).sum =
      if address = w.address then walkWorth front else 0 := by
  have hnull : valueAt (ownedWorth address) (buildUtxoSet chain) COutPoint.null = 0 := by
    have hnone : (buildUtxoSet chain).lookup COutPoint.null = none := by
      rw [Finmap.lookup_eq_none]
      intro hmem
      have hfalse := (exists_source_of_mem_buildUtxoSet hacc hmem).1
      rw [COutPoint.isNull_null] at hfalse
      cases hfalse
    simp [valueAt, hnone]
  have hsplit : blk.vtx.flatMap Transaction.prevouts = COutPoint.null :: tx.prevouts := by
    simp [hvtx, hin]
  rw [hsplit, List.map_cons, List.sum_cons, hnull, hpays.sum_prevouts howned,
    howned.sum_ownedWorth, Int.zero_add]

omit hacc howned hin in
/-- What the two transactions pay to an address. -/
theorem Pays.sum_paid (address : Address) :
    ((blk.vtx.flatMap Transaction.vout).map (ownedWorth address)).sum =
      (if address = miner then value.toInt else 0) +
        ((if address = recipient then amount.toInt else 0) +
          if address = w.address then Ledger.outputWorth (tx.vout.drop 1) else 0) := by
  have hsplit : blk.vtx.flatMap Transaction.vout =
      ⟨value, buildP2pkhScriptPubkey miner⟩ :: tx.vout := by
    simp [hvtx, hout]
  have hchange : ((if change ≥ DUST_THRESHOLD then
      [(⟨change, buildP2pkhScriptPubkey w.address⟩ : CTxOut)] else []).map
        (ownedWorth address)).sum =
      if address = w.address then Ledger.outputWorth (if change ≥ DUST_THRESHOLD then
        [⟨change, buildP2pkhScriptPubkey w.address⟩] else []) else 0 := by
    by_cases hdust : change ≥ DUST_THRESHOLD
    · rw [if_pos hdust]
      simp [ownedWorth_p2pkh, Ledger.outputWorth, worth]
    · rw [if_neg hdust]
      simp [Ledger.outputWorth]
  rw [hsplit, hpays.vout, List.drop_one, List.tail_cons, List.map_cons, List.map_cons,
    List.sum_cons, List.sum_cons, ownedWorth_p2pkh, ownedWorth_p2pkh, hchange]

/-- A block of a coinbase and a payment moves their money and nothing else. -/
theorem Pays.balance_concat (hfresh : FreshHashes chain blk) (hcol : Collisionless blk.vtx)
    (address : Address) :
    balance address (chain ++ [blk]) - balance address chain =
      (if address = miner then value.toInt else 0) +
        ((if address = recipient then amount.toInt else 0) +
          if address = w.address then Ledger.outputWorth (tx.vout.drop 1) else 0) -
        if address = w.address then walkWorth front else 0 := by
  have hnotMem := hpays.null_notMem hacc howned
  have hne : coinbase.txHash ≠ tx.txHash := by
    intro heq
    obtain rfl := hcol coinbase (by simp [hvtx]) tx (by simp [hvtx]) heq
    exact hnotMem (by simp [hin])
  have hd : (blk.vtx.map Transaction.txHash).Nodup := by simp [hvtx, hne]
  have hspends : (blk.vtx.flatMap Transaction.prevouts).Nodup := by
    have htx : tx.prevouts.Nodup := hpays.prevouts ▸ howned.nodup
    simp [hvtx, hin, hnotMem, htx]
  rw [Ledger.balance_concat hfresh (hpays.independent hacc howned hvtx hin hout hfresh)
    (hpays.sized hvtx hout) hd hspends, hpays.sum_paid hvtx hout,
    hpays.sum_spent hacc howned hvtx hin]

end Block

end

/-- On an accepted chain, a wallet whose outputs cover a payment gets it built; the block mined
from it holds it, and moves exactly its money between payer, recipient and miner. -/
theorem payment_moves_money (hacc : validateFullChain chain = true) (hkey : KeyWorks w)
    {kvs : List (COutPoint × CTxOut)}
    (hwalk : Enumerates (filterUtxosByAddress (buildUtxoSet chain) w.address) kvs)
    (hvalues : ∀ kv ∈ kvs, 0 ≤ kv.2.nValue)
    (hfits : balance w.address chain +
      (calculateBlockReward (UInt32.ofNat chain.length)).toInt < 2 ^ 63)
    {amount fee : Int64} (hamount : 0 < amount) (hfee : 0 ≤ fee)
    (hcover : amount.toInt + fee.toInt ≤ balance w.address chain) (recipient miner : Address) :
    (∃ tx, w.createTransaction kvs recipient amount fee = .ok tx) ∧
      ∀ tx, w.createTransaction kvs recipient amount fee = .ok tx →
        ∀ fuel clock blk, mineOnto fuel clock chain miner [tx] = some blk →
          FreshHashes chain blk → Collisionless blk.vtx →
          tx ∈ blk.vtx ∧ ∀ address, balance address (chain ++ [blk]) - balance address chain =
            paymentDelta chain w.address recipient miner amount tx address := by
  have htotal : balance w.address chain = walkWorth kvs := total_of_enumerates hwalk
  have hreward := calculateBlockReward_nonneg (UInt32.ofNat chain.length)
  have hcovers : Covers kvs amount fee := ⟨hvalues, by omega, hamount, hfee, by omega⟩
  obtain ⟨front, back, heq, hfront, hspec, hexists⟩ :=
    @createTransaction_spec _ w kvs recipient amount fee hcovers
  refine ⟨hexists fun sighash ↦ hkey.signs _, fun tx htx fuel clock blk hmined hfresh hcol ↦ ?_⟩
  have hpays := hspec tx htx
  have howned := owned_of_enumerates hwalk heq
  obtain ⟨hamountPos, hfeeNonneg⟩ := hcovers.toInt_bounds
  have hle := (hcovers.walkWorth_le heq).2
  have hpaid := hpays.outputWorth
  rw [hcovers.toInt_change heq hfront] at hpaid
  obtain ⟨hpos, hless⟩ : 0 ≤ outputWorth tx.vout ∧ outputWorth tx.vout ≤ walkWorth front := by
    split at hpaid <;> omega
  have hne : front ≠ [] := by
    rintro rfl
    simp only [walkWorth, List.map_nil, List.sum_nil] at hfront
    omega
  obtain ⟨hfeePos, hfeeEq⟩ := hpays.fee hkey howned hne hpos hless (by omega)
  obtain ⟨hextra, hfees⟩ := selectMempool_singleton hfeePos
  obtain ⟨-, hbuilt⟩ := mineOnto_spec hmined
  have hvtx := hbuilt.vtx
  rw [hextra, hfees, hfeeEq, extractHeaders, List.length_map] at hvtx
  refine ⟨by simp [hvtx], fun address ↦ ?_⟩
  have hin : inputWorth tx (buildUtxoSet chain) = walkWorth front :=
    hpays.sum_prevouts howned worth
  have hvalue : (calculateBlockReward (UInt32.ofNat chain.length) +
      Int64.ofInt (walkWorth front - outputWorth tx.vout)).toInt =
        (calculateBlockReward (UInt32.ofNat chain.length)).toInt +
          (walkWorth front - outputWorth tx.vout) := by
    apply toInt_add_ofInt
    · omega
    · omega
  rw [hpays.balance_concat hacc howned hvtx rfl rfl hfresh hcol address, paymentDelta, hin, hvalue]
  split_ifs <;> omega

end

/-! ## A wallet with the secret key one -/

/-- Public key of the secret key one. -/
def payerPubkey : List.Vector UInt8 33 :=
  2 ::ᵥ Hash256.ofBigEndian 0x79be667ef9dcbbac55a06295ce870b07029bfcdb2dce28d959f2815b16f81798

/-- Its address. -/
def payerAddress : Address :=
  ⟨Picosha2.bigEndian 20 0x751e76e8199196d454941c45d1b3a323f1433bd6, by
    simp [Picosha2.bigEndian]⟩

/-- Its signature of the one message hash that `paymentTx` asks for; zeros for other hashes. -/
def payerSign (messageHash : Hash256) : List.Vector UInt8 64 :=
  if messageHash =
      .ofBigEndian 0x804e57314c459941ae7361395c1b412e027d11ecf750e729f5e58f0f8aef34b9 then
    ⟨Picosha2.bigEndian 64
      (0xb1996484fbe149a070a19008dfc4ac450bd173856399d2005c523bc261808e4c * 2 ^ 256 +
        0x16ffdfc597d96edf616ad91f0c81fccea23e4a544999b5071771459a3d78a837), by
      simp [Picosha2.bigEndian]⟩
  else List.Vector.replicate 64 0

/-- SHA-256 as the node computes it, and what RIPEMD-160 and secp256k1 return for the secret key
one and `paymentTx`. -/
@[reducible] def payerCrypto : SigningCrypto where
  hashSha256 := Picosha2.hash256
  hashRipemd160 _ := payerAddress
  ecdsaSignatureParseCompact signature := signature.length = 64
  ecPubkeyParse pubkey := pubkey = payerPubkey.toList
  ecdsaVerify signature messageHash _ := signature = (payerSign messageHash).toList
  ecSeckeyVerify _ := true
  ecPubkeyCreate _ := some payerPubkey
  ecdsaSign messageHash _ := some (payerSign messageHash)

/-- The wallet of the secret key one. -/
def payerWallet : @Wallet payerCrypto :=
  @Wallet.mk payerCrypto (Hash256.ofBigEndian 1) payerPubkey payerAddress rfl rfl rfl

/-- Pays the first reward to the wallet. -/
def payerRewardTx : Transaction where
  nVersion := 1
  vin := [⟨COutPoint.null, [0, 0, 0, 0], 0xFFFFFFFF⟩]
  vout := [⟨5000000000, buildP2pkhScriptPubkey payerAddress⟩]
  nLockTime := 0
  txHash := .ofBigEndian 0x9a967b96d6ce4ef2c4e4b27cf913b71d9b86815c2267c93515a8572f7f1171d0

def payerGenesis : CBlock where
  nVersion := 1
  hashPrevBlock := Hash256.zero
  hashMerkleRoot := payerRewardTx.txHash
  nTime := 1700000000
  nBits := INITIAL_BITS
  nNonce := 0
  vtx := [payerRewardTx]

/-- The wallet pays 20 coins to the all-zero address with a fee of 1000. -/
def paymentTx : Transaction where
  nVersion := 1
  vin := [⟨⟨payerRewardTx.txHash, 0⟩,
    buildScriptSig (payerSign (.ofBigEndian
      0x804e57314c459941ae7361395c1b412e027d11ecf750e729f5e58f0f8aef34b9)).toList
      payerPubkey.toList, 0xFFFFFFFF⟩]
  vout := [⟨2000000000, buildP2pkhScriptPubkey zeroAddress⟩,
    ⟨2999999000, buildP2pkhScriptPubkey payerAddress⟩]
  nLockTime := 0
  txHash := .ofBigEndian 0xfa83f77102b5dd6477b0ddeb5fff3925843b841ab63829a0c12ca46a4f2f2636

/-- The coinbase for its fee at height one, paid to the wallet. -/
def paymentCoinbaseTx : Transaction where
  nVersion := 1
  vin := [⟨COutPoint.null, [1, 0, 0, 0], 0xFFFFFFFF⟩]
  vout := [⟨5000001000, buildP2pkhScriptPubkey payerAddress⟩]
  nLockTime := 0
  txHash := .ofBigEndian 0x3dac28fdb03da37d6e345f9da6a0ec0ac75fd7ff0769bb8517b528edd3ed9a2f

/-- The block the wallet's owner mines with the payment pending. -/
def paymentBlock : CBlock where
  nVersion := 1
  hashPrevBlock :=
    .ofBigEndian 0x707b2dfc571ac543ca8e6647e19f0a71b24730a3fb1ce7dd8237bc1fcbb1fa50
  hashMerkleRoot :=
    .ofBigEndian 0x895d4405ea655f2430990f478809bacd9a1dd794a5f1981e3eef7d2faf38e0e8
  nTime := 1700000020
  nBits := INITIAL_BITS
  nNonce := 0
  vtx := [paymentCoinbaseTx, paymentTx]

/-- The one output of the wallet after its genesis block. -/
def payerOutputs : List (COutPoint × CTxOut) :=
  [(⟨payerRewardTx.txHash, 0⟩, ⟨5000000000, buildP2pkhScriptPubkey payerAddress⟩)]

theorem keyWorks_payerWallet : @KeyWorks payerCrypto payerWallet := by
  refine @KeyWorks.mk payerCrypto payerWallet (fun messageHash ↦ ?_)
    (fun messageHash signature h ↦ ?_)
  · exact Option.some_ne_none _
  · obtain rfl := Option.some.inj h
    have hparse : @Crypto.ecdsaSignatureParseCompact payerCrypto.toCrypto
        (payerSign messageHash).toList = true :=
      decide_eq_true (List.Vector.toList_length _)
    have hpubkey : @Crypto.ecPubkeyParse payerCrypto.toCrypto payerPubkey.toList = true :=
      decide_eq_true rfl
    have hverify : @Crypto.ecdsaVerify payerCrypto.toCrypto (payerSign messageHash).toList
        messageHash payerPubkey.toList = true :=
      decide_eq_true rfl
    change @verifySign payerCrypto.toCrypto (payerSign messageHash).toList payerPubkey.toList
      messageHash = true
    simp only [verifySign, hparse, hpubkey]
    exact hverify

theorem validateFullChain_payerGenesis :
    @validateFullChain payerCrypto.toCrypto [payerGenesis] = true := by
  decide +kernel

theorem enumerates_payerOutputs :
    Enumerates (filterUtxosByAddress (buildUtxoSet [payerGenesis])
      (@Wallet.address payerCrypto payerWallet)) payerOutputs := by
  have hset : filterUtxosByAddress (buildUtxoSet [payerGenesis]) payerAddress =
      emplaceAll ∅ payerOutputs := by
    decide +kernel
  change Enumerates (filterUtxosByAddress (buildUtxoSet [payerGenesis]) payerAddress) payerOutputs
  rw [hset]
  exact enumerates_emplaceAll (by simp [payerOutputs])

theorem createTransaction_paymentTx :
    @Wallet.createTransaction payerCrypto payerWallet payerOutputs zeroAddress 2000000000 1000 =
      .ok paymentTx := by
  decide +kernel

theorem mineOnto_paymentBlock :
    @mineOnto payerCrypto.toCrypto 1 1700000020 [payerGenesis] payerAddress [paymentTx] =
      some paymentBlock := by
  decide +kernel

theorem freshHashes_paymentBlock : FreshHashes [payerGenesis] paymentBlock := by
  intro tx htx tx' htx'
  revert tx tx'
  decide +kernel

theorem collisionless_paymentBlock : Collisionless paymentBlock.vtx := by
  decide +kernel

private theorem balance_payerAddress : balance payerAddress [payerGenesis] = 5000000000 := by
  decide +kernel

/-- The payment that the wallet's owner mines. -/
theorem payment_moves_money_paymentBlock :
    paymentTx ∈ paymentBlock.vtx ∧ ∀ address,
      balance address ([payerGenesis] ++ [paymentBlock]) - balance address [payerGenesis] =
        paymentDelta [payerGenesis] payerAddress zeroAddress payerAddress 2000000000 paymentTx
          address := by
  have hfits : balance payerAddress [payerGenesis] +
      (calculateBlockReward (UInt32.ofNat [payerGenesis].length)).toInt < 2 ^ 63 := by
    rw [balance_payerAddress]
    decide
  have hcover : (2000000000 : Int64).toInt + (1000 : Int64).toInt ≤
      balance payerAddress [payerGenesis] := by
    rw [balance_payerAddress]
    decide
  exact (@payment_moves_money payerCrypto [payerGenesis] payerWallet validateFullChain_payerGenesis
    keyWorks_payerWallet payerOutputs enumerates_payerOutputs (by decide) hfits 2000000000 1000
    (by decide) (by decide) hcover zeroAddress payerAddress).2 paymentTx
    createTransaction_paymentTx 1 1700000020 paymentBlock mineOnto_paymentBlock
    freshHashes_paymentBlock collisionless_paymentBlock

end Siliqua.Ledger
