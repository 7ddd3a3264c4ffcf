import Siliqua.Core.Transaction
import Siliqua.Wallet.Script

/-!
# The wallet

`wallet/wallet.h`: a key pair with its address, the payments it builds and signs, and the check
of an input against the output it spends.
-/

namespace Siliqua.Wallet

open Siliqua.Core

-- The class has the name of its namespace.
set_option linter.dupNamespace false

/-- Change below this is not paid out; `wallet.h:24`. -/
def DUST_THRESHOLD : Int64 := 1000

/-- The selection loop over a walk through the available outputs: their outpoints and total until
the total reaches the target; `wallet.h:63–71`. -/
def selectCoins (target : Int64) :
    List (COutPoint × CTxOut) → List COutPoint → Int64 → List COutPoint × Int64
  | [], selected, selectedTotal => (selected, selectedTotal)
  | (outpoint, txout) :: rest, selected, selectedTotal =>
    let selected := selected ++ [outpoint]
    let selectedTotal := selectedTotal + txout.nValue
    if selectedTotal ≥ target then (selected, selectedTotal)
    else selectCoins target rest selected selectedTotal

section

variable [SigningCrypto]

/-- A key pair and its address, as the constructors leave them; `wallet.h:27–43,100–117`. -/
structure Wallet where
  seckey : SecretKey
  compressedPubkey : List.Vector UInt8 33
  address : Address
  verified : SigningCrypto.ecSeckeyVerify seckey = true
  derived : SigningCrypto.ecPubkeyCreate seckey = some compressedPubkey
  addressed : address = createAddressFromPubkey compressedPubkey.toList

namespace Wallet

/-- `wallet.h:41–43,101–117`. -/
def fromSeckey (seckey : SecretKey) : Except String Wallet :=
  if hv : SigningCrypto.ecSeckeyVerify seckey then
    match hp : SigningCrypto.ecPubkeyCreate seckey with
    | none => .error "Wallet: failed to derive pubkey"
    | some pubkey => .ok ⟨seckey, pubkey, createAddressFromPubkey pubkey.toList, hv, hp, rfl⟩
  else .error "Wallet: invalid seckey"

/-- A saved secret key restores the wallet it came from. -/
theorem fromSeckey_eq_ok_iff {seckey : SecretKey} {w : Wallet} :
    fromSeckey seckey = .ok w ↔ w.seckey = seckey := by
  constructor
  · intro h
    unfold fromSeckey at h
    split at h
    · split at h
      · cases h
      · cases h
        rfl
    · cases h
  · rintro rfl
    obtain ⟨seckey, pubkey, address, hv, hp, rfl⟩ := w
    unfold fromSeckey
    rw [dif_pos hv]
    split
    · next hnone => rw [hp] at hnone; cases hnone
    · next pubkey' hsome =>
      obtain rfl : pubkey = pubkey' := Option.some.inj (hp.symm.trans hsome)
      rfl

/-- Signature over the hash of the transaction as it is, and the public key; `none` where
`sign_raw` throws. `wallet.h:122–127`. -/
def sign (w : Wallet) (tx : Transaction) : Option Bytes :=
  (signRaw w.seckey tx.getHash).map fun signature ↦
    buildScriptSig signature.toList w.compressedPubkey.toList

/-- `wallet.h:61–98`. The available outputs come as a walk through the hash table, in whatever
order it has. -/
def createTransaction (w : Wallet) (availableUtxos : List (COutPoint × CTxOut))
    (recipientAddress : Address) (amount fee : Int64) : Except String Transaction :=
  let (selected, selectedTotal) := selectCoins (amount + fee) availableUtxos [] 0
  if selectedTotal < amount + fee then
    .error "Wallet::CreateTransaction: insufficient funds"
  else
    let inputs : List CTxIn := selected.map fun outpoint ↦ ⟨outpoint, [], 0xFFFFFFFF⟩
    let change := selectedTotal - amount - fee
    let outputs : List CTxOut := ⟨amount, buildP2pkhScriptPubkey recipientAddress⟩ ::
      if change ≥ DUST_THRESHOLD then [⟨change, buildP2pkhScriptPubkey w.address⟩] else []
    let tx : Transaction := ⟨1, inputs, outputs, 0, Hash256.zero⟩
    match w.sign tx with
    | none => .error "sign_raw: signing failed"
    | some scriptSig =>
      let tx : Transaction :=
        { tx with vin := tx.vin.map fun txin ↦ { txin with scriptSig := scriptSig } }
      .ok { tx with txHash := tx.getHash }

end Wallet

end

variable [Crypto]

/-- The transaction with every `scriptSig` cleared; `wallet.h:148–151`. -/
def unsignedTx (tx : Transaction) : Transaction :=
  { tx with vin := tx.vin.map fun txin ↦ { txin with scriptSig := [] } }

/-- The hash every input's signature covers; `wallet.h:152`. -/
def sighash (tx : Transaction) : Hash256 := (unsignedTx tx).getHash

/-- `wallet.h:143–155`. -/
def verifyTransactionSignature (tx : Transaction) (inputIndex : Nat)
    (expectedScriptPubKey : Bytes) : Bool :=
  match tx.vin[inputIndex]? with
  | none => false
  | some txin => evaluate txin.scriptSig expectedScriptPubKey (sighash tx)

end Siliqua.Wallet
