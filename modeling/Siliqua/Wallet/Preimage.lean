import Siliqua.Core.Codec
import Siliqua.Crypto.Picosha2
import Siliqua.Wallet.Wallet

/-!
# What a signature covers

`verify_transaction_signature` hashes the transaction with every `scriptSig` cleared. Two
transactions hash the same bytes exactly if they are the same payment, so that a signature for one
payment fits another only where a hash function collides.
-/

namespace Siliqua.Wallet

open Siliqua.Core ByteDecoder.Decoder

/-- The bytes that `verify_transaction_signature` hashes. -/
def preimage (tx : Transaction) : Bytes := (unsignedTx tx).serialize

/-- Lists and locking scripts fit their 32-bit counts. -/
structure Sized (tx : Transaction) : Prop where
  vin_lt : tx.vin.length < 2 ^ 32
  vout_lt : tx.vout.length < 2 ^ 32
  vout : ∀ txout ∈ tx.vout, txout.scriptPubKey.length < 2 ^ 32

/-- The transactions agree in everything but their `scriptSig`s and cached hashes. -/
structure SamePayment (tx tx' : Transaction) : Prop where
  nVersion : tx.nVersion = tx'.nVersion
  vin : tx.vin.map (fun txin ↦ (txin.prevout, txin.nSequence)) =
    tx'.vin.map (fun txin ↦ (txin.prevout, txin.nSequence))
  vout : tx.vout = tx'.vout
  nLockTime : tx.nLockTime = tx'.nLockTime

/-- Different inputs with one hash. -/
def Collides (hash : Bytes → Hash256) (x y : Bytes) : Prop := x ≠ y ∧ hash x = hash y

/-- Equal hashes have equal inputs, or collide. -/
theorem hash_eq_iff (hash : Bytes → Hash256) {x y : Bytes} :
    hash x = hash y ↔ x = y ∨ Collides hash x y := by
  by_cases h : x = y
  · simp [h]
  · simp [h, Collides]

/-! ## The bytes -/

section

variable {tx tx' : Transaction}

/-- Clearing forgets the `scriptSig`s and nothing else. -/
theorem unsignedTx_vin_eq_iff :
    (unsignedTx tx).vin = (unsignedTx tx').vin ↔
      tx.vin.map (fun txin ↦ (txin.prevout, txin.nSequence)) =
        tx'.vin.map (fun txin ↦ (txin.prevout, txin.nSequence)) := by
  constructor
  · intro h
    have hpairs := congrArg (List.map fun txin : CTxIn ↦ (txin.prevout, txin.nSequence)) h
    simpa [unsignedTx, Function.comp_def] using hpairs
  · intro h
    have hcleared := congrArg (List.map fun p ↦ CTxIn.mk p.1 [] p.2) h
    simpa [unsignedTx, Function.comp_def] using hcleared

variable [Crypto]

/-- A cleared transaction with the hash it has as it stands. -/
private def hashed (tx : Transaction) : Transaction :=
  { unsignedTx tx with txHash := (unsignedTx tx).getHash }

private theorem encodable_hashed (h : Sized tx) : (hashed tx).Encodable := by
  refine ⟨?_, fun txin htxin ↦ ?_, h.vout_lt, h.vout, rfl⟩
  · show (tx.vin.map _).length < _
    rw [List.length_map]
    exact h.vin_lt
  · obtain ⟨signed, -, rfl⟩ := List.mem_map.mp htxin
    show 0 < _
    decide

private theorem hashed_eq_iff : hashed tx = hashed tx' ↔ SamePayment tx tx' := by
  constructor
  · intro h
    rw [hashed, hashed, Transaction.mk.injEq] at h
    obtain ⟨hversion, hvin, hvout, hlock, -⟩ := h
    exact ⟨hversion, unsignedTx_vin_eq_iff.mp hvin, hvout, hlock⟩
  · intro h
    have hvin := unsignedTx_vin_eq_iff.mpr h.vin
    have hcleared : ({ unsignedTx tx with txHash := Hash256.zero } : Transaction) =
        { unsignedTx tx' with txHash := Hash256.zero } := by
      rw [Transaction.mk.injEq]
      exact ⟨h.nVersion, hvin, h.vout, h.nLockTime, rfl⟩
    exact congrArg (fun cleared ↦ { cleared with txHash := cleared.getHash }) hcleared

/-- Equal bytes are hashed for equal payments and no others. -/
theorem preimage_eq_iff (h : Sized tx) (h' : Sized tx') :
    preimage tx = preimage tx' ↔ SamePayment tx tx' := by
  rw [← hashed_eq_iff]
  exact Transaction.codec.encode_inj (encodable_hashed h) (encodable_hashed h')

end

/-! ## The hex form -/

private def hexValue (c : UInt8) : UInt8 := if c < 58 then c - 48 else c - 87

private theorem hexValue_hexDigit (b : UInt8) :
    hexValue (hexDigit (b >>> 4)) * 16 + hexValue (hexDigit (b &&& 15)) = b := by
  have hall : ∀ n : Fin 256, let b := UInt8.ofNat n
      hexValue (hexDigit (b >>> 4)) * 16 + hexValue (hexDigit (b &&& 15)) = b := by
    decide +kernel
  have hb := hall ⟨b.toNat, b.toNat_lt⟩
  simpa using hb

/-- The hex form determines the bytes. -/
theorem bytesToHex_inj {x y : Bytes} : bytesToHex x = bytesToHex y ↔ x = y := by
  constructor
  · intro h
    induction x generalizing y with
    | nil =>
      cases y with
      | nil => rfl
      | cons c y => cases h
    | cons b x ih =>
      cases y with
      | nil => cases h
      | cons c y =>
        simp only [bytesToHex, List.flatMap_cons, List.cons_append, List.nil_append,
          List.cons.injEq] at h
        obtain ⟨hhigh, hlow, hrest⟩ := h
        rw [ih hrest, ← hexValue_hexDigit b, hhigh, hlow, hexValue_hexDigit]
  · exact fun h ↦ congrArg bytesToHex h

/-! ## The hashes -/

section

variable [Crypto]

/-- A signature binds the whole payment: the bytes hashed are equal exactly for the same payment;
so are the sighashes and the message hashes, up to collisions of the two hash functions. -/
theorem signature_binds_payment {tx tx' : Transaction} (h : Sized tx) (h' : Sized tx') :
    (preimage tx = preimage tx' ↔ SamePayment tx tx') ∧
    (sighash tx = sighash tx' ↔
      SamePayment tx tx' ∨ Collides hashDoubleSha256 (preimage tx) (preimage tx')) ∧
    (sighashToMessageHash (sighash tx) = sighashToMessageHash (sighash tx') ↔
      SamePayment tx tx' ∨ Collides hashDoubleSha256 (preimage tx) (preimage tx') ∨
        Collides Crypto.hashSha256 (bytesToHex (sighash tx).toList)
          (bytesToHex (sighash tx').toList)) := by
  have hsighash : sighash tx = sighash tx' ↔
      SamePayment tx tx' ∨ Collides hashDoubleSha256 (preimage tx) (preimage tx') := by
    rw [← preimage_eq_iff h h']
    exact hash_eq_iff hashDoubleSha256
  have hlist : (sighash tx).toList = (sighash tx').toList ↔ sighash tx = sighash tx' :=
    Subtype.ext_iff.symm
  refine ⟨preimage_eq_iff h h', hsighash, ?_⟩
  rw [← or_assoc, ← hsighash, sighashToMessageHash, sighashToMessageHash,
    hash_eq_iff Crypto.hashSha256, bytesToHex_inj, hlist]

end

/-- A payment of five to anyone with a `scriptSig` of one byte. -/
def signedWith (b : UInt8) : Transaction where
  nVersion := 1
  vin := [⟨COutPoint.null, [b], 0xFFFFFFFF⟩]
  vout := [⟨5, [1, 1]⟩]
  nLockTime := 0
  txHash := Hash256.zero

private theorem sized_signedWith (b : UInt8) : Sized (signedWith b) := by
  refine ⟨?_, ?_, fun txout htxout ↦ ?_⟩
  · show 1 < _
    decide
  · show 1 < _
    decide
  · obtain rfl := List.mem_singleton.mp htxout
    show 2 < _
    decide

/-- Another `scriptSig` leaves the sighash as it is. -/
theorem signature_binds_payment_signedWith :
    @sighash keylessCrypto (signedWith 0) = @sighash keylessCrypto (signedWith 1) :=
  (@signature_binds_payment keylessCrypto _ _ (sized_signedWith 0) (sized_signedWith 1)).2.1.mpr
    (.inl ⟨rfl, rfl, rfl, rfl⟩)

end Siliqua.Wallet
