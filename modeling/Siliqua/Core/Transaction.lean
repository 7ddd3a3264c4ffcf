import Siliqua.Base.KeyedStore
import Siliqua.Core.Serializer

/-!
# Transactions

`core/transaction.h` and `core/transaction.cpp`: outpoints, inputs, outputs, transactions,
their byte format and the UTXO map. The cached `txHash` is a field like any other; only
decoding and the wallet and coinbase builders set it to `getHash`.
-/

namespace Siliqua.Core

open ByteDecoder

/-- Which output of which transaction; `transaction.h:13–51`. -/
structure COutPoint where
  txid : Hash256
  n : UInt32
  deriving DecidableEq

/-- Transaction input; `transaction.h:65–84`. -/
structure CTxIn where
  prevout : COutPoint
  scriptSig : Bytes
  nSequence : UInt32
  deriving DecidableEq

/-- Transaction output; `transaction.h:87–106`. -/
structure CTxOut where
  nValue : Int64
  scriptPubKey : Bytes
  deriving DecidableEq

/-- Transaction; `transaction.h:112–142`. -/
structure Transaction where
  nVersion : Int32
  vin : List CTxIn
  vout : List CTxOut
  nLockTime : UInt32
  txHash : Hash256
  deriving DecidableEq

/-- Outpoint to unspent output; `transaction.h:110`. The hash table's iteration order plays no
part in lookup, insertion and erasure, so the map itself is the model. -/
abbrev UtxoSet := KeyedStore.Store COutPoint CTxOut

namespace COutPoint

/-- The default-constructed outpoint; `transaction.h:17–19`. -/
def null : COutPoint := ⟨Hash256.zero, 0xFFFFFFFF⟩

/-- All-zero hash and the largest index; `transaction.cpp:10–14`. -/
def isNull (o : COutPoint) : Bool := o.n == 0xFFFFFFFF && o.txid.toList.all (· == 0)

theorem isNull_null : null.isNull = true := by decide

/-- `transaction.cpp:16–21`. -/
def serialize (o : COutPoint) : Bytes := writeUint32LE (writeBytes [] o.txid.toList) o.n

/-- `transaction.cpp:23–28`. -/
def deserialize : Decoder COutPoint := do
  let txid ← readBytes32
  let n ← readUint32LE
  pure ⟨txid, n⟩

end COutPoint

namespace CTxIn

/-- `transaction.cpp:41–58`. -/
def serialize (txin : CTxIn) : Bytes :=
  let buffer := txin.prevout.serialize
  let buffer := writeVarInt32 buffer txin.scriptSig.length
  let buffer := writeBytes buffer txin.scriptSig
  writeUint32LE buffer txin.nSequence

/-- `transaction.cpp:60–67`. -/
def deserialize : Decoder CTxIn := do
  let prevout ← COutPoint.deserialize
  let scriptLen ← readVarInt32
  let scriptSig ← readBytes scriptLen.toNat
  let nSequence ← readUint32LE
  pure ⟨prevout, scriptSig, nSequence⟩

end CTxIn

namespace CTxOut

/-- `transaction.cpp:69–81`. -/
def serialize (txout : CTxOut) : Bytes :=
  let buffer := writeUint64LE [] txout.nValue.toUInt64
  let buffer := writeVarInt32 buffer txout.scriptPubKey.length
  writeBytes buffer txout.scriptPubKey

/-- `transaction.cpp:83–89`. -/
def deserialize : Decoder CTxOut := do
  let nValue ← readUint64LE
  let scriptLen ← readVarInt32
  let scriptPubKey ← readBytes scriptLen.toNat
  pure ⟨nValue.toInt64, scriptPubKey⟩

end CTxOut

namespace Transaction

/-- `transaction.cpp:91–119`. -/
def serialize (tx : Transaction) : Bytes :=
  let buffer := writeUint32LE [] tx.nVersion.toUInt32
  let buffer := writeVarInt32 buffer tx.vin.length
  let buffer := buffer ++ tx.vin.flatMap CTxIn.serialize
  let buffer := writeVarInt32 buffer tx.vout.length
  let buffer := buffer ++ tx.vout.flatMap CTxOut.serialize
  writeUint32LE buffer tx.nLockTime

/-- No inputs, or a null first one; `transaction.cpp:153–155`. -/
def isCoinbase (tx : Transaction) : Bool :=
  match tx.vin with
  | [] => true
  | txin :: _ => txin.prevout.isNull

/-- The outpoints the inputs name, in order. -/
def prevouts (tx : Transaction) : List COutPoint := tx.vin.map CTxIn.prevout

/-- The outputs under the outpoints `COutPoint(tx.tx_hash, i)` that the loops over `vout`
give them. -/
def outpoints (tx : Transaction) : List (COutPoint × CTxOut) :=
  tx.vout.mapIdx fun i out ↦ (⟨tx.txHash, UInt32.ofNat i⟩, out)

variable [Crypto]

/-- Double SHA-256 of the serialized transaction; `transaction.cpp:144–151`. -/
def getHash (tx : Transaction) : Hash256 := hashDoubleSha256 tx.serialize

/-- `transaction.cpp:121–142`; `txHash` is recomputed from the decoded fields. `reserve` may
fail for a huge count, but then the counted elements are not all in the buffer either. -/
def deserialize : Decoder Transaction := do
  let nVersion ← readUint32LE
  let vinCount ← readVarInt32
  let vin ← Decoder.many CTxIn.deserialize vinCount.toNat
  let voutCount ← readVarInt32
  let vout ← Decoder.many CTxOut.deserialize voutCount.toNat
  let nLockTime ← readUint32LE
  let tx : Transaction := ⟨nVersion.toInt32, vin, vout, nLockTime, Hash256.zero⟩
  pure { tx with txHash := tx.getHash }

end Transaction

/-! ## Decoded transactions -/

/-- The transaction came out of a buffer. -/
def Transaction.Decoded [Crypto] (tx : Transaction) : Prop :=
  ∃ input offset next, Transaction.deserialize input offset = .ok (tx, next)

/-- A decoded transaction carries its hash, and a 32-bit count of outputs. -/
theorem Transaction.Decoded.spec [Crypto] {tx : Transaction} (h : tx.Decoded) :
    tx.txHash = tx.getHash ∧ tx.vout.length < 2 ^ 32 := by
  obtain ⟨input, offset, next, h⟩ := h
  unfold Transaction.deserialize at h
  obtain ⟨_, _, _, h⟩ := Decoder.bind_eq_ok_iff.mp h
  obtain ⟨_, _, _, h⟩ := Decoder.bind_eq_ok_iff.mp h
  obtain ⟨_, _, _, h⟩ := Decoder.bind_eq_ok_iff.mp h
  obtain ⟨voutCount, _, _, h⟩ := Decoder.bind_eq_ok_iff.mp h
  obtain ⟨vout, _, hvout, h⟩ := Decoder.bind_eq_ok_iff.mp h
  obtain ⟨_, _, _, h⟩ := Decoder.bind_eq_ok_iff.mp h
  obtain ⟨rfl, -⟩ := Decoder.pure_eq_ok_iff.mp h
  have hlen := Decoder.length_of_many_eq_ok hvout
  have hlt := voutCount.toNat_lt
  exact ⟨rfl, by dsimp only; omega⟩

/-! ## Outpoints of a transaction -/

namespace Transaction

variable {tx : Transaction}

/-- The bindings of a transaction are its outputs under their positions. -/
theorem mem_outpoints {kv : COutPoint × CTxOut} :
    kv ∈ tx.outpoints ↔
      ∃ (i : Nat) (h : i < tx.vout.length), (⟨tx.txHash, UInt32.ofNat i⟩, tx.vout[i]) = kv := by
  rw [outpoints, List.mem_mapIdx]

/-- Every outpoint of a transaction carries its hash. -/
theorem txid_of_mem_outpoints {kv : COutPoint × CTxOut} (h : kv ∈ tx.outpoints) :
    kv.1.txid = tx.txHash := by
  obtain ⟨i, hi, rfl⟩ := mem_outpoints.mp h
  rfl

/-- Transactions that create one outpoint have one hash. -/
theorem txHash_eq_of_outpoint {tx tx' : Transaction} {p : COutPoint}
    (hp : p ∈ tx.outpoints.map Prod.fst) (hp' : p ∈ tx'.outpoints.map Prod.fst) :
    tx.txHash = tx'.txHash := by
  obtain ⟨kv, hkv, rfl⟩ := List.mem_map.mp hp
  obtain ⟨kv', hkv', heq⟩ := List.mem_map.mp hp'
  rw [← txid_of_mem_outpoints hkv, ← txid_of_mem_outpoints hkv', heq]

/-- The outputs behind the outpoints are the outputs of the transaction. -/
theorem map_snd_outpoints : tx.outpoints.map Prod.snd = tx.vout := by
  apply List.ext_getElem
  · simp [outpoints]
  · intro i h h'
    simp [outpoints]

private theorem toNat_ofNat_index {i : Nat} (h : tx.vout.length < 2 ^ 32)
    (hi : i < tx.vout.length) : (UInt32.ofNat i).toNat = i := by
  rw [UInt32.toNat_ofNat', Nat.mod_eq_of_lt (by omega)]

/-- Fewer than `2^32` outputs have pairwise different outpoints. -/
theorem nodup_outpoints (h : tx.vout.length < 2 ^ 32) : (tx.outpoints.map Prod.fst).Nodup := by
  rw [List.nodup_iff_injective_getElem]
  rintro ⟨i, hi⟩ ⟨j, hj⟩ heq
  have hi' : i < tx.vout.length := by simpa [outpoints] using hi
  have hj' : j < tx.vout.length := by simpa [outpoints] using hj
  simp only [outpoints, List.getElem_map, List.getElem_mapIdx, COutPoint.mk.injEq, true_and] at heq
  have hnat := congrArg UInt32.toNat heq
  rw [toNat_ofNat_index h hi', toNat_ofNat_index h hj'] at hnat
  exact Fin.ext hnat

/-- An outpoint of fewer than `2^32` outputs names one output. -/
theorem outpoints_functional (h : tx.vout.length < 2 ^ 32) {p : COutPoint} {out out' : CTxOut}
    (hm : (p, out) ∈ tx.outpoints) (hm' : (p, out') ∈ tx.outpoints) : out = out' := by
  obtain ⟨i, hi, heq⟩ := mem_outpoints.mp hm
  obtain ⟨j, hj, heq'⟩ := mem_outpoints.mp hm'
  obtain ⟨rfl, rfl⟩ := Prod.mk.inj heq
  obtain ⟨hp, rfl⟩ := Prod.mk.inj heq'
  have hnat := congrArg (fun p ↦ p.n.toNat) hp
  dsimp only at hnat
  rw [toNat_ofNat_index h hi, toNat_ofNat_index h hj] at hnat
  simp only [hnat]

/-- No outpoint of fewer than `2^32` outputs is null. -/
theorem isNull_of_mem_outpoints (h : tx.vout.length < 2 ^ 32) {kv : COutPoint × CTxOut}
    (hm : kv ∈ tx.outpoints) : kv.1.isNull = false := by
  obtain ⟨i, hi, rfl⟩ := mem_outpoints.mp hm
  have hn : UInt32.ofNat i ≠ 0xFFFFFFFF := by
    intro heq
    have hnat := congrArg UInt32.toNat heq
    rw [toNat_ofNat_index h hi] at hnat
    have hmax : (0xFFFFFFFF : UInt32).toNat = 4294967295 := rfl
    omega
  have hb : (UInt32.ofNat i == 0xFFFFFFFF) = false := beq_eq_false_iff_ne.mpr hn
  simp [COutPoint.isNull, hb]

/-- A transaction that does not look like a coinbase has a first input, and it is not null. -/
theorem exists_head_of_not_isCoinbase (h : tx.isCoinbase = false) :
    ∃ txin rest, tx.vin = txin :: rest ∧ txin.prevout.isNull = false := by
  unfold isCoinbase at h
  split at h
  · cases h
  · next txin rest hv => exact ⟨txin, rest, hv, h⟩

end Transaction

end Siliqua.Core
