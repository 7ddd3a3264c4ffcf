import Siliqua.Core.Block

/-!
# Persisted encodings

`storage/storage.h`: the chain file, the UTXO file and the mempool file, without the file
system. Each is a count followed by its elements.
-/

namespace Siliqua.Storage

open ByteDecoder Siliqua.Core KeyedStore

/-- `storage.h:51–59`; the content of the chain file and of a `chain` message. -/
def serializeChain (chain : List CBlock) : Bytes :=
  writeVarInt32 [] chain.length ++ chain.flatMap CBlock.serialize

/-- One entry of the UTXO file; `storage.h:112–115`. -/
def serializeEntry (entry : COutPoint × CTxOut) : Bytes :=
  entry.1.serialize ++ entry.2.serialize

/-- `storage.h:106–120`; the content of the UTXO file, for the order in which the hash table
is iterated. -/
def saveUtxoSet (entries : List (COutPoint × CTxOut)) : Bytes :=
  writeVarInt32 [] entries.length ++ entries.flatMap serializeEntry

/-- One turn of the loop of `load_utxo_set`; `storage.h:136–137`. -/
def entryDecoder : Decoder (COutPoint × CTxOut) := do
  let outpoint ← COutPoint.deserialize
  let txout ← CTxOut.deserialize
  pure (outpoint, txout)

/-- The decoding loop of `load_utxo_set`; `storage.h:130–139`. -/
def utxoSetDecoder : Decoder (List (COutPoint × CTxOut)) := do
  let entryCount ← readVarInt32
  Decoder.many entryDecoder entryCount.toNat

/-- `storage.h:126–143`, on the file's content; the first entry of an outpoint stays. -/
def loadUtxoSet (buffer : Bytes) : Except ReadError UtxoSet :=
  (utxoSetDecoder buffer 0).map fun read ↦ emplaceAll ∅ read.1

/-- `storage.h:150–161`; the content of the mempool file. -/
def serializeMempool (mempool : List Transaction) : Bytes :=
  writeVarInt32 [] mempool.length ++ mempool.flatMap Transaction.serialize

variable [Crypto]

/-- The decoding loop of `deserialize_chain`; `storage.h:66–74`. -/
def chainDecoder : Decoder (List CBlock) := do
  let blockCount ← readVarInt32
  Decoder.many CBlock.deserialize blockCount.toNat

/-- Decode from the start of the buffer; bytes after the last block are ignored;
`storage.h:65–75`. -/
def deserializeChain (buffer : Bytes) : Except ReadError (List CBlock) :=
  (chainDecoder buffer 0).map Prod.fst

/-- The decoding loop of `load_mempool`; `storage.h:172–180`. -/
def mempoolDecoder : Decoder (List Transaction) := do
  let count ← readVarInt32
  Decoder.many Transaction.deserialize count.toNat

/-- `storage.h:168–184`, on the file's content. -/
def loadMempool (buffer : Bytes) : Except ReadError (List Transaction) :=
  (mempoolDecoder buffer 0).map Prod.fst

/-- Every transaction of a loaded mempool was decoded. -/
theorem decoded_of_loadMempool {buffer : Bytes} {mempool : List Transaction}
    (h : loadMempool buffer = .ok mempool) : ∀ tx ∈ mempool, tx.Decoded := by
  unfold loadMempool at h
  cases hd : mempoolDecoder buffer 0 with
  | error e => simp [hd, Except.map] at h
  | ok p =>
    obtain rfl : p.1 = mempool := by simpa [hd, Except.map] using h
    obtain ⟨_, _, _, hmany⟩ := Decoder.bind_eq_ok_iff.mp hd
    exact Decoder.forall_of_many_eq_ok (fun offset tx next hone ↦ ⟨buffer, offset, next, hone⟩)
      hmany

end Siliqua.Storage
