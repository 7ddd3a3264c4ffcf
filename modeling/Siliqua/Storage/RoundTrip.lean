import Siliqua.Core.Codec
import Siliqua.Crypto.Picosha2
import Siliqua.Storage.Storage

/-!
# Files and messages decode to what was encoded

The chain, mempool and UTXO encodings of `storage/storage.h` are codecs: what is saved loads
back, nothing shorter loads, and whatever loads was encoded in exactly one way.
-/

namespace Siliqua.Storage

open ByteDecoder ByteDecoder.Decoder Siliqua.Core KeyedStore

/-! ## The three encodings are codecs -/

/-- The entries fit a 32-bit count, as do their scripts. -/
def EntriesEncodable (entries : List (COutPoint × CTxOut)) : Prop :=
  entries.length < 2 ^ 32 ∧ ∀ entry ∈ entries, entry.2.Encodable

/-- An entry of the UTXO file is its outpoint and its output. -/
theorem codec_entry : Codec entryDecoder serializeEntry fun entry ↦ entry.2.Encodable := by
  intro input offset entry next
  rw [entryDecoder, serializeEntry, COutPoint.codec.runs_bind_iff, reads_append_iff]
  simp only [CTxOut.codec.runs_map_iff, true_and]
  constructor
  · rintro ⟨outpoint, mid, houtpoint, txout, hvalid, htxout, rfl⟩
    exact ⟨hvalid, mid, houtpoint, htxout⟩
  · rintro ⟨hvalid, mid, houtpoint, htxout⟩
    exact ⟨_, mid, houtpoint, _, hvalid, htxout, rfl⟩

/-- The UTXO file. -/
theorem codec_utxoSet : Codec utxoSetDecoder saveUtxoSet EntriesEncodable :=
  codec_counted codec_entry

/-- A UTXO set loads from its file, in whatever order it was written. -/
theorem loadUtxoSet_saveUtxoSet {utxos : UtxoSet} {entries : List (COutPoint × CTxOut)}
    (hwalk : Enumerates utxos entries) (h : EntriesEncodable entries) (suffix : Bytes) :
    loadUtxoSet (saveUtxoSet entries ++ suffix) = .ok utxos := by
  rw [loadUtxoSet, codec_utxoSet.decode_append h]
  exact congrArg Except.ok hwalk.emplaceAll_empty

private theorem exists_of_map_fst {α : Type} {r : Except ReadError (α × Nat)} {a : α}
    (h : r.map Prod.fst = .ok a) : ∃ next, r = .ok (a, next) := by
  cases r with
  | error e => cases h
  | ok p => exact ⟨p.2, congrArg Except.ok (Prod.ext (Except.ok.inj h) rfl)⟩

/-- A decoder that keeps only the value fails on every proper prefix of an encoding. -/
theorem isOk_map_fst_of_part {α : Type} {d : Decoder α} {encode : α → Bytes}
    {Valid : α → Prop} (h : Codec d encode Valid) {a : α} (hv : Valid a) {bytes : Bytes}
    (hpre : bytes <+: encode a) (hne : bytes ≠ encode a) :
    ((d bytes 0).map Prod.fst).isOk = false := by
  cases hd : d bytes 0 with
  | error e => rfl
  | ok p => exact absurd (h.eq_of_decode_part hv hpre hd) hne

/-- Two buffers that a codec reads to their ends as the same value are equal. -/
private theorem eq_of_decode_eq {α : Type} {d : Decoder α} {encode : α → Bytes}
    {Valid : α → Prop} (h : Codec d encode Valid) {a : α} {left right : Bytes}
    (hl : d left 0 = .ok (a, left.length)) (hr : d right 0 = .ok (a, right.length)) :
    left = right := by
  obtain ⟨-, -, -, hleft⟩ := h.canonical (Nat.zero_le _) hl
  obtain ⟨-, -, -, hright⟩ := h.canonical (Nat.zero_le _) hr
  rw [List.drop_zero, Nat.sub_zero, List.take_length] at hleft hright
  rw [← hleft, hright]

section Hashed

variable [Crypto]

/-- The blocks fit a 32-bit count, and each can be encoded. -/
def ChainEncodable (chain : List CBlock) : Prop :=
  chain.length < 2 ^ 32 ∧ ∀ blk ∈ chain, blk.Encodable

/-- The transactions fit a 32-bit count, and each can be encoded. -/
def MempoolEncodable (mempool : List Transaction) : Prop :=
  mempool.length < 2 ^ 32 ∧ ∀ tx ∈ mempool, tx.Encodable

/-- The chain file and the `chain` message. -/
theorem codec_chain : Codec chainDecoder serializeChain ChainEncodable :=
  codec_counted CBlock.codec

/-- The mempool file. -/
theorem codec_mempool : Codec mempoolDecoder serializeMempool MempoolEncodable :=
  codec_counted Transaction.codec

omit [Crypto] in
/-- A block takes no more bytes than its chain. -/
theorem length_serialize_le {chain : List CBlock} {blk : CBlock} (h : blk ∈ chain) :
    blk.serialize.length ≤ (serializeChain chain).length := by
  have hle := length_le_of_mem_flatMap (f := CBlock.serialize) h
  rw [serializeChain, List.length_append]
  omega

/-- A chain whose transactions carry their hashes and that takes less than `2 ^ 32` bytes can be
encoded. -/
theorem chainEncodable_of_length {chain : List CBlock}
    (hhash : ∀ blk ∈ chain, ∀ tx ∈ blk.vtx, tx.txHash = tx.getHash)
    (hlt : (serializeChain chain).length < 2 ^ 32) : ChainEncodable chain := by
  rw [serializeChain, List.length_append] at hlt
  exact encodable_of_length_flatMap hhash (by omega)

/-! ## Loading what was saved -/

/-- A chain decodes from its encoding, whatever follows. -/
theorem deserializeChain_serializeChain {chain : List CBlock} (h : ChainEncodable chain)
    (suffix : Bytes) : deserializeChain (serializeChain chain ++ suffix) = .ok chain := by
  rw [deserializeChain, codec_chain.decode_append h]
  rfl

/-- A chain file loads back. -/
theorem deserializeChain_saved {chain : List CBlock} (h : ChainEncodable chain) :
    deserializeChain (serializeChain chain) = .ok chain := by
  rw [deserializeChain, codec_chain.decode_whole h]
  rfl

/-- A mempool decodes from its encoding, whatever follows. -/
theorem loadMempool_serializeMempool {mempool : List Transaction} (h : MempoolEncodable mempool)
    (suffix : Bytes) : loadMempool (serializeMempool mempool ++ suffix) = .ok mempool := by
  rw [loadMempool, codec_mempool.decode_append h]
  rfl

/-- A mempool file loads back. -/
theorem loadMempool_saved {mempool : List Transaction} (h : MempoolEncodable mempool) :
    loadMempool (serializeMempool mempool) = .ok mempool := by
  rw [loadMempool, codec_mempool.decode_whole h]
  rfl

/-- A chain that was decoded can be encoded. -/
theorem chainEncodable_of_deserializeChain {buffer : Bytes} {chain : List CBlock}
    (h : deserializeChain buffer = .ok chain) : ChainEncodable chain := by
  obtain ⟨next, hd⟩ := exists_of_map_fst h
  exact (codec_chain.canonical (Nat.zero_le _) hd).1

/-- A mempool that was loaded can be encoded. -/
theorem mempoolEncodable_of_loadMempool {buffer : Bytes} {mempool : List Transaction}
    (h : loadMempool buffer = .ok mempool) : MempoolEncodable mempool := by
  obtain ⟨next, hd⟩ := exists_of_map_fst h
  exact (codec_mempool.canonical (Nat.zero_le _) hd).1

/-- Chains and mempools decode from their encodings whatever follows, consuming exactly those
bytes; no proper prefix of an encoding decodes; and a UTXO file whose count and script lengths
fit 32 bits loads back to the map it was saved from, in every iteration order. -/
theorem storage_round_trip :
    (∀ chain, ChainEncodable chain →
      (∀ suffix,
        chainDecoder (serializeChain chain ++ suffix) 0 =
          .ok (chain, (serializeChain chain).length) ∧
        deserializeChain (serializeChain chain ++ suffix) = .ok chain) ∧
      ∀ bytes, bytes <+: serializeChain chain → bytes ≠ serializeChain chain →
        (deserializeChain bytes).isOk = false) ∧
    (∀ mempool, MempoolEncodable mempool →
      (∀ suffix,
        mempoolDecoder (serializeMempool mempool ++ suffix) 0 =
          .ok (mempool, (serializeMempool mempool).length) ∧
        loadMempool (serializeMempool mempool ++ suffix) = .ok mempool) ∧
      ∀ bytes, bytes <+: serializeMempool mempool → bytes ≠ serializeMempool mempool →
        (loadMempool bytes).isOk = false) ∧
    ∀ utxos entries, Enumerates utxos entries → EntriesEncodable entries →
      loadUtxoSet (saveUtxoSet entries) = .ok utxos := by
  refine ⟨fun chain h ↦ ⟨fun suffix ↦ ?_, ?_⟩, fun mempool h ↦ ⟨fun suffix ↦ ?_, ?_⟩, ?_⟩
  · exact ⟨codec_chain.decode_append h suffix, deserializeChain_serializeChain h suffix⟩
  · intro bytes hpre hne
    exact isOk_map_fst_of_part codec_chain h hpre hne
  · exact ⟨codec_mempool.decode_append h suffix, loadMempool_serializeMempool h suffix⟩
  · intro bytes hpre hne
    exact isOk_map_fst_of_part codec_mempool h hpre hne
  · intro utxos entries hwalk h
    have hload := loadUtxoSet_saveUtxoSet hwalk h []
    rwa [List.append_nil] at hload

/-! ## Decoding only what was encoded -/

/-- Whatever decodes, from hostile bytes too, was read from exactly the bytes it encodes to;
its hash is the double SHA-256 of those bytes; and buffers that are consumed to their ends
decode to different values if they are different. -/
theorem format_canonical :
    (∀ buffer chain k, chainDecoder buffer 0 = .ok (chain, k) →
      k ≤ buffer.length ∧ serializeChain chain = buffer.take k) ∧
    (∀ buffer offset blk k, CBlock.deserialize buffer offset = .ok (blk, k) →
      offset ≤ k ∧ k ≤ buffer.length ∧ blk.serialize = (buffer.drop offset).take (k - offset) ∧
      blk.getHash = hashDoubleSha256 ((buffer.drop offset).take 80) ∧
      ∀ tx ∈ blk.vtx, tx.txHash = hashDoubleSha256 tx.serialize) ∧
    (∀ buffer offset tx k, Transaction.deserialize buffer offset = .ok (tx, k) →
      offset ≤ k ∧ k ≤ buffer.length ∧ tx.serialize = (buffer.drop offset).take (k - offset) ∧
      tx.txHash = hashDoubleSha256 ((buffer.drop offset).take (k - offset))) ∧
    (∀ left right chain, chainDecoder left 0 = .ok (chain, left.length) →
      chainDecoder right 0 = .ok (chain, right.length) → left = right) ∧
    (∀ left right blk, CBlock.deserialize left 0 = .ok (blk, left.length) →
      CBlock.deserialize right 0 = .ok (blk, right.length) → left = right) ∧
    ∀ left right tx, Transaction.deserialize left 0 = .ok (tx, left.length) →
      Transaction.deserialize right 0 = .ok (tx, right.length) → left = right := by
  refine ⟨fun buffer chain k h ↦ ?_, fun buffer offset blk k h ↦ ?_,
    fun buffer offset tx k h ↦ ?_, fun left right chain ↦ eq_of_decode_eq codec_chain,
    fun left right blk ↦ eq_of_decode_eq CBlock.codec,
    fun left right tx ↦ eq_of_decode_eq Transaction.codec⟩
  · obtain ⟨-, -, hk, hbytes⟩ := codec_chain.canonical (Nat.zero_le _) h
    exact ⟨hk, by rw [hbytes, List.drop_zero, Nat.sub_zero]⟩
  · have hle := CBlock.offset_le h
    obtain ⟨hvalid, hstart, hk, hbytes⟩ := CBlock.codec.canonical hle h
    obtain ⟨header, mid, hheader, hrest⟩ := bind_eq_ok_iff.mp h
    obtain ⟨-, hreads⟩ := (CBlockHeader.codec _ _ _ _).mp ⟨hle, hheader⟩
    obtain ⟨count, _, -, hrest⟩ := bind_eq_ok_iff.mp hrest
    obtain ⟨vtx, _, -, hret⟩ := bind_eq_ok_iff.mp hrest
    obtain ⟨rfl, -⟩ := pure_eq_ok_iff.mp hret
    have hwindow := hreads.eq_window
    have hmid : mid - offset = 80 := by
      obtain ⟨-, -, -, -, hnext⟩ := hreads
      rw [CBlockHeader.length_serialize] at hnext
      omega
    rw [hmid] at hwindow
    refine ⟨hstart, hk, hbytes, ?_, fun tx htx ↦ (hvalid.vtx tx htx).txHash_eq⟩
    rw [CBlock.getHash, CBlockHeader.getHash, hwindow]
  · obtain ⟨hvalid, hstart, hk, hbytes⟩ :=
      Transaction.codec.canonical (Transaction.offset_le h) h
    refine ⟨hstart, hk, hbytes, ?_⟩
    rw [hvalid.txHash_eq, Transaction.getHash, hbytes]

end Hashed

/-! ## A chain of one block -/

private def unhashedTx : Transaction :=
  ⟨1, [⟨COutPoint.null, [7], 0⟩], [⟨-5, [1, 2]⟩], 0, Hash256.zero⟩

/-- A transaction with a negative output. -/
def sampleTx : Transaction :=
  { unhashedTx with txHash := @Transaction.getHash keylessCrypto unhashedTx }

/-- One block with that transaction. -/
def sampleChain : List CBlock :=
  [⟨⟨-1, Hash256.zero, Hash256.zero, 3, 2, 1⟩, [sampleTx]⟩]

private theorem encodable_sampleTx : @Transaction.Encodable keylessCrypto sampleTx := by
  have hhash := @Transaction.getHash_with_txHash keylessCrypto unhashedTx sampleTx.txHash
  refine @Transaction.Encodable.mk keylessCrypto _ (by decide) ?_ (by decide) ?_ hhash.symm
  · intro txin htxin
    obtain rfl := List.mem_singleton.mp htxin
    show _ < _
    decide
  · intro txout htxout
    obtain rfl := List.mem_singleton.mp htxout
    show _ < _
    decide

private theorem encodable_sampleChain : @ChainEncodable keylessCrypto sampleChain := by
  refine ⟨by decide, fun blk hblk ↦ ?_⟩
  obtain rfl := List.mem_singleton.mp hblk
  refine @CBlock.Encodable.mk keylessCrypto _ (by decide) fun tx htx ↦ ?_
  obtain rfl := List.mem_singleton.mp htx
  exact encodable_sampleTx

/-- Two outputs. -/
def sampleEntries : List (COutPoint × CTxOut) :=
  [(COutPoint.null, ⟨-5, [1, 2]⟩), (⟨Hash256.zero, 3⟩, ⟨7, []⟩)]

/-- The one-block chain survives a file with two stray bytes at its end, two pending transactions
one with a stray byte, and two outputs a file of their own. -/
theorem storage_round_trip_sample :
    @deserializeChain keylessCrypto (serializeChain sampleChain ++ [8, 9]) = .ok sampleChain ∧
      @loadMempool keylessCrypto (serializeMempool [sampleTx, sampleTx] ++ [8]) =
        .ok [sampleTx, sampleTx] ∧
      loadUtxoSet (saveUtxoSet sampleEntries) = .ok (emplaceAll ∅ sampleEntries) := by
  obtain ⟨hchain, hmempool, hutxos⟩ := @storage_round_trip keylessCrypto
  have hpending : @MempoolEncodable keylessCrypto [sampleTx, sampleTx] :=
    ⟨by decide, by simp [encodable_sampleTx]⟩
  refine ⟨((hchain sampleChain encodable_sampleChain).1 [8, 9]).2,
    ((hmempool _ hpending).1 [8]).2, hutxos _ _ ?_ ?_⟩
  · exact enumerates_emplaceAll (by decide)
  · simp [sampleEntries, EntriesEncodable, CTxOut.Encodable]

/-- The hash of the decoded transaction is the hash of the bytes it came from. -/
theorem format_canonical_sample :
    sampleTx.txHash = @hashDoubleSha256 keylessCrypto
      (((sampleTx.serialize ++ [9]).drop 0).take (sampleTx.serialize.length - 0)) :=
  ((@format_canonical keylessCrypto).2.2.1 (sampleTx.serialize ++ [9]) 0 sampleTx _
    ((@Transaction.codec keylessCrypto).decode_append encodable_sampleTx [9])).2.2.2

/-- Bytes after the last block are ignored, so equally long buffers can decode alike. -/
theorem deserializeChain_ignores_rest :
    ([0, 0, 0, 0, 0] : Bytes) ≠ [0, 0, 0, 0, 1] ∧
      @deserializeChain keylessCrypto [0, 0, 0, 0, 0] = .ok [] ∧
      @deserializeChain keylessCrypto [0, 0, 0, 0, 1] = .ok [] :=
  ⟨by decide, rfl, rfl⟩

/-! ## A script the UTXO file cannot hold -/

/-- A script of exactly `2^32` bytes. -/
def longScript : Bytes := List.replicate (2 ^ 32) 0

private theorem length_longScript : longScript.length = 2 ^ 32 := List.length_replicate

/-- A UTXO set of one output with that script. -/
def longEntries : List (COutPoint × CTxOut) := [(COutPoint.null, ⟨0, longScript⟩)]

private def emptyEntries : List (COutPoint × CTxOut) := [(COutPoint.null, ⟨0, []⟩)]

/-- The length field of the long script wraps around to zero. -/
private theorem saveUtxoSet_longEntries :
    saveUtxoSet longEntries = saveUtxoSet emptyEntries ++ longScript := by
  have hwrap : UInt32.ofNat (2 ^ 32) = UInt32.ofNat 0 := rfl
  simp only [saveUtxoSet, longEntries, emptyEntries, List.flatMap_cons, List.flatMap_nil,
    serializeEntry, CTxOut.serialize, writeBytes, writeVarInt32, length_longScript, hwrap,
    List.length_cons, List.length_nil, List.append_nil, List.append_assoc]

/-- The UTXO file of an output with a `2^32`-byte script loads as a different set. -/
theorem loadUtxoSet_longEntries_ne :
    Enumerates (emplaceAll ∅ longEntries) longEntries ∧
      loadUtxoSet (saveUtxoSet longEntries) ≠ .ok (emplaceAll ∅ longEntries) := by
  refine ⟨enumerates_emplaceAll (by simp [longEntries]), fun hload ↦ ?_⟩
  have hshort : EntriesEncodable emptyEntries := by
    simp [EntriesEncodable, emptyEntries, CTxOut.Encodable]
  have hwalk : Enumerates (emplaceAll ∅ emptyEntries) emptyEntries :=
    enumerates_emplaceAll (by simp [emptyEntries])
  rw [saveUtxoSet_longEntries, loadUtxoSet_saveUtxoSet hwalk hshort, Except.ok.injEq] at hload
  have hget := congrArg (Finmap.lookup COutPoint.null) hload
  rw [lookup_emplaceAll, lookup_emplaceAll] at hget
  simp only [Finmap.lookup_empty, Option.none_or, emptyEntries, longEntries, List.lookup_cons_self,
    Option.some.injEq, CTxOut.mk.injEq, true_and] at hget
  have hlen := congrArg List.length hget
  rw [length_longScript] at hlen
  cases hlen

end Siliqua.Storage
