import Siliqua.Base.Codec
import Siliqua.Base.LittleEndian
import Siliqua.Core.Block

/-!
# The byte formats are codecs

Each reader of `core/serializer.h`, `core/transaction.cpp` and `core/block.cpp` reads exactly
what the writer next to it writes, for the values whose lists and scripts fit a 32-bit count
and whose transactions carry their hash.
-/

namespace Siliqua.Core

open ByteDecoder ByteDecoder.Decoder

/-! ## Fields -/

/-- The four bytes of a 32-bit field. -/
theorem writeUint32LE_eq (out : Bytes) (value : UInt32) :
    writeUint32LE out value = out ++ LittleEndian.bytes 4 value.toNat := by
  have hmask : (0xFF : UInt32).toNat = 2 ^ 8 - 1 := rfl
  have h8 : UInt32.toNat 8 % 32 = 8 := rfl
  have h16 : UInt32.toNat 16 % 32 = 16 := rfl
  have h24 : UInt32.toNat 24 % 32 = 24 := rfl
  simp only [writeUint32LE, LittleEndian.bytes, List.append_cancel_left_eq, List.cons.injEq,
    and_true, ← UInt8.toNat_inj, UInt32.toNat_toUInt8, UInt32.toNat_and, UInt32.toNat_shiftRight,
    UInt8.toNat_ofNat', hmask, h8, h16, h24, Nat.and_two_pow_sub_one_eq_mod,
    Nat.shiftRight_eq_div_pow]
  omega

/-- The eight bytes of a 64-bit field. -/
theorem writeUint64LE_eq (out : Bytes) (value : UInt64) :
    writeUint64LE out value = out ++ LittleEndian.bytes 8 value.toNat := by
  have hmask : (0xFF : UInt64).toNat = 2 ^ 8 - 1 := rfl
  have h8 : UInt64.toNat 8 % 64 = 8 := rfl
  have h16 : UInt64.toNat 16 % 64 = 16 := rfl
  have h24 : UInt64.toNat 24 % 64 = 24 := rfl
  have h32 : UInt64.toNat 32 % 64 = 32 := rfl
  have h40 : UInt64.toNat 40 % 64 = 40 := rfl
  have h48 : UInt64.toNat 48 % 64 = 48 := rfl
  have h56 : UInt64.toNat 56 % 64 = 56 := rfl
  simp only [writeUint64LE, LittleEndian.bytes, List.append_cancel_left_eq, List.cons.injEq,
    and_true, ← UInt8.toNat_inj, UInt64.toNat_toUInt8, UInt64.toNat_and, UInt64.toNat_shiftRight,
    UInt8.toNat_ofNat', hmask, h8, h16, h24, h32, h40, h48, h56, Nat.and_two_pow_sub_one_eq_mod,
    Nat.shiftRight_eq_div_pow]
  omega

private theorem toNat_four (b0 b1 b2 b3 : UInt8) :
    (b0.toUInt32 ||| (b1.toUInt32 <<< 8) ||| (b2.toUInt32 <<< 16) |||
      (b3.toUInt32 <<< 24)).toNat = LittleEndian.value [b0, b1, b2, b3] := by
  have h0 : b0.toUInt32.toNat = LittleEndian.value [b0] := UInt8.toNat_toUInt32 b0
  have h1 := LittleEndian.toNat_or_shiftLeft32 (k := 8) b1 h0 rfl
  have h2 := LittleEndian.toNat_or_shiftLeft32 (k := 16) b2 h1 rfl
  exact LittleEndian.toNat_or_shiftLeft32 b3 h2 rfl

private theorem toNat_eight (b0 b1 b2 b3 b4 b5 b6 b7 : UInt8) :
    (b0.toUInt64 ||| (b1.toUInt64 <<< 8) ||| (b2.toUInt64 <<< 16) ||| (b3.toUInt64 <<< 24) |||
      (b4.toUInt64 <<< 32) ||| (b5.toUInt64 <<< 40) ||| (b6.toUInt64 <<< 48) |||
      (b7.toUInt64 <<< 56)).toNat = LittleEndian.value [b0, b1, b2, b3, b4, b5, b6, b7] := by
  have h0 : b0.toUInt64.toNat = LittleEndian.value [b0] := UInt8.toNat_toUInt64 b0
  have h1 := LittleEndian.toNat_or_shiftLeft64 (k := 8) b1 h0 rfl
  have h2 := LittleEndian.toNat_or_shiftLeft64 (k := 16) b2 h1 rfl
  have h3 := LittleEndian.toNat_or_shiftLeft64 (k := 24) b3 h2 rfl
  have h4 := LittleEndian.toNat_or_shiftLeft64 (k := 32) b4 h3 rfl
  have h5 := LittleEndian.toNat_or_shiftLeft64 (k := 40) b5 h4 rfl
  have h6 := LittleEndian.toNat_or_shiftLeft64 (k := 48) b6 h5 rfl
  exact LittleEndian.toNat_or_shiftLeft64 b7 h6 rfl

/-- A reader of `n` little-endian bytes is the codec of the numbers below `256 ^ n`. -/
private theorem codec_of_value {α : Type} {d : Decoder α} {n : Nat} {number : α → Nat}
    (hlt : ∀ a, number a < 256 ^ n)
    (hd : ∀ input offset a next, d.Runs input offset a next ↔
      ∃ bs, bs.length = n ∧ number a = LittleEndian.value bs ∧ Reads input offset bs next) :
    Codec d (fun a ↦ LittleEndian.bytes n (number a)) fun _ ↦ True := by
  intro input offset a next
  rw [hd]
  constructor
  · rintro ⟨bs, hlen, hvalue, hreads⟩
    rw [(LittleEndian.eq_bytes_iff (hlt a) hlen).mpr hvalue] at hreads
    exact ⟨trivial, hreads⟩
  · rintro ⟨-, hreads⟩
    exact ⟨_, LittleEndian.length_bytes _ _, (LittleEndian.value_bytes (hlt a)).symm, hreads⟩

private theorem exists_of_length_eight {bs : Bytes} (h : bs.length = 8) :
    ∃ b0 b1 b2 b3 b4 b5 b6 b7, bs = [b0, b1, b2, b3, b4, b5, b6, b7] := by
  obtain ⟨b0, b1, b2, b3, hfront⟩ := List.length_eq_four.mp (by simp [h] : (bs.take 4).length = 4)
  obtain ⟨b4, b5, b6, b7, hback⟩ := List.length_eq_four.mp (by simp [h] : (bs.drop 4).length = 4)
  refine ⟨b0, b1, b2, b3, b4, b5, b6, b7, ?_⟩
  rw [← List.take_append_drop 4 bs, hfront, hback]
  rfl

/-- The 32-bit field. -/
theorem codec_readUint32LE : Codec readUint32LE (writeUint32LE []) fun _ ↦ True := by
  have hwrite : writeUint32LE [] = fun v ↦ LittleEndian.bytes 4 v.toNat := by
    funext v
    rw [writeUint32LE_eq, List.nil_append]
  rw [hwrite]
  apply codec_of_value fun v ↦ v.toNat_lt
  intro input offset v next
  simp only [Runs, readUint32LE, bind_eq_ok_iff, peek_eq_ok_iff, advance_eq_ok_iff,
    pure_eq_ok_iff]
  constructor
  · rintro ⟨-, b0, _, ⟨h0, rfl⟩, b1, _, ⟨h1, rfl⟩, b2, _, ⟨h2, rfl⟩, b3, _, ⟨h3, rfl⟩, -, _, rfl,
      rfl, rfl⟩
    refine ⟨[b0, b1, b2, b3], rfl, toNat_four b0 b1 b2 b3, ?_⟩
    obtain ⟨hlt, -⟩ := List.getElem?_eq_some_iff.mp h3
    simp only [reads_cons_iff, reads_nil_iff]
    exact ⟨h0, h1, h2, h3, hlt, trivial⟩
  · rintro ⟨bs, hlen, hvalue, hreads⟩
    have hle := hreads.le_length
    obtain ⟨b0, b1, b2, b3, rfl⟩ := List.length_eq_four.mp hlen
    rw [← toNat_four, UInt32.toNat_inj] at hvalue
    simp only [reads_cons_iff, reads_nil_iff] at hreads
    obtain ⟨h0, h1, h2, h3, -, hnext⟩ := hreads
    exact ⟨by omega, b0, _, ⟨h0, rfl⟩, b1, _, ⟨h1, rfl⟩, b2, _, ⟨h2, rfl⟩, b3, _, ⟨h3, rfl⟩,
      (), _, rfl, hvalue.symm, hnext.symm⟩

/-- The 64-bit field. -/
theorem codec_readUint64LE : Codec readUint64LE (writeUint64LE []) fun _ ↦ True := by
  have hwrite : writeUint64LE [] = fun v ↦ LittleEndian.bytes 8 v.toNat := by
    funext v
    rw [writeUint64LE_eq, List.nil_append]
  rw [hwrite]
  apply codec_of_value fun v ↦ v.toNat_lt
  intro input offset v next
  simp only [Runs, readUint64LE, bind_eq_ok_iff, peek_eq_ok_iff, advance_eq_ok_iff,
    pure_eq_ok_iff]
  constructor
  · rintro ⟨-, b0, _, ⟨h0, rfl⟩, b1, _, ⟨h1, rfl⟩, b2, _, ⟨h2, rfl⟩, b3, _, ⟨h3, rfl⟩, b4, _,
      ⟨h4, rfl⟩, b5, _, ⟨h5, rfl⟩, b6, _, ⟨h6, rfl⟩, b7, _, ⟨h7, rfl⟩, -, _, rfl, rfl, rfl⟩
    refine ⟨[b0, b1, b2, b3, b4, b5, b6, b7], rfl, toNat_eight b0 b1 b2 b3 b4 b5 b6 b7, ?_⟩
    obtain ⟨hlt, -⟩ := List.getElem?_eq_some_iff.mp h7
    simp only [reads_cons_iff, reads_nil_iff]
    exact ⟨h0, h1, h2, h3, h4, h5, h6, h7, hlt, trivial⟩
  · rintro ⟨bs, hlen, hvalue, hreads⟩
    have hle := hreads.le_length
    obtain ⟨b0, b1, b2, b3, b4, b5, b6, b7, rfl⟩ := exists_of_length_eight hlen
    rw [← toNat_eight, UInt64.toNat_inj] at hvalue
    simp only [reads_cons_iff, reads_nil_iff] at hreads
    obtain ⟨h0, h1, h2, h3, h4, h5, h6, h7, -, hnext⟩ := hreads
    exact ⟨by omega, b0, _, ⟨h0, rfl⟩, b1, _, ⟨h1, rfl⟩, b2, _, ⟨h2, rfl⟩, b3, _, ⟨h3, rfl⟩,
      b4, _, ⟨h4, rfl⟩, b5, _, ⟨h5, rfl⟩, b6, _, ⟨h6, rfl⟩, b7, _, ⟨h7, rfl⟩, (), _, rfl,
      hvalue.symm, hnext.symm⟩

/-- The 32-byte hash. -/
theorem codec_readBytes32 :
    Codec readBytes32 (fun hash : Hash256 ↦ hash.toList) fun _ ↦ True := by
  intro input offset hash next
  have htake := codec_take 32 input offset hash.toList next
  have hlen : hash.toList.length = 32 := hash.toList_length
  have hsame : readBytes32.Runs input offset hash next ↔
      (Decoder.take 32).Runs input offset hash.toList next := by
    constructor
    · rintro ⟨hle, h⟩
      unfold readBytes32 at h
      split at h
      · next hl =>
        obtain ⟨rfl, rfl⟩ := Prod.mk.inj (Except.ok.inj h)
        refine ⟨hle, ?_⟩
        unfold Decoder.take
        rw [if_pos hl]
        rfl
      · cases h
    · rintro ⟨hle, h⟩
      unfold Decoder.take at h
      split at h
      · next hl =>
        obtain ⟨hbytes, rfl⟩ := Prod.mk.inj (Except.ok.inj h)
        refine ⟨hle, ?_⟩
        unfold readBytes32
        rw [dif_pos hl]
        exact congrArg (fun v ↦ Except.ok (v, offset + 32)) (Subtype.ext hbytes)
      · cases h
  rw [hsame, htake]
  exact and_congr_left fun _ ↦ ⟨fun _ ↦ trivial, fun _ ↦ hlen⟩

/-- The four bytes of a count. -/
theorem writeVarInt32_eq (out : Bytes) (size : Nat) :
    writeVarInt32 out size = out ++ LittleEndian.bytes 4 (UInt32.ofNat size).toNat :=
  writeUint32LE_eq out _

/-- The count field. -/
theorem codec_readVarInt32 : Codec readVarInt32 (writeUint32LE []) fun _ ↦ True :=
  codec_readUint32LE

/-- A count and a body of that size. -/
theorem codec_sized {α : Type} {body : Nat → Decoder α} {encode : α → Bytes} {size : α → Nat}
    {Valid : α → Prop} (hbody : ∀ n, Codec (body n) encode fun a ↦ size a = n ∧ Valid a) :
    Codec (readVarInt32 >>= fun n ↦ body n.toNat)
      (fun a ↦ writeVarInt32 [] (size a) ++ encode a) fun a ↦ size a < 2 ^ 32 ∧ Valid a := by
  intro input offset a next
  rw [codec_readVarInt32.runs_bind_iff, reads_append_iff]
  constructor
  · rintro ⟨n, -, mid, hcount, hrest⟩
    obtain ⟨⟨hsize, hvalid⟩, hreads⟩ := (hbody _ _ _ _ _).mp hrest
    refine ⟨⟨by rw [hsize]; exact n.toNat_lt, hvalid⟩, mid, ?_, hreads⟩
    rw [writeVarInt32, hsize, UInt32.ofNat_toNat]
    exact hcount
  · rintro ⟨⟨hlt, hvalid⟩, mid, hcount, hreads⟩
    have hsize : size a = (UInt32.ofNat (size a)).toNat := by
      rw [UInt32.toNat_ofNat', Nat.mod_eq_of_lt hlt]
    exact ⟨_, trivial, mid, hcount, (hbody _ _ _ _ _).mpr ⟨⟨hsize, hvalid⟩, hreads⟩⟩

/-- A count and as many elements. -/
theorem codec_counted {α : Type} {d : Decoder α} {encode : α → Bytes} {Valid : α → Prop}
    (hd : Codec d encode Valid) :
    Codec (readVarInt32 >>= fun n ↦ Decoder.many d n.toNat)
      (fun xs ↦ writeVarInt32 [] xs.length ++ xs.flatMap encode)
      fun xs ↦ xs.length < 2 ^ 32 ∧ ∀ x ∈ xs, Valid x :=
  codec_sized fun n ↦ hd.many n

/-- A count and as many bytes, the form of a script. -/
theorem codec_script :
    Codec (readVarInt32 >>= fun n ↦ readBytes n.toNat)
      (fun script ↦ writeVarInt32 [] script.length ++ script)
      fun script ↦ script.length < 2 ^ 32 := by
  have hbody (n : Nat) :
      Codec (readBytes n) id fun script : Bytes ↦ script.length = n ∧ True := by
    simp only [and_true]
    exact codec_take n
  simpa only [and_true, id] using codec_sized hbody

/-! ## Records -/

/-- The script fits its count. -/
def CTxIn.Encodable (txin : CTxIn) : Prop := txin.scriptSig.length < 2 ^ 32

/-- The script fits its count. -/
def CTxOut.Encodable (txout : CTxOut) : Prop := txout.scriptPubKey.length < 2 ^ 32

/-- Lists and scripts fit their counts, and the cached hash is the hash. -/
structure Transaction.Encodable [Crypto] (tx : Transaction) : Prop where
  vin_lt : tx.vin.length < 2 ^ 32
  vin : ∀ txin ∈ tx.vin, txin.Encodable
  vout_lt : tx.vout.length < 2 ^ 32
  vout : ∀ txout ∈ tx.vout, txout.Encodable
  txHash_eq : tx.txHash = tx.getHash

/-- The list of transactions fits its count, and each can be encoded. -/
structure CBlock.Encodable [Crypto] (blk : CBlock) : Prop where
  vtx_lt : blk.vtx.length < 2 ^ 32
  vtx : ∀ tx ∈ blk.vtx, tx.Encodable

/-- An outpoint is its hash and its index. -/
theorem COutPoint.codec : Codec COutPoint.deserialize COutPoint.serialize fun _ ↦ True := by
  intro input offset o next
  have hbytes : o.serialize = o.txid.toList ++ writeUint32LE [] o.n := by
    simp only [COutPoint.serialize, writeBytes, writeUint32LE_eq, List.nil_append]
  rw [hbytes, COutPoint.deserialize]
  simp only [codec_readBytes32.runs_bind_iff, codec_readUint32LE.runs_map_iff, reads_append_iff,
    true_and]
  constructor
  · rintro ⟨txid, mid, htxid, n, hn, rfl⟩
    exact ⟨mid, htxid, hn⟩
  · rintro ⟨mid, htxid, hn⟩
    exact ⟨_, mid, htxid, _, hn, rfl⟩

/-- An input is its outpoint, its script and its sequence number. -/
theorem CTxIn.codec : Codec CTxIn.deserialize CTxIn.serialize CTxIn.Encodable := by
  intro input offset txin next
  have hbytes : txin.serialize = txin.prevout.serialize ++
      (writeVarInt32 [] txin.scriptSig.length ++ txin.scriptSig) ++
      writeUint32LE [] txin.nSequence := by
    simp only [CTxIn.serialize, writeBytes, writeUint32LE_eq, writeVarInt32_eq, List.nil_append,
      List.append_assoc]
  rw [hbytes, CTxIn.deserialize]
  simp only [← Decoder.bind_assoc, COutPoint.codec.runs_bind_iff, codec_script.runs_bind_iff,
    codec_readUint32LE.runs_map_iff, reads_append_iff, true_and]
  constructor
  · rintro ⟨prevout, mid, hprevout, script, hlen, mid', hscript, nSequence, hseq, rfl⟩
    exact ⟨hlen, mid', ⟨mid, hprevout, hscript⟩, hseq⟩
  · rintro ⟨hlen, mid', ⟨mid, hprevout, hscript⟩, hseq⟩
    exact ⟨_, mid, hprevout, _, hlen, mid', hscript, _, hseq, rfl⟩

/-- An output is its value and its script. -/
theorem CTxOut.codec : Codec CTxOut.deserialize CTxOut.serialize CTxOut.Encodable := by
  intro input offset txout next
  have hbytes : txout.serialize = writeUint64LE [] txout.nValue.toUInt64 ++
      (writeVarInt32 [] txout.scriptPubKey.length ++ txout.scriptPubKey) := by
    simp only [CTxOut.serialize, writeBytes, writeUint64LE_eq, writeVarInt32_eq, List.nil_append,
      List.append_assoc]
  rw [hbytes, CTxOut.deserialize]
  simp only [← Decoder.bind_assoc, codec_readUint64LE.runs_bind_iff, codec_script.runs_map_iff,
    @reads_append_iff _ _ _ (writeUint64LE [] _), true_and]
  constructor
  · rintro ⟨value, mid, hvalue, script, hlen, hscript, rfl⟩
    exact ⟨hlen, mid, hvalue, hscript⟩
  · rintro ⟨hlen, mid, hvalue, hscript⟩
    exact ⟨_, mid, hvalue, _, hlen, hscript, rfl⟩

section Hashed

variable [Crypto]

/-- The hash of a transaction does not depend on the hash it carries. -/
theorem Transaction.getHash_with_txHash (tx : Transaction) (hash : Hash256) :
    ({ tx with txHash := hash } : Transaction).getHash = tx.getHash := rfl

/-- A transaction is its version, its inputs, its outputs and its lock time; the hash is
recomputed. -/
theorem Transaction.codec :
    Codec Transaction.deserialize Transaction.serialize Transaction.Encodable := by
  intro input offset tx next
  have hbytes : tx.serialize = writeUint32LE [] tx.nVersion.toUInt32 ++
      (writeVarInt32 [] tx.vin.length ++ tx.vin.flatMap CTxIn.serialize) ++
      (writeVarInt32 [] tx.vout.length ++ tx.vout.flatMap CTxOut.serialize) ++
      writeUint32LE [] tx.nLockTime := by
    simp only [Transaction.serialize, writeUint32LE_eq, writeVarInt32_eq, List.nil_append,
      List.append_assoc]
  rw [hbytes, Transaction.deserialize]
  simp only [← Decoder.bind_assoc, codec_readUint32LE.runs_bind_iff,
    (codec_counted CTxIn.codec).runs_bind_iff, (codec_counted CTxOut.codec).runs_bind_iff,
    runs_pure_iff, reads_nil_iff, reads_append_iff, true_and]
  constructor
  · rintro ⟨nVersion, mid, hversion, vin, ⟨hvinLen, hvin⟩, mid', hins, vout, ⟨hvoutLen, hvout⟩,
      mid'', houts, nLockTime, _, hlock, rfl, -, rfl⟩
    exact ⟨⟨hvinLen, hvin, hvoutLen, hvout, rfl⟩, mid'', ⟨mid', ⟨mid, hversion, hins⟩, houts⟩,
      hlock⟩
  · rintro ⟨h, mid'', ⟨mid', ⟨mid, hversion, hins⟩, houts⟩, hlock⟩
    refine ⟨_, mid, hversion, _, ⟨h.vin_lt, h.vin⟩, mid', hins, _, ⟨h.vout_lt, h.vout⟩, mid'',
      houts, _, next, hlock, ?_, hlock.le_length.2, rfl⟩
    exact congrArg (fun hash ↦ { tx with txHash := hash }) h.txHash_eq.symm

/-- A transaction decodes from its own bytes. -/
theorem Transaction.deserialize_serialize {tx : Transaction} (h : tx.Encodable) :
    Transaction.deserialize tx.serialize 0 = .ok (tx, tx.serialize.length) :=
  Transaction.codec.decode_whole h

theorem Transaction.Encodable.decoded {tx : Transaction} (h : tx.Encodable) : tx.Decoded :=
  ⟨tx.serialize, 0, _, Transaction.deserialize_serialize h⟩

end Hashed

/-- A header is its six fields. -/
theorem CBlockHeader.codec :
    Codec CBlockHeader.deserialize CBlockHeader.serialize fun _ ↦ True := by
  intro input offset header next
  have hbytes : header.serialize = writeUint32LE [] header.nVersion.toUInt32 ++
      header.hashPrevBlock.toList ++ header.hashMerkleRoot.toList ++
      writeUint32LE [] header.nTime ++ writeUint32LE [] header.nBits ++
      writeUint32LE [] header.nNonce := by
    simp only [CBlockHeader.serialize, writeBytes, writeUint32LE_eq, List.nil_append]
  rw [hbytes, CBlockHeader.deserialize]
  simp only [codec_readUint32LE.runs_bind_iff, codec_readBytes32.runs_bind_iff, runs_pure_iff,
    reads_nil_iff, reads_append_iff, true_and]
  constructor
  · rintro ⟨nVersion, m1, h1, hashPrevBlock, m2, h2, hashMerkleRoot, m3, h3, nTime, m4, h4, nBits,
      m5, h5, nNonce, _, h6, rfl, -, rfl⟩
    exact ⟨m5, ⟨m4, ⟨m3, ⟨m2, ⟨m1, h1, h2⟩, h3⟩, h4⟩, h5⟩, h6⟩
  · rintro ⟨m5, ⟨m4, ⟨m3, ⟨m2, ⟨m1, h1, h2⟩, h3⟩, h4⟩, h5⟩, h6⟩
    exact ⟨_, m1, h1, _, m2, h2, _, m3, h3, _, m4, h4, _, m5, h5, _, next, h6, rfl,
      h6.le_length.2, rfl⟩

/-- A header takes 80 bytes. -/
theorem CBlockHeader.length_serialize (header : CBlockHeader) :
    header.serialize.length = 80 := by
  simp only [CBlockHeader.serialize, writeBytes, writeUint32LE_eq, List.length_append,
    List.length_nil, LittleEndian.length_bytes, List.Vector.toList_length]

/-- A block is its header and its transactions. -/
theorem CBlock.codec [Crypto] : Codec CBlock.deserialize CBlock.serialize CBlock.Encodable := by
  intro input offset blk next
  have hbytes : blk.serialize = blk.toCBlockHeader.serialize ++
      (writeVarInt32 [] blk.vtx.length ++ blk.vtx.flatMap Transaction.serialize) := by
    simp only [CBlock.serialize, writeVarInt32_eq, List.nil_append, List.append_assoc]
  rw [hbytes, CBlock.deserialize]
  simp only [← Decoder.bind_assoc, CBlockHeader.codec.runs_bind_iff,
    (codec_counted Transaction.codec).runs_map_iff,
    @reads_append_iff _ _ _ (CBlockHeader.serialize _), true_and]
  constructor
  · rintro ⟨header, mid, hheader, vtx, ⟨hlen, hvtx⟩, htxs, rfl⟩
    exact ⟨⟨hlen, hvtx⟩, mid, hheader, htxs⟩
  · rintro ⟨h, mid, hheader, htxs⟩
    exact ⟨_, mid, hheader, _, ⟨h.vtx_lt, h.vtx⟩, htxs, rfl⟩

/-- A block decodes from its own bytes. -/
theorem CBlock.deserialize_serialize [Crypto] {blk : CBlock} (h : blk.Encodable) :
    CBlock.deserialize blk.serialize 0 = .ok (blk, blk.serialize.length) :=
  CBlock.codec.decode_whole h

/-! ## Short encodings -/

/-- An element's encoding is no longer than that of the whole list. -/
theorem length_le_of_mem_flatMap {α : Type} {f : α → Bytes} {xs : List α} {x : α}
    (h : x ∈ xs) : (f x).length ≤ (xs.flatMap f).length := by
  obtain ⟨pre, post, rfl⟩ := List.append_of_mem h
  simp only [List.flatMap_append, List.flatMap_cons, List.length_append]
  omega

private theorem length_le_length_flatMap {α : Type} {f : α → Bytes} (hf : ∀ x, 0 < (f x).length)
    (xs : List α) : xs.length ≤ (xs.flatMap f).length := by
  induction xs with
  | nil => exact Nat.le_refl 0
  | cons x xs ih =>
    have hx := hf x
    rw [List.flatMap_cons, List.length_append, List.length_cons]
    omega

theorem CTxIn.length_serialize (txin : CTxIn) :
    txin.serialize.length = txin.scriptSig.length + 44 := by
  simp only [CTxIn.serialize, COutPoint.serialize, writeBytes, writeUint32LE_eq, writeVarInt32,
    List.length_append, List.length_nil, LittleEndian.length_bytes, List.Vector.toList_length]
  omega

theorem CTxOut.length_serialize (txout : CTxOut) :
    txout.serialize.length = txout.scriptPubKey.length + 12 := by
  simp only [CTxOut.serialize, writeBytes, writeUint64LE_eq, writeUint32LE_eq, writeVarInt32,
    List.length_append, List.length_nil, LittleEndian.length_bytes]
  omega

theorem Transaction.length_serialize (tx : Transaction) :
    tx.serialize.length = (tx.vin.flatMap CTxIn.serialize).length +
      (tx.vout.flatMap CTxOut.serialize).length + 16 := by
  simp only [Transaction.serialize, writeUint32LE_eq, writeVarInt32, List.length_append,
    List.length_nil, LittleEndian.length_bytes]
  omega

/-- The inputs take their room. -/
theorem Transaction.length_vin_le (tx : Transaction) : tx.vin.length ≤ tx.serialize.length := by
  have hvin := length_le_length_flatMap (f := CTxIn.serialize)
    (fun txin ↦ by rw [CTxIn.length_serialize]; omega) tx.vin
  rw [Transaction.length_serialize]
  omega

/-- The outputs take their room. -/
theorem Transaction.length_vout_le (tx : Transaction) : tx.vout.length ≤ tx.serialize.length := by
  have hvout := length_le_length_flatMap (f := CTxOut.serialize)
    (fun txout ↦ by rw [CTxOut.length_serialize]; omega) tx.vout
  rw [Transaction.length_serialize]
  omega

theorem CBlock.length_serialize (blk : CBlock) :
    blk.serialize.length = (blk.vtx.flatMap Transaction.serialize).length + 84 := by
  simp only [CBlock.serialize, writeUint32LE_eq, writeVarInt32, List.length_append,
    CBlockHeader.length_serialize, LittleEndian.length_bytes]
  omega

/-- A transaction that carries its hash and takes less than `2 ^ 32` bytes can be encoded. -/
theorem Transaction.encodable_of_length [Crypto] {tx : Transaction}
    (hhash : tx.txHash = tx.getHash) (hlt : tx.serialize.length < 2 ^ 32) : tx.Encodable := by
  have hvin := tx.length_vin_le
  have hvout := tx.length_vout_le
  rw [Transaction.length_serialize] at hlt hvin hvout
  refine ⟨by omega, fun txin h ↦ ?_, by omega, fun txout h ↦ ?_, hhash⟩
  · have hle := length_le_of_mem_flatMap (f := CTxIn.serialize) h
    rw [CTxIn.length_serialize] at hle
    rw [CTxIn.Encodable]
    omega
  · have hle := length_le_of_mem_flatMap (f := CTxOut.serialize) h
    rw [CTxOut.length_serialize] at hle
    rw [CTxOut.Encodable]
    omega

/-- A block whose transactions carry their hashes and that takes less than `2 ^ 32` bytes can be
encoded. -/
theorem CBlock.encodable_of_length [Crypto] {blk : CBlock}
    (hhash : ∀ tx ∈ blk.vtx, tx.txHash = tx.getHash) (hlt : blk.serialize.length < 2 ^ 32) :
    blk.Encodable := by
  rw [CBlock.length_serialize] at hlt
  have hvtx := length_le_length_flatMap (f := Transaction.serialize)
    (fun tx ↦ by rw [Transaction.length_serialize]; omega) blk.vtx
  refine ⟨by omega, fun tx h ↦ ?_⟩
  have hle := length_le_of_mem_flatMap (f := Transaction.serialize) h
  exact Transaction.encodable_of_length (hhash tx h) (by omega)

/-- So can some blocks of less than `2 ^ 32` bytes altogether. -/
theorem encodable_of_length_flatMap [Crypto] {blocks : List CBlock}
    (hhash : ∀ blk ∈ blocks, ∀ tx ∈ blk.vtx, tx.txHash = tx.getHash)
    (hlt : (blocks.flatMap CBlock.serialize).length < 2 ^ 32) :
    blocks.length < 2 ^ 32 ∧ ∀ blk ∈ blocks, blk.Encodable := by
  have hcount := length_le_length_flatMap (f := CBlock.serialize)
    (fun blk ↦ by rw [CBlock.length_serialize]; omega) blocks
  refine ⟨by omega, fun blk h ↦ ?_⟩
  have hle := length_le_of_mem_flatMap (f := CBlock.serialize) h
  exact CBlock.encodable_of_length (hhash blk h) (by omega)

/-! ## Decoding starts inside the buffer -/

private theorem le_of_readUint32LE_bind {α : Type} {f : UInt32 → Decoder α} {input : Bytes}
    {offset next : Nat} {a : α} (h : (readUint32LE >>= f) input offset = .ok (a, next)) :
    offset ≤ input.length := by
  obtain ⟨_, _, hword, -⟩ := bind_eq_ok_iff.mp h
  obtain ⟨b, _, hpeek, -⟩ := bind_eq_ok_iff.mp hword
  obtain ⟨hlt, -⟩ := List.getElem?_eq_some_iff.mp (peek_eq_ok_iff.mp hpeek).1
  omega

/-- A header is never decoded past the end of the buffer. -/
theorem CBlockHeader.offset_le {input : Bytes} {offset next : Nat} {header : CBlockHeader}
    (h : CBlockHeader.deserialize input offset = .ok (header, next)) : offset ≤ input.length :=
  le_of_readUint32LE_bind h

/-- A block is never decoded past the end of the buffer. -/
theorem CBlock.offset_le [Crypto] {input : Bytes} {offset next : Nat} {blk : CBlock}
    (h : CBlock.deserialize input offset = .ok (blk, next)) : offset ≤ input.length := by
  obtain ⟨header, mid, hheader, -⟩ := bind_eq_ok_iff.mp h
  exact CBlockHeader.offset_le hheader

/-- A transaction is never decoded past the end of the buffer. -/
theorem Transaction.offset_le [Crypto] {input : Bytes} {offset next : Nat} {tx : Transaction}
    (h : Transaction.deserialize input offset = .ok (tx, next)) : offset ≤ input.length :=
  le_of_readUint32LE_bind h

end Siliqua.Core
