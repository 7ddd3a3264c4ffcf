import Siliqua.Base.HashTree
import Siliqua.Core.Block
import Siliqua.Core.Codec
import Siliqua.Crypto.Picosha2

/-!
# What the Merkle root commits to

`BuildMerkleRoot` computes the digest of the hash tree over the transactions, and an odd layer
repeats its last hash. So the root stands for the list completed by these repetitions, and for
the list itself only among lists of one length.
-/

namespace Siliqua.Core

open ByteDecoder HashTree

/-! ## What is hashed -/

/-- The 64 bytes hashed for each pair of a layer. -/
def layerStrings : List Hash256 → List Bytes
  | [] => []
  | [left] => [left.toList ++ left.toList]
  | left :: right :: rest => (left.toList ++ right.toList) :: layerStrings rest

/-- Two hashes, one behind the other. -/
def joinHashes (left right : Hash256) : Bytes := left.toList ++ right.toList

theorem joinHashes_inj {a b c d : Hash256} (h : joinHashes a b = joinHashes c d) :
    a = c ∧ b = d := by
  obtain ⟨hl, hr⟩ := List.append_inj h (by rw [a.toList_length, c.toList_length])
  exact ⟨Subtype.ext hl, Subtype.ext hr⟩

section

variable [Crypto]

/-- A layer hashes its pairs. -/
theorem nextLayer_eq_map : ∀ layers : List Hash256,
    nextLayer layers = (layerStrings layers).map hashDoubleSha256
  | [] => rfl
  | [_] => rfl
  | _ :: _ :: rest => congrArg _ (nextLayer_eq_map rest)

/-- Everything the Merkle loop hashes. -/
def loopStrings : Nat → List Hash256 → List Bytes
  | 0, _ => []
  | fuel + 1, layers =>
    if layers.length > 1 then layerStrings layers ++ loopStrings fuel (nextLayer layers) else []

/-- The strings hashed while the root of the block is computed. -/
def CBlock.nodeStrings (blk : CBlock) : List Bytes :=
  loopStrings blk.vtx.length (blk.vtx.map Transaction.txHash)

/-- The strings hashed for the transactions and for the root. -/
def CBlock.hashedStrings (blk : CBlock) : List Bytes :=
  blk.vtx.map Transaction.serialize ++ blk.nodeStrings

/-! ## The tree behind the loop -/

/-- Digest of a tree of transactions. -/
abbrev txDigest (t : HashTree Transaction) : Hash256 :=
  t.digest hashDoubleSha256 Transaction.serialize joinHashes

/-- The strings hashed at the inner nodes of a tree of transactions. -/
abbrev txJoins (t : HashTree Transaction) : List Bytes :=
  t.joins hashDoubleSha256 Transaction.serialize joinHashes

theorem map_txDigest_pairUp : ∀ layer : List (HashTree Transaction),
    (pairUp layer).map txDigest = nextLayer (layer.map txDigest)
  | [] => rfl
  | [_] => rfl
  | _ :: _ :: rest => congrArg _ (map_txDigest_pairUp rest)

theorem map_txDigest_pairLoop (fuel : Nat) (layer : List (HashTree Transaction)) :
    (pairLoop fuel layer).map txDigest = merkleLoop fuel (layer.map txDigest) := by
  induction fuel generalizing layer with
  | zero => rfl
  | succ fuel ih =>
    rw [pairLoop, merkleLoop, List.length_map]
    split
    · rw [ih, map_txDigest_pairUp]
    · rfl

/-- The hashes at the nodes of the next layer are those of this layer's pairs and below. -/
theorem txJoins_pairUp_subset {strings : List Bytes} :
    ∀ {layer : List (HashTree Transaction)}, (∀ t ∈ layer, txJoins t ⊆ strings) →
      layerStrings (layer.map txDigest) ⊆ strings → ∀ t ∈ pairUp layer, txJoins t ⊆ strings
  | [], _, _ => by simp [pairUp]
  | [t], hbelow, hlayer => by
    have ht := hbelow t List.mem_cons_self
    refine List.forall_mem_singleton.mpr (List.cons_subset.mpr ⟨?_, ?_⟩)
    · exact hlayer List.mem_cons_self
    · exact List.append_subset.mpr ⟨ht, ht⟩
  | left :: right :: rest, hbelow, hlayer => by
    obtain ⟨hleft, hright, hrest⟩ := by simpa only [List.forall_mem_cons] using hbelow
    obtain ⟨hpair, hlater⟩ := List.cons_subset.mp hlayer
    refine List.forall_mem_cons.mpr ⟨List.cons_subset.mpr ⟨hpair, ?_⟩, ?_⟩
    · exact List.append_subset.mpr ⟨hleft, hright⟩
    · exact txJoins_pairUp_subset hrest hlater

/-- The tree's nodes hash what the loop hashes. -/
theorem txJoins_pairLoop_subset {strings : List Bytes} {fuel : Nat}
    {layer : List (HashTree Transaction)} (hbelow : ∀ t ∈ layer, txJoins t ⊆ strings)
    (hloop : loopStrings fuel (layer.map txDigest) ⊆ strings) :
    ∀ t ∈ pairLoop fuel layer, txJoins t ⊆ strings := by
  induction fuel generalizing layer with
  | zero => exact hbelow
  | succ fuel ih =>
    rw [loopStrings, List.length_map] at hloop
    rw [pairLoop]
    split
    · next hlong =>
      rw [if_pos hlong, ← map_txDigest_pairUp] at hloop
      obtain ⟨hlayer, hlater⟩ := List.append_subset.mp hloop
      exact ih (txJoins_pairUp_subset hbelow hlayer) hlater
    · exact hbelow

theorem map_txDigest_leaf {txs : List Transaction} (h : ∀ tx ∈ txs, tx.txHash = tx.getHash) :
    (txs.map leaf).map txDigest = txs.map Transaction.txHash := by
  rw [List.map_map]
  exact List.map_congr_left fun tx htx ↦ (h tx htx).symm

/-- The root is the digest of the tree over the transactions. -/
theorem CBlock.buildMerkleRoot_eq {blk : CBlock} (h : ∀ tx ∈ blk.vtx, tx.txHash = tx.getHash) :
    blk.buildMerkleRoot = ((paired blk.vtx).map txDigest).headD Hash256.zero := by
  rw [CBlock.buildMerkleRoot, paired, map_txDigest_pairLoop, map_txDigest_leaf h, List.length_map]

theorem CBlock.txJoins_subset {blk : CBlock} (h : ∀ tx ∈ blk.vtx, tx.txHash = tx.getHash) :
    ∀ t ∈ paired blk.vtx, txJoins t ⊆ blk.nodeStrings := by
  apply txJoins_pairLoop_subset
  · intro t ht
    obtain ⟨tx, -, rfl⟩ := List.mem_map.mp ht
    exact List.nil_subset _
  · rw [map_txDigest_leaf h]
    exact List.Subset.refl _

/-- Different transactions that carry their hashes serialize alike only beyond what the 32-bit
counts can hold. -/
theorem length_of_serialize_eq {tx tx' : Transaction} (h : tx.txHash = tx.getHash)
    (h' : tx'.txHash = tx'.getHash) (hne : tx ≠ tx') (heq : tx.serialize = tx'.serialize) :
    2 ^ 32 ≤ tx.serialize.length := by
  by_contra hlt
  rw [Nat.not_le] at hlt
  have henc := Transaction.encodable_of_length h hlt
  have henc' := Transaction.encodable_of_length h' (heq ▸ hlt)
  exact hne ((Transaction.codec.encode_inj henc henc').mp heq)

/-- The root commits to the list of transactions completed by the odd layers' repetitions, and to
nothing more, unless a hash is fooled. -/
theorem merkleRoot_commits {blk blk' : CBlock} (hne : blk.vtx ≠ []) (hne' : blk'.vtx ≠ [])
    (hhash : ∀ tx ∈ blk.vtx, tx.txHash = tx.getHash)
    (hhash' : ∀ tx ∈ blk'.vtx, tx.txHash = tx.getHash) :
    (completed blk.vtx = completed blk'.vtx → blk.buildMerkleRoot = blk'.buildMerkleRoot) ∧
    (blk.buildMerkleRoot = blk'.buildMerkleRoot →
      blk.vtx = blk'.vtx ∨
      Collision hashDoubleSha256 (blk.hashedStrings ++ blk'.hashedStrings) ∨
      (blk.vtx.length ≠ blk'.vtx.length ∧ completed blk.vtx = completed blk'.vtx) ∨
      (∃ tx ∈ blk.vtx, tx.serialize ∈ blk'.nodeStrings) ∨
      (∃ tx ∈ blk'.vtx, tx.serialize ∈ blk.nodeStrings) ∨
      ∃ tx ∈ blk.vtx, ∃ tx' ∈ blk'.vtx, tx ≠ tx' ∧ tx.serialize = tx'.serialize ∧
        2 ^ 32 ≤ tx.serialize.length) := by
  rw [blk.buildMerkleRoot_eq hhash, blk'.buildMerkleRoot_eq hhash', completed_eq_iff hne hne']
  refine ⟨fun h ↦ by rw [h], fun hroot ↦ ?_⟩
  obtain ⟨s, hs⟩ := paired_eq_singleton hne
  obtain ⟨t, ht⟩ := paired_eq_singleton hne'
  have hjoins := blk.txJoins_subset hhash s (by rw [hs]; exact List.mem_singleton_self s)
  have hjoins' := blk'.txJoins_subset hhash' t (by rw [ht]; exact List.mem_singleton_self t)
  have hleaves : s.leaves ⊆ blk.vtx := by
    simpa [completed, hs] using completed_subset blk.vtx
  have hleaves' : t.leaves ⊆ blk'.vtx := by
    simpa [completed, ht] using completed_subset blk'.vtx
  rw [hs, ht] at hroot
  rcases eq_or_confusion_of_digest_eq joinHashes_inj (s := s) (t := t) hroot with rfl | hconf
  · have hcompleted : completed blk.vtx = completed blk'.vtx := by
      rw [completed, completed, hs, ht]
    by_cases hlen : blk.vtx.length = blk'.vtx.length
    · exact .inl (eq_of_completed_eq hcompleted hlen)
    · exact .inr (.inr (.inl ⟨hlen, hs.trans ht.symm⟩))
  · cases hconf.subset hleaves hleaves' hjoins hjoins' with
    | collision h => exact .inr (.inl h)
    | leafAsNode ha h => exact .inr (.inr (.inr (.inl ⟨_, ha, h⟩)))
    | nodeAsLeaf hb h => exact .inr (.inr (.inr (.inr (.inl ⟨_, hb, h⟩))))
    | alike ha hb hdiff h =>
      exact .inr (.inr (.inr (.inr (.inr ⟨_, ha, _, hb, hdiff, h,
        length_of_serialize_eq (hhash _ ha) (hhash' _ hb) hdiff h⟩))))

/-- A transaction that reads as the hashes of two others has their root. -/
theorem buildMerkleRoot_of_joined {blk blk' : CBlock} {tx left right : Transaction}
    (hblk : blk.vtx = [tx]) (hblk' : blk'.vtx = [left, right]) (hhash : tx.txHash = tx.getHash)
    (h : tx.serialize = joinHashes left.txHash right.txHash) :
    blk.buildMerkleRoot = blk'.buildMerkleRoot := by
  rw [CBlock.buildMerkleRoot, CBlock.buildMerkleRoot, hblk, hblk']
  change tx.txHash = hashDoubleSha256 (joinHashes left.txHash right.txHash)
  rw [hhash, Transaction.getHash, h]

end

/-! ## Lists with one root -/

/-- A transaction of one input and one output. -/
def countedTx (n : UInt8) (hash : Nat) : Transaction :=
  ⟨1, [⟨COutPoint.null, [n], 0xFFFFFFFF⟩], [⟨5000000000, [1, 1]⟩], 0, .ofBigEndian hash⟩

/-- Three transactions. -/
def threeTxs : List Transaction :=
  [countedTx 1 0xe7cf7cd6d34b77323ba3baad7f00f49f7814d1bd0cfd2d4601e20fc005e22ef3,
    countedTx 2 0x9acdca67d5b9bb255ebc5923528138fc8d557fc4e40658744e6c6c79e282700e,
    countedTx 3 0xdc22fd500412a69dee1a54c25e0005c3dcc4a3d6dee95d2a7cc1a4340297bf71]

/-- A block of these transactions. -/
def blockOf (vtx : List Transaction) : CBlock :=
  ⟨⟨1, Hash256.zero, Hash256.zero, 1700000000, 0x207fffff, 0⟩, vtx⟩

/-- A block of the three. -/
def threeTxBlock : CBlock := blockOf threeTxs

/-- The same with the last one repeated. -/
def repeatedTxBlock : CBlock := blockOf (threeTxs ++ threeTxs.drop 2)

/-- The transaction with its hash filled in. -/
def hashed (tx : Transaction) : Transaction :=
  { tx with txHash := @Transaction.getHash keylessCrypto tx }

/-- A transaction of nothing but zero inputs. -/
def zeroInputs (n : Nat) : Transaction :=
  hashed ⟨0, List.replicate n ⟨⟨Hash256.zero, 0⟩, [], 0⟩, [], 0, Hash256.zero⟩

/-- A transaction of nothing but zero outputs. -/
def zeroOutputs (n : Nat) : Transaction :=
  hashed ⟨0, [], List.replicate n ⟨0, []⟩, 0, Hash256.zero⟩

private theorem flatMap_zeros {α : Type} {f : α → Bytes} {a : α} {k : Nat}
    (h : f a = List.replicate k 0) (n : Nat) :
    (List.replicate n a).flatMap f = List.replicate (n * k) 0 := by
  rw [List.flatMap_def, List.map_replicate, h, List.flatten_replicate_replicate]

private theorem writeUint32LE_zero (out : Bytes) :
    writeUint32LE out 0 = out ++ List.replicate 4 0 := rfl

/-- A count that is zero modulo `2 ^ 32` does not show in the bytes. -/
theorem serialize_zeroInputs {n : Nat} (h : UInt32.ofNat n = 0) :
    (zeroInputs n).serialize = List.replicate (n * 44 + 16) 0 := by
  have hinput : CTxIn.serialize ⟨⟨Hash256.zero, 0⟩, [], 0⟩ = List.replicate 44 0 := by
    decide +kernel
  have hversion : Int32.toUInt32 0 = 0 := rfl
  have hnone : UInt32.ofNat ([] : List CTxOut).length = 0 := rfl
  simp only [Transaction.serialize, zeroInputs, hashed, writeVarInt32, List.length_replicate, h,
    hnone, hversion, writeUint32LE_zero, flatMap_zeros hinput, List.flatMap_nil, List.nil_append,
    List.append_nil, List.replicate_append_replicate]
  congr 1
  omega

/-- The same for outputs. -/
theorem serialize_zeroOutputs {n : Nat} (h : UInt32.ofNat n = 0) :
    (zeroOutputs n).serialize = List.replicate (n * 12 + 16) 0 := by
  have houtput : CTxOut.serialize ⟨0, []⟩ = List.replicate 12 0 := by decide +kernel
  have hversion : Int32.toUInt32 0 = 0 := rfl
  have hnone : UInt32.ofNat ([] : List CTxIn).length = 0 := rfl
  simp only [Transaction.serialize, zeroOutputs, hashed, writeVarInt32, List.length_replicate, h,
    hnone, hversion, writeUint32LE_zero, flatMap_zeros houtput, List.flatMap_nil, List.nil_append,
    List.append_nil, List.replicate_append_replicate]
  congr 1
  omega

private theorem serialize_alike :
    (zeroInputs (3 * 2 ^ 32)).serialize = (zeroOutputs (11 * 2 ^ 32)).serialize := by
  have hlen : 3 * 2 ^ 32 * 44 + 16 = 11 * 2 ^ 32 * 12 + 16 := by decide
  rw [serialize_zeroInputs (by decide), serialize_zeroOutputs (by decide), hlen]

private theorem hashedStrings_singleton (tx : Transaction) :
    @CBlock.hashedStrings keylessCrypto (blockOf [tx]) = [tx.serialize] := rfl

private theorem buildMerkleRoot_hashed (tx : Transaction) :
    @CBlock.buildMerkleRoot keylessCrypto (blockOf [hashed tx]) =
      @hashDoubleSha256 keylessCrypto (hashed tx).serialize := rfl

private theorem txHash_threeTxBlock :
    ∀ tx ∈ threeTxBlock.vtx, tx.txHash = @Transaction.getHash keylessCrypto tx := by
  decide +kernel

private theorem txHash_repeatedTxBlock :
    ∀ tx ∈ repeatedTxBlock.vtx, tx.txHash = @Transaction.getHash keylessCrypto tx := by
  have hsub : repeatedTxBlock.vtx ⊆ threeTxBlock.vtx := by decide +kernel
  exact fun tx htx ↦ txHash_threeTxBlock tx (hsub htx)

private theorem not_collision_threeTxBlock :
    ¬ Collision (@hashDoubleSha256 keylessCrypto)
      (@CBlock.hashedStrings keylessCrypto threeTxBlock ++
        @CBlock.hashedStrings keylessCrypto repeatedTxBlock) := by
  have hsub : @CBlock.hashedStrings keylessCrypto repeatedTxBlock ⊆
      @CBlock.hashedStrings keylessCrypto threeTxBlock := by
    decide +kernel
  have hnodup : ((@CBlock.hashedStrings keylessCrypto threeTxBlock).map
      (@hashDoubleSha256 keylessCrypto)).Nodup := by
    decide +kernel
  have hall := List.append_subset.mpr ⟨List.Subset.refl _, hsub⟩
  rintro ⟨x, hx, y, hy, hne, heq⟩
  exact hne (List.inj_on_of_nodup_map hnodup (hall hx) (hall hy) heq)

/-- Two pairs of different lists with one root, where all that is hashed has different hashes: the
last of three transactions repeated, and more inputs or outputs than the counts can hold. -/
theorem merkleRoot_eq_repeatedTxBlock :
    (@CBlock.buildMerkleRoot keylessCrypto threeTxBlock =
        @CBlock.buildMerkleRoot keylessCrypto repeatedTxBlock ∧
      (∀ tx ∈ threeTxBlock.vtx, tx.txHash = @Transaction.getHash keylessCrypto tx) ∧
      (∀ tx ∈ repeatedTxBlock.vtx, tx.txHash = @Transaction.getHash keylessCrypto tx) ∧
      threeTxBlock.vtx ≠ repeatedTxBlock.vtx ∧
      ¬ Collision (@hashDoubleSha256 keylessCrypto)
        (@CBlock.hashedStrings keylessCrypto threeTxBlock ++
          @CBlock.hashedStrings keylessCrypto repeatedTxBlock)) ∧
    (@CBlock.buildMerkleRoot keylessCrypto (blockOf [zeroInputs (3 * 2 ^ 32)]) =
        @CBlock.buildMerkleRoot keylessCrypto (blockOf [zeroOutputs (11 * 2 ^ 32)]) ∧
      [zeroInputs (3 * 2 ^ 32)] ≠ [zeroOutputs (11 * 2 ^ 32)] ∧
      ¬ Collision (@hashDoubleSha256 keylessCrypto)
        (@CBlock.hashedStrings keylessCrypto (blockOf [zeroInputs (3 * 2 ^ 32)]) ++
          @CBlock.hashedStrings keylessCrypto (blockOf [zeroOutputs (11 * 2 ^ 32)]))) := by
  refine ⟨⟨by decide +kernel, txHash_threeTxBlock, txHash_repeatedTxBlock, ?_,
    not_collision_threeTxBlock⟩, ?_, ?_, ?_⟩
  · exact fun h ↦ absurd (congrArg List.length h) (by decide)
  · rw [zeroInputs, zeroOutputs, buildMerkleRoot_hashed, buildMerkleRoot_hashed]
    exact congrArg _ serialize_alike
  · intro h
    have hvin := congrArg (fun tx ↦ tx.vin.length) (List.singleton_inj.mp h)
    simp only [zeroInputs, zeroOutputs, hashed, List.length_replicate, List.length_nil] at hvin
    omega
  · rw [hashedStrings_singleton, hashedStrings_singleton, serialize_alike]
    rintro ⟨x, hx, y, hy, hne, -⟩
    have hall : ∀ z ∈ [(zeroOutputs (11 * 2 ^ 32)).serialize] ++
        [(zeroOutputs (11 * 2 ^ 32)).serialize], z = (zeroOutputs (11 * 2 ^ 32)).serialize := by
      simp only [List.mem_append, List.mem_singleton, or_self, imp_self, implies_true]
    exact hne ((hall x hx).trans (hall y hy).symm)

/-- The two blocks are completed alike, so their roots are equal. -/
theorem merkleRoot_commits_repeatedTxBlock :
    @CBlock.buildMerkleRoot keylessCrypto threeTxBlock =
      @CBlock.buildMerkleRoot keylessCrypto repeatedTxBlock :=
  (@merkleRoot_commits keylessCrypto threeTxBlock repeatedTxBlock (by decide) (by decide)
    txHash_threeTxBlock txHash_repeatedTxBlock).1 (by decide +kernel)

end Siliqua.Core
