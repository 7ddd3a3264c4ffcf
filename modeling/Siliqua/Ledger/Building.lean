import Siliqua.Ledger.Replay

/-!
# Built blocks

What `build_next_block` puts into a block, whatever the search for a nonce does: the header
fits the chain it was built on, and the first transaction is a coinbase of the right amount.
-/

namespace Siliqua.Ledger

open Siliqua.Core Siliqua.Consensus Siliqua.Network

variable [Crypto]

/-! ## Proof-of-work search -/

/-- Two headers differ at most in time and nonce. -/
structure SameTemplate (a b : CBlockHeader) : Prop where
  nVersion : a.nVersion = b.nVersion
  hashPrevBlock : a.hashPrevBlock = b.hashPrevBlock
  hashMerkleRoot : a.hashMerkleRoot = b.hashMerkleRoot
  nBits : a.nBits = b.nBits

omit [Crypto] in
theorem sameTemplate_nextAttempt (header : CBlockHeader) :
    SameTemplate (nextAttempt header) header := by
  unfold nextAttempt
  split <;> exact ⟨rfl, rfl, rfl, rfl⟩

omit [Crypto] in
theorem SameTemplate.trans {a b c : CBlockHeader} (h : SameTemplate a b) (h' : SameTemplate b c) :
    SameTemplate a c :=
  ⟨h.nVersion.trans h'.nVersion, h.hashPrevBlock.trans h'.hashPrevBlock,
    h.hashMerkleRoot.trans h'.hashMerkleRoot, h.nBits.trans h'.nBits⟩

/-- A search that ends has met its target and kept the header's template. -/
theorem mineLoop_spec {target : Hash256} {fuel : Nat} {header found : CBlockHeader}
    (h : mineLoop target fuel header = some found) :
    SameTemplate found header ∧ found.getHash.toList ≤ target.toList := by
  induction fuel generalizing header with
  | zero => cases h
  | succ fuel ih =>
    rw [mineLoop] at h
    split at h
    · obtain ⟨hsame, hle⟩ := ih h
      exact ⟨hsame.trans (sameTemplate_nextAttempt header), hle⟩
    · next hnot =>
      cases h
      exact ⟨⟨rfl, rfl, rfl, rfl⟩, List.not_lt.mp hnot⟩

/-- What `mine_block` leaves in a header when it returns. -/
theorem mineBlock_spec {fuel : Nat} {header found : CBlockHeader} {bits : UInt32}
    (h : mineBlock fuel header bits = some found) :
    found.nBits = bits ∧ found.hashPrevBlock = header.hashPrevBlock ∧
      found.hashMerkleRoot = header.hashMerkleRoot ∧ checkProofOfWork found = true := by
  obtain ⟨hsame, hle⟩ := mineLoop_spec h
  refine ⟨hsame.nBits, hsame.hashPrevBlock, hsame.hashMerkleRoot, ?_⟩
  have hbits : found.nBits = bits := hsame.nBits
  rw [checkProofOfWork, decide_eq_true_iff, hbits]
  exact hle

/-! ## The coinbase -/

/-- The built coinbase looks like one. -/
theorem isCoinbase_buildCoinbaseTx (address : Address) (height : UInt32) (fees : Int64) :
    (buildCoinbaseTx address height fees).isCoinbase = true :=
  COutPoint.isNull_null

/-- The built coinbase pays the reward and the fees. -/
theorem outputTotal_buildCoinbaseTx (address : Address) (height : UInt32) (fees : Int64) :
    outputTotal (buildCoinbaseTx address height fees).vout =
      calculateBlockReward height + fees := by
  change 0 + (calculateBlockReward height + fees) = _
  rw [Int64.zero_add]

theorem length_vout_buildCoinbaseTx (address : Address) (height : UInt32) (fees : Int64) :
    (buildCoinbaseTx address height fees).vout.length = 1 := rfl

/-! ## The block -/

/-- What `build_next_block` returns. -/
structure Built (headers : List CBlockHeader) (prevHash : Hash256) (address : Address)
    (fees : Int64) (extraTxs : List Transaction) (blk : CBlock) : Prop where
  vtx : blk.vtx = buildCoinbaseTx address (UInt32.ofNat headers.length) fees :: extraTxs
  prev : blk.hashPrevBlock = prevHash
  bits : some blk.nBits = expectedBits headers
  merkle : blk.isMerkleRootValid = true
  work : checkProofOfWork blk.toCBlockHeader = true

theorem buildNextBlock_spec {fuel : Nat} {clock : UInt32} {headers : List CBlockHeader}
    {prevHash : Hash256} {address : Address} {fees : Int64} {extraTxs : List Transaction}
    {blk : CBlock}
    (h : buildNextBlock fuel clock headers prevHash address fees extraTxs = some blk) :
    Built headers prevHash address fees extraTxs blk := by
  unfold buildNextBlock at h
  rw [Option.bind_eq_bind, Option.bind_eq_some_iff] at h
  obtain ⟨bits, hbits, h⟩ := h
  rw [Option.bind_eq_bind, Option.bind_eq_some_iff] at h
  obtain ⟨header, hmine, h⟩ := h
  obtain ⟨hb, hprev, hmerkle, hwork⟩ := mineBlock_spec hmine
  cases h
  refine ⟨rfl, hprev, by rw [hbits]; exact congrArg some hb, ?_, hwork⟩
  rw [CBlock.isMerkleRootValid, beq_iff_eq]
  exact hmerkle.symm

/-- The block mined on a chain, taken apart. -/
theorem mineOnto_spec {fuel : Nat} {clock : UInt32} {chain : List CBlock} {address : Address}
    {mempool : List Transaction} {blk : CBlock}
    (h : mineOnto fuel clock chain address mempool = some blk) :
    chain ≠ [] ∧ Built (extractHeaders chain) (tipHash chain) address
      (selectMempool chain mempool).totalFees (selectMempool chain mempool).extraTxs blk := by
  unfold mineOnto at h
  rw [Option.bind_eq_bind, Option.bind_eq_some_iff] at h
  obtain ⟨tip, htip, h⟩ := h
  have hhash := tipHash_eq htip
  refine ⟨?_, ?_⟩
  · rintro rfl
    simp at htip
  · rw [hhash]
    exact buildNextBlock_spec h

/-- A built block passes every check that does not look at the UTXO set. -/
theorem Built.headerFits {chain : List CBlock} {address : Address} {fees : Int64}
    {extraTxs : List Transaction} {blk : CBlock}
    (h : Built (extractHeaders chain) (tipHash chain) address fees extraTxs blk) :
    HeaderFits chain blk :=
  ⟨h.merkle, h.work, h.prev, h.bits⟩

end Siliqua.Ledger
