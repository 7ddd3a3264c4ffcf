import Siliqua.Consensus.Pow
import Siliqua.Storage.Storage
import Siliqua.Wallet.Wallet

/-!
# Validation, fork choice and block building

The functions of `network/node.h` that decide which blocks and chains a node takes and what
it mines. `int64_t` is `Int64`, whose operations wrap where C++ leaves overflow undefined.
-/

namespace Siliqua.Network

open Siliqua.Core Siliqua.Consensus Siliqua.Wallet Siliqua.Storage KeyedStore

/-! ## Constants -/

def RETARGET_INTERVAL : Nat := 5
def TARGET_TIMESPAN_SECONDS : Nat := 60
def INITIAL_BITS : UInt32 := 0x207fffff
def MAX_MEMPOOL_SIZE : Nat := 1000
def DEFAULT_FEE : Int64 := 1000
def INITIAL_REWARD : Int64 := 5000000000
def HALVING_INTERVAL : UInt32 := 10

/-! ## Rewards and headers -/

/-- `node.h:31–37`. -/
def calculateBlockReward (height : UInt32) : Int64 :=
  let halvings := height / HALVING_INTERVAL
  if halvings ≥ 63 then 0 else INITIAL_REWARD >>> Int64.ofNat halvings.toNat

/-- Header parts of a chain; `node.h:56–63`. -/
def extractHeaders (chain : List CBlock) : List CBlockHeader := chain.map CBlock.toCBlockHeader

/-- Difficulty of the block after the given headers; the conditional of `node.h:155–157` and
`node.h:283–285`. -/
def expectedBits (headers : List CBlockHeader) : Option UInt32 :=
  if headers.isEmpty then some INITIAL_BITS
  else getNextWorkRequired headers RETARGET_INTERVAL TARGET_TIMESPAN_SECONDS

/-- Every output ever paid, minus every output ever spent, in two passes; `node.h:66–83`. -/
def buildUtxoSet (chain : List CBlock) : UtxoSet :=
  let utxos := chain.foldl
    (fun utxos blk ↦ blk.vtx.foldl (fun utxos tx ↦ emplaceAll utxos tx.outpoints) utxos) ∅
  chain.foldl
    (fun utxos blk ↦ blk.vtx.foldl (fun utxos tx ↦ eraseAll utxos tx.prevouts) utxos) utxos

/-- The outputs a P2PKH script locks to an address; `node.h:85–95`. -/
def filterUtxosByAddress (utxos : UtxoSet) (address : Address) : UtxoSet :=
  restrict (fun txout ↦ extractP2pkhAddress txout.scriptPubKey = some address) utxos

/-- Sum of output values in `int64_t`; `node.h:117–120,182–185,232–235`. -/
def outputTotal (vout : List CTxOut) : Int64 := vout.foldl (fun total out ↦ total + out.nValue) 0

variable [Crypto]

/-- `node.h:39–54`; the height goes into the coinbase's `scriptSig`. -/
def buildCoinbaseTx (rewardAddress : Address) (height : UInt32) (totalFees : Int64) :
    Transaction :=
  let coinbaseIn : CTxIn :=
    { prevout := COutPoint.null
      scriptSig := [(height &&& 0xFF).toUInt8, ((height >>> 8) &&& 0xFF).toUInt8,
        ((height >>> 16) &&& 0xFF).toUInt8, ((height >>> 24) &&& 0xFF).toUInt8]
      nSequence := 0xFFFFFFFF }
  let reward := calculateBlockReward height + totalFees
  let tx : Transaction :=
    ⟨1, [coinbaseIn], [⟨reward, buildP2pkhScriptPubkey rewardAddress⟩], 0, Hash256.zero⟩
  { tx with txHash := tx.getHash }

/-! ## Fees -/

/-- One turn of the input loop: the input must be there and unlock; `node.h:110–116`. -/
def addInput (tx : Transaction) (utxoSet : UtxoSet) (inputTotal : Int64) (input : CTxIn × Nat) :
    Option Int64 :=
  match utxoSet.lookup input.1.prevout with
  | none => none
  | some out =>
    if verifyTransactionSignature tx input.2 out.scriptPubKey then some (inputTotal + out.nValue)
    else none

/-- The fee of a transaction against a UTXO set, or `-1`; `node.h:105–125`. -/
def validateAndGetFee (tx : Transaction) (utxoSet : UtxoSet) : Int64 :=
  if tx.vin.isEmpty then -1
  else
    match tx.vin.zipIdx.foldlM (addInput tx utxoSet) 0 with
    | none => -1
    | some inputTotal =>
      if outputTotal tx.vout > inputTotal then -1 else inputTotal - outputTotal tx.vout

/-! ## Full validation -/

/-- What `validate_full_chain` carries from block to block; `node.h:144–146`. -/
structure ChainState where
  utxoSet : UtxoSet
  headersSoFar : List CBlockHeader
  expectedPrev : Hash256

/-- The state before the first block. -/
def ChainState.initial : ChainState := ⟨∅, [], Hash256.zero⟩

/-- One turn of the transaction loop; `node.h:166–180`. The loop over `vout` counts in
`uint32_t` and never ends on `2^32` or more outputs, so no such transaction gets past it. -/
def connectTx (st : UtxoSet × Int64) (tx : Transaction) : Option (UtxoSet × Int64) :=
  if 2 ^ 32 ≤ tx.vout.length then none
  else if tx.isCoinbase then some (emplaceAll st.1 tx.outpoints, st.2)
  else
    let fee := validateAndGetFee tx st.1
    if fee < 0 then none
    else some (emplaceAll (eraseAll st.1 tx.prevouts) tx.outpoints, st.2 + fee)

/-- One turn of the block loop; `node.h:148–193`. -/
def connectBlock (st : ChainState) (blk : CBlock) : Option ChainState :=
  if !blk.isMerkleRootValid || !checkProofOfWork blk.toCBlockHeader then none
  else if blk.hashPrevBlock ≠ st.expectedPrev then none
  else if some blk.nBits ≠ expectedBits st.headersSoFar then none
  else
    match blk.vtx with
    | [] => none
    | front :: _ =>
      if !front.isCoinbase then none
      else
        match blk.vtx.foldlM connectTx (st.utxoSet, 0) with
        | none => none
        | some (utxoSet, blockFees) =>
          let height := UInt32.ofNat st.headersSoFar.length
          if outputTotal front.vout ≠ calculateBlockReward height + blockFees then none
          else some ⟨utxoSet, st.headersSoFar ++ [blk.toCBlockHeader], blk.getHash⟩

/-- The block loop over a whole chain. -/
def replayChain (chain : List CBlock) : Option ChainState :=
  chain.foldlM connectBlock ChainState.initial

/-- `node.h:139–196`. -/
def validateFullChain (chain : List CBlock) : Bool :=
  !chain.isEmpty && (replayChain chain).isSome

/-! ## Fast path and fork choice -/

/-- One turn of the fee loop, against a UTXO set that does not change; `node.h:221–230`. -/
def addFee (utxoSet : UtxoSet) (totalFees : Int64) (tx : Transaction) : Option Int64 :=
  if tx.isCoinbase then some totalFees
  else
    let fee := validateAndGetFee tx utxoSet
    if fee < 0 then none else some (totalFees + fee)

/-- The result and the chain after the call; `node.h:208–246`. Callers keep the chain
non-empty: `chain.back()` of an empty one is undefined. -/
def tryExtendChain (chain : List CBlock) (receivedBlock : CBlock) : Bool × List CBlock :=
  match chain.getLast?,
    getNextWorkRequired (extractHeaders chain) RETARGET_INTERVAL TARGET_TIMESPAN_SECONDS with
  | some tip, some expectedBits =>
    let expectedHeight := UInt32.ofNat chain.length
    let utxoSet := buildUtxoSet chain
    if !receivedBlock.isMerkleRootValid || !checkProofOfWork receivedBlock.toCBlockHeader then
      (false, chain)
    else if receivedBlock.hashPrevBlock ≠ tip.getHash ∨ receivedBlock.nBits ≠ expectedBits then
      (false, chain)
    else
      match receivedBlock.vtx.foldlM (addFee utxoSet) 0 with
      | none => (false, chain)
      | some totalFees =>
        match receivedBlock.vtx with
        | [] => (false, chain)
        | front :: _ =>
          if !front.isCoinbase then (false, chain)
          else if outputTotal front.vout ≠ calculateBlockReward expectedHeight + totalFees then
            (false, chain)
          else (true, chain ++ [receivedBlock])
  | _, _ => (false, chain)

/-- The result and the chain after the call; `node.h:255–267`. -/
def tryReorg (chain peerChain : List CBlock) : Bool × List CBlock :=
  let sameGenesis :=
    match peerChain, chain with
    | peerFront :: _, front :: _ => peerFront.getHash == front.getHash
    | _, _ => false
  if !sameGenesis || !validateFullChain peerChain then (false, chain)
  else if calculateChainWork (extractHeaders peerChain) > calculateChainWork (extractHeaders chain)
    then (true, peerChain)
  else (false, chain)

/-! ## Building blocks -/

/-- `node.h:280–298`, with the value `std::time` returns. -/
def buildNextBlock (fuel : Nat) (clock : UInt32) (headers : List CBlockHeader)
    (prevHash : Hash256) (rewardAddress : Address) (totalFees : Int64)
    (extraTxs : List Transaction) : Option CBlock := do
  let height := UInt32.ofNat headers.length
  let nextBits ← expectedBits headers
  let vtx := buildCoinbaseTx rewardAddress height totalFees :: extraTxs
  -- `nBits` and `nNonce` are set by `mine_block`, the Merkle root does not depend on the header.
  let blk : CBlock := ⟨⟨1, prevHash, Hash256.zero, clock, 0, 0⟩, vtx⟩
  let blk := { blk with hashMerkleRoot := blk.buildMerkleRoot }
  let header ← mineBlock fuel blk.toCBlockHeader nextBits
  pure ⟨header, vtx⟩

/-- `node.h:300–302`. -/
def buildGenesisChain (fuel : Nat) (clock : UInt32) (rewardAddress : Address) :
    Option (List CBlock) :=
  (buildNextBlock fuel clock [] Hash256.zero rewardAddress 0 []).map ([·])

/-- What the mempool loop of `run_listener` and `Node::MiningLoop` carries along. -/
structure Selection where
  utxoSet : UtxoSet
  extraTxs : List Transaction
  totalFees : Int64

/-- One turn of the mempool loop; `node.h:367–384`, `daemon.h:154–166`. -/
def selectTx (s : Selection) (tx : Transaction) : Selection :=
  let fee := validateAndGetFee tx s.utxoSet
  if fee ≥ 0 then
    ⟨emplaceAll (eraseAll s.utxoSet tx.prevouts) tx.outpoints, s.extraTxs ++ [tx],
      s.totalFees + fee⟩
  else s

/-- The mempool entries that still check out on top of a chain, with their fees. -/
def selectMempool (chain : List CBlock) (mempool : List Transaction) : Selection :=
  mempool.foldl selectTx ⟨buildUtxoSet chain, [], 0⟩

/-- The block mined on top of a chain from a mempool; `node.h:363–391`, `daemon.h:152–169`. -/
def mineOnto (fuel : Nat) (clock : UInt32) (chain : List CBlock) (rewardAddress : Address)
    (mempool : List Transaction) : Option CBlock := do
  let tip ← chain.getLast?
  let selection := selectMempool chain mempool
  buildNextBlock fuel clock (extractHeaders chain) tip.getHash rewardAddress selection.totalFees
    selection.extraTxs

/-! ## Persisted state -/

/-- The persisted mempool, or an empty one where the file is missing or does not decode;
`node.h:336–343`. -/
def loadMempoolOrEmpty (file : Option Bytes) : List Transaction :=
  match file with
  | none => []
  | some buffer => match loadMempool buffer with
    | .ok mempool => mempool
    | .error _ => []

/-- The persisted chain, or a fresh genesis where loading throws; `node.h:305–313`. -/
def loadOrCreateChain (fuel : Nat) (clock : UInt32) (file : Option Bytes)
    (rewardAddress : Address) : Option (List CBlock) :=
  match file with
  | none => buildGenesisChain fuel clock rewardAddress
  | some buffer => match deserializeChain buffer with
    | .ok chain => some chain
    | .error _ => buildGenesisChain fuel clock rewardAddress

/-- A node's chain file and mempool file; `none` where the file does not exist. -/
structure Files where
  chainFile : Option Bytes
  mempoolFile : Option Bytes

/-- What `run_listener` does before it opens its socket: load, mine one block, save, clear the
mempool; `node.h:357–394`. Returns the mined block and the files after. -/
def runListener (fuel : Nat) (genesisClock clock : UInt32) (files : Files)
    (walletAddress : Address) : Option (CBlock × Files) := do
  let chain ← loadOrCreateChain fuel genesisClock files.chainFile walletAddress
  let newBlock ← mineOnto fuel clock chain walletAddress (loadMempoolOrEmpty files.mempoolFile)
  pure (newBlock, ⟨some (serializeChain (chain ++ [newBlock])), some (serializeMempool [])⟩)

end Siliqua.Network
