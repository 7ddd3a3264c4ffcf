import Siliqua.Network.Message
import Siliqua.Network.Node

/-!
# One-shot commands

The functions of `network/node.h` that load the files, talk to one peer and end: syncing with
a peer and receiving a transaction. The stream is what the peer sends, the result the files
after and the messages sent; an error is an exception that leaves the function.
-/

namespace Siliqua.Network

open ByteDecoder Siliqua.Core Siliqua.Consensus Siliqua.Storage

variable [Crypto]

/-! ## Syncing -/

/-- The fee loop of `run_connector`, which stops at the first failure; `node.h:509–521`. -/
def connectorFees (utxoSet : UtxoSet) : Int64 → List Transaction → Int64 × Bool
  | totalFees, [] => (totalFees, true)
  | totalFees, tx :: rest =>
    if tx.isCoinbase then connectorFees utxoSet totalFees rest
    else
      let fee := validateAndGetFee tx utxoSet
      if fee < 0 then (totalFees, false) else connectorFees utxoSet (totalFees + fee) rest

/-- The six flags of `run_connector`; `node.h:504–530`. -/
structure ConnectorChecks where
  merkleOk : Bool
  powOk : Bool
  linksToTip : Bool
  bitsOk : Bool
  txsOk : Bool
  coinbaseOk : Bool

/-- `node.h:499–530`, for the tip of the chain and the bits required on top of it. -/
def connectorChecks (chain : List CBlock) (tip : CBlock) (expectedBits : UInt32)
    (receivedBlock : CBlock) : ConnectorChecks :=
  let expectedHeight := UInt32.ofNat chain.length
  let fees := connectorFees (buildUtxoSet chain) 0 receivedBlock.vtx
  { merkleOk := receivedBlock.isMerkleRootValid
    powOk := checkProofOfWork receivedBlock.toCBlockHeader
    linksToTip := receivedBlock.hashPrevBlock == tip.getHash
    bitsOk := receivedBlock.nBits == expectedBits
    txsOk := fees.2
    coinbaseOk := match receivedBlock.vtx with
      | [] => false
      | front :: _ => front.isCoinbase &&
          outputTotal front.vout == calculateBlockReward expectedHeight + fees.1 }

/-- The chain `run_connector` saves after it got the peer's, if it saves one; `node.h:553–561`. -/
def connectorSwitch (chain peerChain : List CBlock) : Option (List CBlock) :=
  let sameGenesis :=
    match peerChain, chain with
    | peerFront :: _, front :: _ => peerFront.getHash == front.getHash
    | _, _ => false
  let peerChainValid := sameGenesis && validateFullChain peerChain
  let myWork := calculateChainWork (extractHeaders chain)
  let peerWork := if peerChainValid then calculateChainWork (extractHeaders peerChain) else 0
  if peerChainValid && decide (peerWork > myWork) then some peerChain else none

/-- Overwrite the chain file. -/
def Files.saveChain (files : Files) (chain : List CBlock) : Files :=
  { files with chainFile := some (serializeChain chain) }

/-- The part of `run_connector` after the block has arrived; `node.h:495–572`. `chain.back()` of
an empty chain is undefined. -/
def connectorBlock (files : Files) (chain : List CBlock) (payload : Bytes)
    (rest sent : List Message) : Except ReadError (Files × List Message) :=
  match CBlock.deserialize payload 0 with
  | .error e => .error e
  | .ok (receivedBlock, _) =>
    match chain.getLast?,
      getNextWorkRequired (extractHeaders chain) RETARGET_INTERVAL TARGET_TIMESPAN_SECONDS with
    | some tip, some expectedBits =>
      let checks := connectorChecks chain tip expectedBits receivedBlock
      if checks.merkleOk && checks.powOk && checks.linksToTip && checks.bitsOk && checks.txsOk &&
          checks.coinbaseOk then
        .ok (files.saveChain (chain ++ [receivedBlock]), sent)
      else if checks.merkleOk && checks.powOk && !checks.linksToTip then
        let sent := sent ++ [⟨Command.GETBLOCKS, []⟩]
        match rest with
        | [] => .ok (files, sent)
        | msg :: _ =>
          if msg.command ≠ Command.CHAIN then .ok (files, sent)
          else
            match deserializeChain msg.payload with
            | .error e => .error e
            | .ok peerChain =>
              match connectorSwitch chain peerChain with
              | some newChain => .ok (files.saveChain newChain, sent)
              | none => .ok (files, sent)
      else .ok (files, sent)
    | _, _ => .ok (files, sent)

/-- `node.h:453–572`. Without a chain file that loads nothing is sent. -/
def runConnector (files : Files) (stream : Bytes) : Except ReadError (Files × List Message) :=
  match files.chainFile.map deserializeChain with
  | some (.ok chain) =>
    let sent := [⟨Command.VERSION, buildVersionPayload⟩]
    match messages stream with
    | [] => .ok (files, sent)
    | version :: rest =>
      if version.command ≠ Command.VERSION then .ok (files, sent)
      else
        let sent := sent ++ [⟨Command.VERACK, []⟩]
        match rest with
        | verack :: inv :: rest =>
          if verack.command ≠ Command.VERACK ∨ inv.command ≠ Command.INV then .ok (files, sent)
          else
            let sent := sent ++ [⟨Command.GETDATA, inv.payload⟩]
            match rest with
            | [] => .ok (files, sent)
            | block :: rest =>
              if block.command ≠ Command.BLOCK then .ok (files, sent)
              else connectorBlock files chain block.payload rest sent
        | _ => .ok (files, sent)
  | _ => .ok (files, [])

/-! ## Receiving a transaction -/

/-- The part of `run_receive_tx` after the transaction has arrived; `node.h:681–701`. -/
def receiveTx (files : Files) (chain : List CBlock) (payload : Bytes) :
    Except ReadError Files :=
  match Transaction.deserialize payload 0 with
  | .error e => .error e
  | .ok (tx, _) =>
    let utxoSet := buildUtxoSet chain
    let fee := if tx.isCoinbase then -1 else validateAndGetFee tx utxoSet
    let valid := decide (fee ≥ 0)
    let mempool := loadMempoolOrEmpty files.mempoolFile
    if valid && decide (mempool.length ≥ MAX_MEMPOOL_SIZE) then .ok files
    else if valid then
      .ok { files with mempoolFile := some (serializeMempool (mempool ++ [tx])) }
    else .ok files

/-- `node.h:642–704`. Without a chain file that loads nothing happens. -/
def runReceiveTx (files : Files) (stream : Bytes) : Except ReadError (Files × List Message) :=
  match files.chainFile.map deserializeChain with
  | some (.ok chain) =>
    match messages stream with
    | [] => .ok (files, [])
    | version :: rest =>
      if version.command ≠ Command.VERSION then .ok (files, [])
      else
        let sent := [⟨Command.VERSION, buildVersionPayload⟩]
        match rest with
        | [] => .ok (files, sent)
        | verack :: rest =>
          if verack.command ≠ Command.VERACK then .ok (files, sent)
          else
            let sent := sent ++ [⟨Command.VERACK, []⟩]
            match rest with
            | [] => .ok (files, sent)
            | msg :: _ =>
              if msg.command ≠ Command.TX then .ok (files, sent)
              else (receiveTx files chain msg.payload).map fun files ↦ (files, sent)
  | _ => .ok (files, [])

end Siliqua.Network
