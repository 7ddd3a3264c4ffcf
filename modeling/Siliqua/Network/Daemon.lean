import Mathlib.Tactic.SplitIfs
import Siliqua.Network.Message
import Siliqua.Network.Node

/-!
# The persistent node

`network::Node` of `network/daemon.h`: connection handling, mining, peer polling, and the
steps its threads take between lock and unlock.
-/

namespace Siliqua.Network

open ByteDecoder Siliqua.Core Siliqua.Consensus Siliqua.Storage

/-- What `mutex_` guards: `chain_`, the chain file and the mempool file. -/
structure Node where
  chain : List CBlock
  files : Files

variable [Crypto]

namespace Node

/-- The state a constructor leaves behind for a loaded or fresh chain; `daemon.h:37–42`. -/
def start (chain : List CBlock) (mempoolFile : Option Bytes) : Node :=
  ⟨chain, some (serializeChain chain), mempoolFile⟩

/-- Replace `chain_` and save it. -/
def saveChain (node : Node) (chain : List CBlock) : Node :=
  ⟨chain, { node.files with chainFile := some (serializeChain chain) }⟩

/-- `daemon.h:125–141`. -/
def acceptTransaction (node : Node) (tx : Transaction) : Node :=
  let utxoSet := buildUtxoSet node.chain
  let fee := if tx.isCoinbase then -1 else validateAndGetFee tx utxoSet
  if fee < 0 then node
  else
    let mempool := loadMempoolOrEmpty node.files.mempoolFile
    if MAX_MEMPOOL_SIZE ≤ mempool.length then node
    else { node with
      files := { node.files with mempoolFile := some (serializeMempool (mempool ++ [tx])) } }

/-- Accepting a transaction leaves the chain alone. -/
theorem chain_acceptTransaction (node : Node) (tx : Transaction) :
    (node.acceptTransaction tx).chain = node.chain := by
  unfold acceptTransaction
  dsimp only
  split_ifs <;> rfl

/-- The submission gets into the mempool: it does not look like a coinbase, has a fee on the
chain's UTXO set, and there is room. -/
def Takes (node : Node) (tx : Transaction) : Prop :=
  tx.isCoinbase = false ∧ 0 ≤ validateAndGetFee tx (buildUtxoSet node.chain) ∧
    (loadMempoolOrEmpty node.files.mempoolFile).length < MAX_MEMPOOL_SIZE

instance (node : Node) (tx : Transaction) : Decidable (node.Takes tx) :=
  inferInstanceAs (Decidable (_ ∧ _ ∧ _))

/-- Accepting a transaction appends it to the mempool file or does nothing. -/
theorem acceptTransaction_eq (node : Node) (tx : Transaction) :
    node.acceptTransaction tx =
      if node.Takes tx then
        { node with files := { node.files with mempoolFile := some (serializeMempool
          (loadMempoolOrEmpty node.files.mempoolFile ++ [tx])) } }
      else node := by
  by_cases h : node.Takes tx
  · rw [if_pos h]
    obtain ⟨hcb, hfee, hroom⟩ := h
    simp only [acceptTransaction, hcb, Bool.false_eq_true, if_false]
    rw [if_neg (Int64.not_lt.mpr hfee), if_neg (Nat.not_le.mpr hroom)]
  · rw [if_neg h]
    unfold acceptTransaction
    dsimp only
    split
    · rfl
    · next hcb =>
      split
      · rfl
      · next hfee =>
        split
        · rfl
        · next hroom =>
          exact absurd ⟨Bool.eq_false_of_not_eq_true hcb, Int64.not_lt.mp hfee,
            Nat.not_le.mp hroom⟩ h

/-- One iteration of the mining loop; `daemon.h:149–173`. `none` while the search goes on. -/
def miningLoop (node : Node) (fuel : Nat) (clock : UInt32) (walletAddress : Address) :
    Option Node := do
  let newBlock ← mineOnto fuel clock node.chain walletAddress
    (loadMempoolOrEmpty node.files.mempoolFile)
  let node := node.saveChain (node.chain ++ [newBlock])
  pure { node with files := { node.files with mempoolFile := some (serializeMempool []) } }

/-- First critical section of `PollPeer`; `daemon.h:222–229`. -/
def pollExtend (node : Node) (receivedBlock : CBlock) : Bool × Node :=
  let (extended, chain) := tryExtendChain node.chain receivedBlock
  if extended then (true, node.saveChain chain) else (false, node)

/-- Second critical section of `PollPeer`; `daemon.h:246–254`. -/
def pollReorg (node : Node) (peerChain : List CBlock) : Bool × Node :=
  let (switched, chain) := tryReorg node.chain peerChain
  if switched then (true, node.saveChain chain) else (false, node)

/-! ## One connection -/

/-- The loop of `HandleConnection` over the messages that still arrive; `daemon.h:102–120`.
An error is an exception that leaves the thread function. Every send goes out, here and below;
`serveOver`, `handleConnectionOver` and `pollPeerOver` have those that do not. -/
def serve (node : Node) : List Message → List Message → Except ReadError (Node × List Message)
  | [], sent => .ok (node, sent)
  | msg :: rest, sent =>
    if msg.command = Command.GETDATA then
      -- `chain_.back()` is undefined on an empty chain
      match node.chain.getLast? with
      | none => .ok (node, sent)
      | some tip => serve node rest (sent ++ [⟨Command.BLOCK, tip.serialize⟩])
    else if msg.command = Command.GETBLOCKS then
      serve node rest (sent ++ [⟨Command.CHAIN, serializeChain node.chain⟩])
    else if msg.command = Command.TX then
      match Transaction.deserialize msg.payload 0 with
      | .error e => .error e
      | .ok (tx, _) => serve (node.acceptTransaction tx) rest sent
    else .ok (node, sent)

/-- A whole connection: the stream the peer sends, the node before and after, the messages
sent; `daemon.h:82–121`. -/
def handleConnection (node : Node) (stream : Bytes) : Except ReadError (Node × List Message) :=
  match messages stream with
  | [] => .ok (node, [])
  | msg :: rest =>
    if msg.command ≠ Command.VERSION then .ok (node, [])
    else
      let sent := [⟨Command.VERSION, buildVersionPayload⟩]
      match rest with
      | [] => .ok (node, sent)
      | msg :: rest =>
        if msg.command ≠ Command.VERACK then .ok (node, sent)
        else
          match node.chain.getLast? with
          | none => .ok (node, sent)
          | some tip =>
            serve node rest (sent ++ [⟨Command.VERACK, []⟩, ⟨Command.INV, tip.getHash.toList⟩])

/-- The part of `PollPeer` after the block has arrived. `others` is what the other threads do
to the node between the two critical sections; `daemon.h:219–255`. -/
def pollBlock (node : Node) (others : Node → Node) (payload : Bytes) (rest sent : List Message) :
    Except ReadError (Node × List Message) :=
  match CBlock.deserialize payload 0 with
  | .error e => .error e
  | .ok (receivedBlock, _) =>
    match node.pollExtend receivedBlock with
    | (true, node) => .ok (node, sent)
    | (false, node) =>
      if !receivedBlock.isMerkleRootValid || !checkProofOfWork receivedBlock.toCBlockHeader then
        .ok (node, sent)
      else
        let sent := sent ++ [⟨Command.GETBLOCKS, []⟩]
        match rest with
        | [] => .ok (others node, sent)
        | msg :: _ =>
          if msg.command ≠ Command.CHAIN then .ok (others node, sent)
          else
            match deserializeChain msg.payload with
            | .error e => .error e
            | .ok peerChain => .ok (((others node).pollReorg peerChain).2, sent)

/-- One round of `PollPeer` on a connection that was opened; `daemon.h:189–255`. -/
def pollPeer (node : Node) (others : Node → Node) (stream : Bytes) :
    Except ReadError (Node × List Message) :=
  let sent := [⟨Command.VERSION, buildVersionPayload⟩]
  match messages stream with
  | [] => .ok (node, sent)
  | version :: rest =>
    if version.command ≠ Command.VERSION then .ok (node, sent)
    else
      let sent := sent ++ [⟨Command.VERACK, []⟩]
      match rest with
      | verack :: inv :: rest =>
        if verack.command ≠ Command.VERACK ∨ inv.command ≠ Command.INV then .ok (node, sent)
        else
          let sent := sent ++ [⟨Command.GETDATA, inv.payload⟩]
          match rest with
          | [] => .ok (node, sent)
          | block :: rest =>
            if block.command ≠ Command.BLOCK then .ok (node, sent)
            else node.pollBlock others block.payload rest sent
      | _ => .ok (node, sent)

end Node

/-! ## Interleavings -/

/-- Where the poll thread stands between two critical sections. -/
inductive PollPhase where
  | idle
  | awaitingChain
  deriving DecidableEq

/-- A running node: the guarded state and the poll thread's position. -/
structure System where
  node : Node
  poll : PollPhase

/-- One critical section of one thread, or a write to the mempool file by another process
(`--receive-tx` on the same path). Payloads are any that decode. -/
inductive Step (walletAddress : Address) : System → System → Prop
  | mine {s : System} {node : Node} (fuel : Nat) (clock : UInt32)
      (mined : s.node.miningLoop fuel clock walletAddress = some node) :
      Step walletAddress s { s with node }
  | accept {s : System} {tx : Transaction} {next : Nat} (payload : Bytes)
      (decoded : Transaction.deserialize payload 0 = .ok (tx, next)) :
      Step walletAddress s { s with node := s.node.acceptTransaction tx }
  | pollExtend {s : System} {blk : CBlock} {next : Nat} (payload : Bytes)
      (phase : s.poll = .idle) (decoded : CBlock.deserialize payload 0 = .ok (blk, next)) :
      Step walletAddress s
        ⟨(s.node.pollExtend blk).2,
          if (s.node.pollExtend blk).1 ||
              (!blk.isMerkleRootValid || !checkProofOfWork blk.toCBlockHeader)
            then .idle else .awaitingChain⟩
  | pollReorg {s : System} {peerChain : List CBlock} (payload : Bytes)
      (phase : s.poll = .awaitingChain) (decoded : deserializeChain payload = .ok peerChain) :
      Step walletAddress s ⟨(s.node.pollReorg peerChain).2, .idle⟩
  | pollGiveUp {s : System} (phase : s.poll = .awaitingChain) :
      Step walletAddress s { s with poll := .idle }
  | mempoolWrite {s : System} (content : Option Bytes) :
      Step walletAddress s
        { s with node := { s.node with files := { s.node.files with mempoolFile := content } } }

/-- States a system can get into from a start state. -/
def Reachable (walletAddress : Address) : System → System → Prop :=
  Relation.ReflTransGen (Step walletAddress)

end Siliqua.Network
