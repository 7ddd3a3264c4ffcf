import Siliqua.Network.Daemon

/-!
# A poll, message by message

`PollPeer` blocks in `Receive` five times. Between two of these waits it acts on one message: this
is the granularity at which the poll thread meets the other threads and the polled daemon.
-/

namespace Siliqua.Network

open ByteDecoder Siliqua.Core Siliqua.Consensus Siliqua.Storage

/-- The message a poll waits for. -/
inductive PollStage where
  | version
  | verack
  | inv
  | block
  | chain
  deriving DecidableEq

variable [Crypto]

/-- A poll gets a message and acts on it; `daemon.h:203–254`. Returns the node, what is sent and
what the poll waits for next, `none` where the connection is closed. An error is an exception that
leaves the thread function. -/
def Node.pollReceive (node : Node) (stage : PollStage) (msg : Message) :
    Except ReadError (Node × List Message × Option PollStage) :=
  match stage with
  | .version =>
    if msg.command ≠ Command.VERSION then .ok (node, [], none)
    else .ok (node, [⟨Command.VERACK, []⟩], some .verack)
  | .verack =>
    if msg.command ≠ Command.VERACK then .ok (node, [], none) else .ok (node, [], some .inv)
  | .inv =>
    if msg.command ≠ Command.INV then .ok (node, [], none)
    else .ok (node, [⟨Command.GETDATA, msg.payload⟩], some .block)
  | .block =>
    if msg.command ≠ Command.BLOCK then .ok (node, [], none)
    else
      match CBlock.deserialize msg.payload 0 with
      | .error e => .error e
      | .ok (receivedBlock, _) =>
        match node.pollExtend receivedBlock with
        | (true, node) => .ok (node, [], none)
        | (false, node) =>
          if !receivedBlock.isMerkleRootValid || !checkProofOfWork receivedBlock.toCBlockHeader then
            .ok (node, [], none)
          else .ok (node, [⟨Command.GETBLOCKS, []⟩], some .chain)
  | .chain =>
    if msg.command ≠ Command.CHAIN then .ok (node, [], none)
    else
      match deserializeChain msg.payload with
      | .error e => .error e
      | .ok peerChain => .ok ((node.pollReorg peerChain).2, [], none)

/-! ## A poll on its own -/

/-- A node with one poll: what it waits for, `none` when it is over, and the messages sent. -/
structure Poll where
  node : Node
  stage : Option PollStage
  sent : List Message

namespace Poll

/-- The connection is open and the version sent; `daemon.h:192–201`. -/
def start (node : Node) : Poll :=
  ⟨node, some .version, [⟨Command.VERSION, buildVersionPayload⟩]⟩

/-- Act on one more message, unless the poll is over. -/
def receive (p : Poll) (msg : Message) : Except ReadError Poll :=
  match p.stage with
  | none => .ok p
  | some stage =>
    (p.node.pollReceive stage msg).map fun (node, sent, stage) ↦ ⟨node, stage, p.sent ++ sent⟩

/-- What is left when the connection is closed. -/
def outcome (p : Poll) : Node × List Message := (p.node, p.sent)

/-- A poll that is over stays as it is. -/
theorem foldlM_receive_over {p : Poll} (h : p.stage = none) (msgs : List Message) :
    msgs.foldlM receive p = .ok p := by
  induction msgs with
  | nil => rfl
  | cons msg rest ih =>
    have hp : p.receive msg = .ok p := by simp only [receive, h]
    rw [List.foldlM_cons, hp]
    exact ih

section

variable {node node' : Node} {stage stage' : PollStage} {msg : Message} {more : List Message}

/-- A message after which the poll goes on. -/
theorem foldlM_receive_next (h : node.pollReceive stage msg = .ok (node', more, some stage'))
    (sent rest : List Message) :
    (msg :: rest).foldlM receive ⟨node, some stage, sent⟩ =
      rest.foldlM receive ⟨node', some stage', sent ++ more⟩ := by
  have hmsg : receive ⟨node, some stage, sent⟩ msg = .ok ⟨node', some stage', sent ++ more⟩ := by
    simp only [receive, h]
    rfl
  rw [List.foldlM_cons, hmsg]
  rfl

/-- A message that ends the poll. -/
theorem foldlM_receive_last (h : node.pollReceive stage msg = .ok (node', more, none))
    (sent rest : List Message) :
    ((msg :: rest).foldlM receive ⟨node, some stage, sent⟩).map outcome =
      .ok (node', sent ++ more) := by
  have hmsg : receive ⟨node, some stage, sent⟩ msg = .ok ⟨node', none, sent ++ more⟩ := by
    simp only [receive, h]
    rfl
  rw [List.foldlM_cons, hmsg]
  exact congrArg (Except.map outcome) (foldlM_receive_over rfl rest)

/-- A message the poll throws at. -/
theorem foldlM_receive_error {e : ReadError} (h : node.pollReceive stage msg = .error e)
    (sent rest : List Message) :
    ((msg :: rest).foldlM receive ⟨node, some stage, sent⟩).map outcome = .error e := by
  have hmsg : receive ⟨node, some stage, sent⟩ msg = .error e := by
    simp only [receive, h]
    rfl
  rw [List.foldlM_cons, hmsg]
  rfl

end

/-- The part behind the request for the chain. -/
theorem pollChain_eq (node : Node) (rest sent : List Message) :
    (rest.foldlM receive ⟨node, some .chain, sent⟩).map outcome =
      match rest with
      | [] => .ok (node, sent)
      | msg :: _ =>
        if msg.command ≠ Command.CHAIN then .ok (node, sent)
        else
          match deserializeChain msg.payload with
          | .error e => .error e
          | .ok peerChain => .ok ((node.pollReorg peerChain).2, sent) := by
  cases rest with
  | nil => rfl
  | cons msg rest =>
    dsimp only
    by_cases hchain : msg.command ≠ Command.CHAIN
    · have hmsg : node.pollReceive .chain msg = .ok (node, [], none) := if_pos hchain
      rw [foldlM_receive_last hmsg, List.append_nil, if_pos hchain]
    · rw [if_neg hchain]
      cases hload : deserializeChain msg.payload with
      | error e =>
        have hmsg : node.pollReceive .chain msg = .error e := by
          rw [Node.pollReceive, if_neg hchain, hload]
        exact foldlM_receive_error hmsg _ _
      | ok peerChain =>
        have hmsg : node.pollReceive .chain msg = .ok ((node.pollReorg peerChain).2, [], none) := by
          rw [Node.pollReceive, if_neg hchain, hload]
        rw [foldlM_receive_last hmsg, List.append_nil]

/-- The part behind the block. -/
theorem pollBlock_eq (node : Node) (payload : Bytes) (rest sent : List Message) :
    ((⟨Command.BLOCK, payload⟩ :: rest).foldlM receive ⟨node, some .block, sent⟩).map outcome =
      node.pollBlock id payload rest sent := by
  have hmsg : node.pollReceive .block ⟨Command.BLOCK, payload⟩ =
      match CBlock.deserialize payload 0 with
      | .error e => .error e
      | .ok (receivedBlock, _) =>
        match node.pollExtend receivedBlock with
        | (true, node) => .ok (node, [], none)
        | (false, node) =>
          if !receivedBlock.isMerkleRootValid || !checkProofOfWork receivedBlock.toCBlockHeader then
            .ok (node, [], none)
          else .ok (node, [⟨Command.GETBLOCKS, []⟩], some .chain) := by
    rw [Node.pollReceive]
    exact if_neg (not_not_intro rfl)
  unfold Node.pollBlock
  cases hdecode : CBlock.deserialize payload 0 with
  | error e =>
    rw [hdecode] at hmsg
    exact foldlM_receive_error hmsg _ _
  | ok r =>
    rw [hdecode] at hmsg
    dsimp only at hmsg ⊢
    rcases hextend : node.pollExtend r.1 with ⟨_ | _, node'⟩
    · rw [hextend] at hmsg
      dsimp only at hmsg ⊢
      by_cases hmined : (!r.1.isMerkleRootValid || !checkProofOfWork r.1.toCBlockHeader) = true
      · rw [if_pos hmined] at hmsg ⊢
        rw [foldlM_receive_last hmsg, List.append_nil]
      · rw [if_neg hmined] at hmsg ⊢
        rw [foldlM_receive_next hmsg]
        exact pollChain_eq _ _ _
    · rw [hextend] at hmsg
      dsimp only at hmsg ⊢
      rw [foldlM_receive_last hmsg, List.append_nil]

/-- Without other threads, a poll is what `pollPeer` does with the stream. -/
theorem pollPeer_eq (node : Node) (stream : Bytes) :
    ((messages stream).foldlM receive (start node)).map outcome = node.pollPeer id stream := by
  unfold Node.pollPeer start
  rcases messages stream with - | ⟨version, rest⟩
  · rfl
  dsimp only
  by_cases hversion : version.command ≠ Command.VERSION
  · have hmsg : node.pollReceive .version version = .ok (node, [], none) := if_pos hversion
    rw [foldlM_receive_last hmsg, List.append_nil, if_pos hversion]
  have hmsg :
      node.pollReceive .version version = .ok (node, [⟨Command.VERACK, []⟩], some .verack) :=
    if_neg hversion
  rw [foldlM_receive_next hmsg, if_neg hversion]
  rcases rest with - | ⟨verack, rest⟩
  · rfl
  by_cases hverack : verack.command ≠ Command.VERACK
  · have hmsg : node.pollReceive .verack verack = .ok (node, [], none) := if_pos hverack
    rw [foldlM_receive_last hmsg, List.append_nil]
    cases rest with
    | nil => rfl
    | cons inv rest => exact (if_pos (Or.inl hverack)).symm
  have hmsg : node.pollReceive .verack verack = .ok (node, [], some .inv) := if_neg hverack
  rw [foldlM_receive_next hmsg, List.append_nil]
  rcases rest with - | ⟨inv, rest⟩
  · rfl
  dsimp only
  by_cases hinv : inv.command ≠ Command.INV
  · have hmsg : node.pollReceive .inv inv = .ok (node, [], none) := if_pos hinv
    rw [foldlM_receive_last hmsg, List.append_nil, if_pos (Or.inr hinv)]
  have hmsg :
      node.pollReceive .inv inv = .ok (node, [⟨Command.GETDATA, inv.payload⟩], some .block) :=
    if_neg hinv
  rw [foldlM_receive_next hmsg, if_neg (not_or_intro hverack hinv)]
  rcases rest with - | ⟨⟨command, payload⟩, rest⟩
  · rfl
  dsimp only
  by_cases hblock : command ≠ Command.BLOCK
  · have hmsg : node.pollReceive .block ⟨command, payload⟩ = .ok (node, [], none) := if_pos hblock
    rw [foldlM_receive_last hmsg, List.append_nil, if_pos hblock]
  · rw [if_neg hblock]
    obtain rfl : command = Command.BLOCK := not_not.mp hblock
    exact pollBlock_eq _ _ _ _

end Poll

end Siliqua.Network
