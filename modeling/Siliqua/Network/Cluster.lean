import Mathlib.Logic.Function.Basic
import Siliqua.Network.Frames
import Siliqua.Network.Polling
import Siliqua.Network.Session

/-!
# Daemons that poll one another

Any number of daemons, each with a list of peers it polls. A connection is two streams of bytes; the
poll thread reads one of them and the polled daemon's session the other, a message at a time, in any
order with everything else. Connections break and daemons are restarted at any time.
-/

namespace Siliqua.Network

open ByteDecoder Siliqua.Core Siliqua.Consensus Siliqua.Storage Siliqua.Ledger

universe u

/-- A connection from a poll thread to the daemon it polls: what each side waits for, and the bytes
sent to it that it has not read. -/
structure Connection (ι : Type u) where
  server : ι
  stage : PollStage
  phase : SessionPhase
  toServer : Bytes
  toClient : Bytes

/-- The running daemons, the poll each of them is in, and every block mined so far, in order. -/
structure Cluster (ι : Type u) where
  node : ι → Node
  poll : ι → Option (Connection ι)
  mined : List CBlock

/-- What the daemons are started with: their wallets' addresses, `mine` and `known_peers`. -/
structure Setup (ι : Type u) where
  address : ι → Address
  mine : ι → Bool
  knownPeers : ι → List ι

namespace Cluster

variable {ι : Type u}

/-- The sessions of a daemon that goes down end, and so does its own poll. What a session has sent
can still be read. -/
def disconnect [DecidableEq ι] (c : Cluster ι) (i : ι) : Cluster ι :=
  { c with poll := fun k ↦
      if k = i then none
      else (c.poll k).map fun conn ↦
        if conn.server = i then { conn with phase := .closed } else conn }

end Cluster

variable [Crypto]

/-- A session of `HandleConnection` gets a message and acts on it: the node, what the session waits
for next, and what it sends. -/
def Node.sessionReceive (node : Node) (phase : SessionPhase) (msg : Message) :
    Except ReadError (Node × SessionPhase × List Message) :=
  (Conversation.receive ⟨⟨node, .idle⟩, phase, none, [], []⟩ msg).map fun c ↦
    (c.system.node, c.phase, c.sent)

section

variable {ι : Type u} [DecidableEq ι]

/-- One step of one thread of one daemon, of a connection, or of someone outside. A thread that
throws takes its daemon down: there is no step for it but the restart. -/
inductive Cluster.Step (setup : Setup ι) : Cluster ι → Cluster ι → Prop
  | mine {c : Cluster ι} {node : Node} (i : ι) (fuel : Nat) (clock : UInt32)
      (on : setup.mine i = true)
      (mined : (c.node i).miningLoop fuel clock (setup.address i) = some node) :
      Step setup c { c with
        node := Function.update c.node i node
        mined := c.mined ++ node.chain.getLast?.toList }
  -- a transaction from a wallet, in a session of its own
  | accept {c : Cluster ι} {tx : Transaction} {next : Nat} (i : ι) (payload : Bytes)
      (decoded : Transaction.deserialize payload 0 = .ok (tx, next)) :
      Step setup c { c with node := Function.update c.node i ((c.node i).acceptTransaction tx) }
  -- `--receive-tx` on the same path
  | mempoolWrite {c : Cluster ι} (i : ι) (content : Option Bytes) :
      Step setup c { c with
        node := Function.update c.node i
          { c.node i with files := { (c.node i).files with mempoolFile := content } } }
  | connect {c : Cluster ι} (i j : ι) (idle : c.poll i = none) (known : j ∈ setup.knownPeers i) :
      Step setup c { c with
        poll := Function.update c.poll i
          (some ⟨j, .version, .version, frames [⟨Command.VERSION, buildVersionPayload⟩], []⟩) }
  | serve {c : Cluster ι} {conn : Connection ι} {msg : Message} {rest : Bytes} {node : Node}
      {phase : SessionPhase} {replies : List Message} (i : ι) (opened : c.poll i = some conn)
      (received : receiveMessage conn.toServer = some (msg, rest))
      (served : (c.node conn.server).sessionReceive conn.phase msg = .ok (node, phase, replies)) :
      Step setup c { c with
        node := Function.update c.node conn.server node
        poll := Function.update c.poll i (some { conn with
          phase, toServer := rest, toClient := conn.toClient ++ frames replies }) }
  | receive {c : Cluster ι} {conn : Connection ι} {msg : Message} {rest : Bytes} {node : Node}
      {sent : List Message} {stage : Option PollStage} (i : ι) (opened : c.poll i = some conn)
      (received : receiveMessage conn.toClient = some (msg, rest))
      (polled : (c.node i).pollReceive conn.stage msg = .ok (node, sent, stage)) :
      Step setup c { c with
        node := Function.update c.node i node
        poll := Function.update c.poll i (stage.map fun stage ↦ { conn with
          stage, toServer := conn.toServer ++ frames sent, toClient := rest }) }
  -- a read of the session fails
  | hangUp {c : Cluster ι} {conn : Connection ι} (i : ι) (opened : c.poll i = some conn) :
      Step setup c { c with poll := Function.update c.poll i (some { conn with phase := .closed }) }
  -- a read of the poll fails
  | drop {c : Cluster ι} (i : ι) :
      Step setup c { c with poll := Function.update c.poll i none }
  -- the process ends, and a new one is constructed from its files
  | restart {c : Cluster ι} {chain : List CBlock} (i : ι) (fuel : Nat) (clock : UInt32)
      (loaded : loadOrCreateChain fuel clock (c.node i).files.chainFile (setup.address i) =
        some chain) :
      Step setup c { c.disconnect i with
        node := Function.update c.node i (Node.start chain (c.node i).files.mempoolFile) }

/-- Any number of steps. -/
def Cluster.Run (setup : Setup ι) : Cluster ι → Cluster ι → Prop :=
  Relation.ReflTransGen (Cluster.Step setup)

end

/-! ## What is said on a connection -/

/-- What a daemon says to one that polls it, if its chain is known to have a property. -/
inductive Tells (P : List CBlock → Prop) : Message → Prop
  | version : Tells P ⟨Command.VERSION, buildVersionPayload⟩
  | verack : Tells P ⟨Command.VERACK, []⟩
  | inv (hash : Hash256) : Tells P ⟨Command.INV, hash.toList⟩
  | block {chain : List CBlock} {tip : CBlock} (known : P chain)
      (last : chain.getLast? = some tip) : Tells P ⟨Command.BLOCK, tip.serialize⟩
  | chain {chain : List CBlock} (known : P chain) : Tells P ⟨Command.CHAIN, serializeChain chain⟩

/-- What a poll says to the daemon it polls. -/
inductive Asks : Message → Prop
  | version : Asks ⟨Command.VERSION, buildVersionPayload⟩
  | verack : Asks ⟨Command.VERACK, []⟩
  | getdata (hash : Hash256) : Asks ⟨Command.GETDATA, hash.toList⟩
  | getblocks : Asks ⟨Command.GETBLOCKS, []⟩

/-- What may arrive of a message whose length does not fit the length field: a part of it. -/
structure Cut (sent got : Message) : Prop where
  long : 2 ^ 32 ≤ sent.payload.length
  command : got.command = sent.command
  part : got.payload <+: sent.payload
  lost : got.payload ≠ sent.payload

omit [Crypto] in
theorem Tells.mono {P Q : List CBlock → Prop} (h : ∀ chain, P chain → Q chain) {msg : Message}
    (hmsg : Tells P msg) : Tells Q msg := by
  cases hmsg with
  | version => exact .version
  | verack => exact .verack
  | inv hash => exact .inv hash
  | block known last => exact .block (h _ known) last
  | chain known => exact .chain (h _ known)

omit [Crypto] in
theorem Tells.isCommand {P : List CBlock → Prop} {msg : Message} (h : Tells P msg) :
    IsCommand msg.command := by
  cases h with
  | version => exact (by decide : IsCommand Command.VERSION)
  | verack => exact (by decide : IsCommand Command.VERACK)
  | inv hash => exact isCommand_INV
  | block known last => exact isCommand_BLOCK
  | chain known => exact isCommand_CHAIN

omit [Crypto] in
/-- Requests are short. -/
theorem Asks.arrives {msg : Message} (h : Asks msg) : msg.Arrives := by
  cases h with
  | version => decide
  | verack => decide
  | getdata hash =>
    refine ⟨isCommand_GETDATA, ?_⟩
    rw [List.Vector.toList_length]
    decide
  | getblocks => decide

omit [Crypto] in
/-- So they arrive whole. -/
theorem Asks.not_cut {sent got : Message} (h : Asks sent) : ¬ Cut sent got := fun hcut ↦ by
  have hle := h.arrives.2
  have hlong := hcut.long
  rw [MAX_PAYLOAD_SIZE] at hle
  omega

omit [Crypto] in
/-- Polls submit nothing. -/
theorem Asks.command_ne_TX {msg : Message} (h : Asks msg) : msg.command ≠ Command.TX := by
  cases h with
  | version => exact (by decide : Command.VERSION ≠ Command.TX)
  | verack => exact (by decide : Command.VERACK ≠ Command.TX)
  | getdata hash => exact (by decide : Command.GETDATA ≠ Command.TX)
  | getblocks => exact (by decide : Command.GETBLOCKS ≠ Command.TX)

/-- A stream of frames delivers its first message, or a part of it if it is far too long. -/
theorem receiveMessage_frames {Q : Message → Prop} {msgs : List Message}
    (hcommand : ∀ m ∈ msgs, IsCommand m.command) (hmsgs : ∀ m ∈ msgs, Q m) {msg : Message}
    {rest : Bytes} (h : receiveMessage (frames msgs) = some (msg, rest)) :
    ∃ sent, Q sent ∧ (Cut sent msg ∨
      (msg = sent ∧ ∃ later, rest = frames later ∧ ∀ m ∈ later, Q m)) := by
  cases msgs with
  | nil =>
    rw [show frames [] = [] from rfl] at h
    cases h
  | cons sent later =>
    refine ⟨sent, hmsgs sent List.mem_cons_self, ?_⟩
    have hsent := hcommand sent List.mem_cons_self
    rw [frames_cons] at h
    by_cases hle : sent.payload.length ≤ MAX_PAYLOAD_SIZE
    · rw [receiveMessage_of_le hsent hle] at h
      obtain ⟨rfl, rfl⟩ := Prod.mk.inj (Option.some.inj h)
      exact Or.inr ⟨rfl, later, rfl, fun m hm ↦ hmsgs m (List.mem_cons_of_mem _ hm)⟩
    have hlong := Nat.not_le.mp hle
    by_cases hlt : sent.payload.length < 2 ^ 32
    · rw [receiveMessage_sendMessage, Nat.mod_eq_of_lt hlt, if_pos hlong] at h
      cases h
    · obtain ⟨hcmd, hpart, hshort⟩ := payload_of_receiveMessage hsent hlong h
      exact Or.inl ⟨Nat.not_lt.mp hlt, hcmd, hpart,
        fun heq ↦ Nat.ne_of_lt hshort (congrArg List.length heq)⟩

/-! ## One message at a poll -/

/-- The command a poll waits for. -/
def PollStage.command : PollStage → Bytes
  | .version => Command.VERSION
  | .verack => Command.VERACK
  | .inv => Command.INV
  | .block => Command.BLOCK
  | .chain => Command.CHAIN

/-- Any other command ends the poll. -/
theorem Node.pollReceive_of_ne {node : Node} {stage : PollStage} {msg : Message}
    (h : msg.command ≠ stage.command) : node.pollReceive stage msg = .ok (node, [], none) := by
  cases stage <;> exact if_pos h

/-- A block that decodes extends the chain or does not; the poll asks for the whole chain behind a
mined block that does not. -/
theorem Node.pollReceive_block {node : Node} {msg : Message} (hcmd : msg.command = Command.BLOCK)
    {blk : CBlock} {next : Nat} (hdecode : CBlock.deserialize msg.payload 0 = .ok (blk, next)) :
    node.pollReceive .block msg = .ok ((node.pollExtend blk).2,
      if (node.pollExtend blk).1 ||
          (!blk.isMerkleRootValid || !checkProofOfWork blk.toCBlockHeader)
        then ([], none) else ([⟨Command.GETBLOCKS, []⟩], some .chain)) := by
  rw [Node.pollReceive, if_neg (not_not_intro hcmd), hdecode]
  dsimp only
  rcases node.pollExtend blk with ⟨_ | _, node'⟩
  · dsimp only
    rw [Bool.false_or]
    split <;> rfl
  · rfl

/-- A chain that decodes is compared with the node's own. -/
theorem Node.pollReceive_chain {node : Node} {msg : Message} (hcmd : msg.command = Command.CHAIN)
    {peerChain : List CBlock} (hload : deserializeChain msg.payload = .ok peerChain) :
    node.pollReceive .chain msg = .ok ((node.pollReorg peerChain).2, [], none) := by
  rw [Node.pollReceive, if_neg (not_not_intro hcmd), hload]

section

variable {P : List CBlock → Prop} {sent msg : Message}

omit [Crypto] in
/-- What comes as an announcement is a hash. -/
theorem Tells.of_inv (h : Tells P msg) (hcmd : msg.command = Command.INV) :
    ∃ hash : Hash256, msg.payload = hash.toList := by
  cases h with
  | version => exact absurd (show Command.VERSION = Command.INV from hcmd) (by decide)
  | verack => exact absurd (show Command.VERACK = Command.INV from hcmd) (by decide)
  | inv hash => exact ⟨hash, rfl⟩
  | block known last => exact absurd (show Command.BLOCK = Command.INV from hcmd) (by decide)
  | chain known => exact absurd (show Command.CHAIN = Command.INV from hcmd) (by decide)

omit [Crypto] in
/-- What comes as a block is the last one of a known chain. -/
theorem Tells.of_block (h : Tells P msg) (hcmd : msg.command = Command.BLOCK) :
    ∃ chain tip, P chain ∧ chain.getLast? = some tip ∧ msg.payload = tip.serialize := by
  cases h with
  | version => exact absurd (show Command.VERSION = Command.BLOCK from hcmd) (by decide)
  | verack => exact absurd (show Command.VERACK = Command.BLOCK from hcmd) (by decide)
  | inv hash => exact absurd (show Command.INV = Command.BLOCK from hcmd) (by decide)
  | block known last => exact ⟨_, _, known, last, rfl⟩
  | chain known => exact absurd (show Command.CHAIN = Command.BLOCK from hcmd) (by decide)

omit [Crypto] in
/-- What comes as a chain is a known chain. -/
theorem Tells.of_chain (h : Tells P msg) (hcmd : msg.command = Command.CHAIN) :
    ∃ chain, P chain ∧ msg.payload = serializeChain chain := by
  cases h with
  | version => exact absurd (show Command.VERSION = Command.CHAIN from hcmd) (by decide)
  | verack => exact absurd (show Command.VERACK = Command.CHAIN from hcmd) (by decide)
  | inv hash => exact absurd (show Command.INV = Command.CHAIN from hcmd) (by decide)
  | block known last => exact absurd (show Command.BLOCK = Command.CHAIN from hcmd) (by decide)
  | chain known => exact ⟨_, known, rfl⟩

omit [Crypto] in
/-- Only blocks and chains can be too long. -/
theorem Cut.command_of_tells (h : Cut sent msg) (hsent : Tells P sent) :
    sent.command = Command.BLOCK ∨ sent.command = Command.CHAIN := by
  cases hsent with
  | version => exact absurd h.long (by decide)
  | verack => exact absurd h.long (by decide)
  | inv hash =>
    have hlong := h.long
    rw [List.Vector.toList_length] at hlong
    exact absurd hlong (by decide)
  | block known last => exact Or.inl rfl
  | chain known => exact Or.inr rfl

variable {node node' : Node} {stage : PollStage} {more : List Message} {stage' : Option PollStage}
  (hP : ∀ chain, P chain → ChainEncodable chain)
include hP

/-- A part of the message it waits for makes a poll throw. -/
theorem Node.pollReceive_cut_ne (hsent : Tells P sent) (hcut : Cut sent msg)
    (hcmd : msg.command = stage.command) (r : Node × List Message × Option PollStage) :
    node.pollReceive stage msg ≠ .ok r := by
  intro h
  rcases hcut.command_of_tells hsent with hblock | hchain
  · obtain ⟨chain, tip, hknown, hlast, hpayload⟩ := hsent.of_block hblock
    have htip := (hP chain hknown).2 tip (List.mem_of_getLast? hlast)
    rw [hcut.command, hblock] at hcmd
    cases stage with
    | block =>
      rw [Node.pollReceive, hcut.command, hblock, if_neg (not_not_intro rfl)] at h
      cases hdecode : CBlock.deserialize msg.payload 0 with
      | error e =>
        rw [hdecode] at h
        cases h
      | ok r =>
        refine hcut.lost ?_
        rw [hpayload]
        exact CBlock.codec.eq_of_decode_part htip (hpayload ▸ hcut.part) hdecode
    | version => exact absurd (show Command.BLOCK = Command.VERSION from hcmd) (by decide)
    | verack => exact absurd (show Command.BLOCK = Command.VERACK from hcmd) (by decide)
    | inv => exact absurd (show Command.BLOCK = Command.INV from hcmd) (by decide)
    | chain => exact absurd (show Command.BLOCK = Command.CHAIN from hcmd) (by decide)
  · obtain ⟨chain, hknown, hpayload⟩ := hsent.of_chain hchain
    rw [hcut.command, hchain] at hcmd
    cases stage with
    | chain =>
      rw [Node.pollReceive, hcut.command, hchain, if_neg (not_not_intro rfl)] at h
      have hfail := isOk_map_fst_of_part codec_chain (hP chain hknown) (hpayload ▸ hcut.part)
        (hpayload ▸ hcut.lost)
      rw [← deserializeChain] at hfail
      cases hload : deserializeChain msg.payload with
      | error e =>
        rw [hload] at h
        cases h
      | ok peerChain =>
        rw [hload] at hfail
        cases hfail
    | version => exact absurd (show Command.CHAIN = Command.VERSION from hcmd) (by decide)
    | verack => exact absurd (show Command.CHAIN = Command.VERACK from hcmd) (by decide)
    | inv => exact absurd (show Command.CHAIN = Command.INV from hcmd) (by decide)
    | block => exact absurd (show Command.CHAIN = Command.BLOCK from hcmd) (by decide)

/-- A part of a message ends the poll or throws. -/
theorem Node.pollReceive_cut (hsent : Tells P sent) (hcut : Cut sent msg)
    (h : node.pollReceive stage msg = .ok (node', more, stage')) :
    node' = node ∧ stage' = none := by
  by_cases hcmd : msg.command = stage.command
  · exact absurd h (Node.pollReceive_cut_ne hP hsent hcut hcmd _)
  · rw [Node.pollReceive_of_ne hcmd] at h
    cases h
    exact ⟨rfl, rfl⟩

/-- A poll asks on, and its node stays, or takes the last block of a known chain, or compares itself
with a known chain. -/
theorem Node.pollReceive_tells (hmsg : Tells P msg)
    (h : node.pollReceive stage msg = .ok (node', more, stage')) :
    (∀ m ∈ more, Asks m) ∧
      (node' = node ∨
        (∃ chain tip, P chain ∧ chain.getLast? = some tip ∧ node' = (node.pollExtend tip).2) ∨
        ∃ chain, P chain ∧ node' = (node.pollReorg chain).2) := by
  by_cases hcmd : msg.command = stage.command
  · cases stage with
    | version =>
      change msg.command = Command.VERSION at hcmd
      rw [Node.pollReceive, if_neg (not_not_intro hcmd)] at h
      cases h
      exact ⟨List.forall_mem_singleton.mpr .verack, Or.inl rfl⟩
    | verack =>
      change msg.command = Command.VERACK at hcmd
      rw [Node.pollReceive, if_neg (not_not_intro hcmd)] at h
      cases h
      exact ⟨by simp, Or.inl rfl⟩
    | inv =>
      change msg.command = Command.INV at hcmd
      obtain ⟨hash, hpayload⟩ := hmsg.of_inv hcmd
      rw [Node.pollReceive, if_neg (not_not_intro hcmd), hpayload] at h
      cases h
      exact ⟨List.forall_mem_singleton.mpr (.getdata hash), Or.inl rfl⟩
    | block =>
      obtain ⟨chain, tip, hknown, hlast, hpayload⟩ := hmsg.of_block hcmd
      have htip := (hP chain hknown).2 tip (List.mem_of_getLast? hlast)
      have hdecode := CBlock.deserialize_serialize htip
      rw [Node.pollReceive_block hcmd (hpayload ▸ hdecode), Except.ok.injEq, Prod.mk.injEq] at h
      obtain ⟨rfl, hrest⟩ := h
      refine ⟨?_, Or.inr (Or.inl ⟨chain, tip, hknown, hlast, rfl⟩)⟩
      split at hrest
      · cases hrest
        simp
      · cases hrest
        exact List.forall_mem_singleton.mpr .getblocks
    | chain =>
      obtain ⟨chain, hknown, hpayload⟩ := hmsg.of_chain hcmd
      have hload := deserializeChain_saved (hP chain hknown)
      rw [Node.pollReceive_chain hcmd (hpayload ▸ hload)] at h
      cases h
      exact ⟨by simp, Or.inr (Or.inr ⟨chain, hknown, rfl⟩)⟩
  · rw [Node.pollReceive_of_ne hcmd] at h
    cases h
    exact ⟨by simp, Or.inl rfl⟩

/-- A message that arrives whole does not make a poll throw. -/
theorem Node.exists_pollReceive (hmsg : Tells P msg) :
    ∃ r, node.pollReceive stage msg = .ok r := by
  by_cases hcmd : msg.command = stage.command
  · cases stage with
    | version => exact ⟨_, if_neg (not_not_intro hcmd)⟩
    | verack => exact ⟨_, if_neg (not_not_intro hcmd)⟩
    | inv => exact ⟨_, if_neg (not_not_intro hcmd)⟩
    | block =>
      obtain ⟨chain, tip, hknown, hlast, hpayload⟩ := hmsg.of_block hcmd
      have htip := (hP chain hknown).2 tip (List.mem_of_getLast? hlast)
      have hdecode := CBlock.deserialize_serialize htip
      exact ⟨_, Node.pollReceive_block hcmd (hpayload ▸ hdecode)⟩
    | chain =>
      obtain ⟨chain, hknown, hpayload⟩ := hmsg.of_chain hcmd
      have hload := deserializeChain_saved (hP chain hknown)
      exact ⟨_, Node.pollReceive_chain hcmd (hpayload ▸ hload)⟩
  · exact ⟨_, Node.pollReceive_of_ne hcmd⟩

end

/-! ## One message at a session -/

section

variable {node node' : Node} {phase phase' : SessionPhase} {msg : Message} {replies : List Message}

/-- A session tells about the node's chain, or submits a transaction to the node. -/
theorem Node.sessionReceive_cases
    (h : node.sessionReceive phase msg = .ok (node', phase', replies)) :
    (node' = node ∧ ∀ m ∈ replies, Tells (· = node.chain) m) ∨
      (msg.command = Command.TX ∧ ∃ tx next,
        Transaction.deserialize msg.payload 0 = .ok (tx, next) ∧
          node' = node.acceptTransaction tx) := by
  have hclose (hc : (Except.ok (Conversation.close ⟨⟨node, .idle⟩, phase, none, [], []⟩) :
      Except ReadError Conversation).map (fun c ↦ (c.system.node, c.phase, c.sent)) =
        .ok (node', phase', replies)) : node' = node ∧ ∀ m ∈ replies, Tells (· = node.chain) m := by
    cases hc
    exact ⟨rfl, List.forall_mem_nil _⟩
  unfold Node.sessionReceive Conversation.receive at h
  dsimp only at h
  cases phase with
  | version =>
    dsimp only at h
    split at h
    · exact Or.inl (hclose h)
    · cases h
      exact Or.inl ⟨rfl, List.forall_mem_singleton.mpr .version⟩
  | verack =>
    dsimp only at h
    split at h
    · exact Or.inl (hclose h)
    · split at h
      · exact Or.inl (hclose h)
      · next tip htip =>
        cases h
        exact Or.inl ⟨rfl, List.forall_mem_cons.mpr
          ⟨.verack, List.forall_mem_singleton.mpr (.inv tip.getHash)⟩⟩
  | request =>
    dsimp only at h
    split at h
    · split at h
      · exact Or.inl (hclose h)
      · next tip htip =>
        cases h
        exact Or.inl ⟨rfl, List.forall_mem_singleton.mpr (.block rfl htip)⟩
    · split at h
      · cases h
        exact Or.inl ⟨rfl, List.forall_mem_singleton.mpr (.chain rfl)⟩
      · split at h
        · next htx =>
          cases hdecode : Transaction.deserialize msg.payload 0 with
          | error e =>
            rw [hdecode] at h
            cases h
          | ok r =>
            rw [hdecode] at h
            cases h
            exact Or.inr ⟨htx, r.1, r.2, rfl, rfl⟩
        · exact Or.inl (hclose h)
  | closed =>
    cases h
    exact Or.inl ⟨rfl, List.forall_mem_nil _⟩

/-- A session that is only asked leaves the node alone and tells about its chain. -/
theorem Node.sessionReceive_asks {P : List CBlock → Prop} (hchain : P node.chain) (hmsg : Asks msg)
    (h : node.sessionReceive phase msg = .ok (node', phase', replies)) :
    node' = node ∧ ∀ m ∈ replies, Tells P m := by
  rcases Node.sessionReceive_cases h with ⟨hnode, hreplies⟩ | ⟨htx, -⟩
  · exact ⟨hnode, fun m hm ↦ (hreplies m hm).mono fun chain heq ↦ heq ▸ hchain⟩
  · exact absurd htx hmsg.command_ne_TX

/-- Only a submission can make a session throw. -/
theorem Node.exists_sessionReceive (hmsg : msg.command ≠ Command.TX) :
    ∃ r, node.sessionReceive phase msg = .ok r := by
  unfold Node.sessionReceive Conversation.receive
  dsimp only
  cases phase with
  | version =>
    dsimp only
    split <;> exact ⟨_, rfl⟩
  | verack =>
    dsimp only
    split
    · exact ⟨_, rfl⟩
    · split <;> exact ⟨_, rfl⟩
  | request =>
    dsimp only
    rw [if_neg hmsg]
    split
    · split <;> exact ⟨_, rfl⟩
    · split <;> exact ⟨_, rfl⟩
  | closed => exact ⟨_, rfl⟩

end

end Siliqua.Network
