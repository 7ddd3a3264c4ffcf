import Siliqua.Ledger.DirectAccept
import Siliqua.Ledger.Integrity
import Siliqua.Storage.RoundTrip

/-!
# The disk mirrors the memory

Every change of `chain_` is followed by a save before the lock is released, and every
transaction that gets into a chain or a mempool carries its hash. So in every reachable state
of a node the files load back to what the node holds.
-/

namespace Siliqua.Network

open ByteDecoder ByteDecoder.Decoder Siliqua.Core Siliqua.Storage Siliqua.Ledger

/-! ## Runs with their history -/

/-- What a critical section did, as far as the mempool goes. -/
inductive Event where
  | mined
  | received (tx : Transaction) (accepted : Bool)
  | polled
  deriving DecidableEq

/-- The transactions accepted since the last mined block, in order. -/
def acceptedSinceMined (events : List Event) : List Transaction :=
  events.foldl
    (fun accepted event ↦ match event with
      | .mined => []
      | .received tx true => accepted ++ [tx]
      | .received _ false => accepted
      | .polled => accepted) []

/-- One more event. -/
theorem acceptedSinceMined_concat (events : List Event) (event : Event) :
    acceptedSinceMined (events ++ [event]) = match event with
      | .mined => []
      | .received tx true => acceptedSinceMined events ++ [tx]
      | .received _ false => acceptedSinceMined events
      | .polled => acceptedSinceMined events := by
  rw [acceptedSinceMined, List.foldl_append]
  rfl

/-- Lists of blocks and of transactions fit their 32-bit counts. -/
def SizesFit (chain : List CBlock) : Prop :=
  chain.length < 2 ^ 32 ∧ ∀ blk ∈ chain, blk.vtx.length < 2 ^ 32

section

variable [Crypto]

/-- A node as its constructor leaves it, on files whose chain is missing or not empty;
`daemon.h:37–42`. -/
def Constructed (address : Address) (files : Files) (node : Node) : Prop :=
  ∃ fuel clock chain, loadOrCreateChain fuel clock files.chainFile address = some chain ∧
    chain ≠ [] ∧ node = Node.start chain files.mempoolFile

/-- One critical section of one thread of the node itself, with what it did. -/
inductive Logged (address : Address) : System → Event → System → Prop
  | mine {s : System} {node : Node} (fuel : Nat) (clock : UInt32)
      (mined : s.node.miningLoop fuel clock address = some node) :
      Logged address s .mined { s with node }
  | accept {s : System} {tx : Transaction} {next : Nat} (payload : Bytes)
      (decoded : Transaction.deserialize payload 0 = .ok (tx, next)) :
      Logged address s (.received tx (s.node.Takes tx))
        { s with node := s.node.acceptTransaction tx }
  | pollExtend {s : System} {blk : CBlock} {next : Nat} (payload : Bytes)
      (phase : s.poll = .idle) (decoded : CBlock.deserialize payload 0 = .ok (blk, next)) :
      Logged address s .polled
        ⟨(s.node.pollExtend blk).2,
          if (s.node.pollExtend blk).1 ||
              (!blk.isMerkleRootValid || !Consensus.checkProofOfWork blk.toCBlockHeader)
            then .idle else .awaitingChain⟩
  | pollReorg {s : System} {peerChain : List CBlock} (payload : Bytes)
      (phase : s.poll = .awaitingChain) (decoded : deserializeChain payload = .ok peerChain) :
      Logged address s .polled ⟨(s.node.pollReorg peerChain).2, .idle⟩
  | pollGiveUp {s : System} (phase : s.poll = .awaitingChain) :
      Logged address s .polled { s with poll := .idle }

/-- Logged steps are steps of the node. -/
theorem Logged.step {address : Address} {s s' : System} {event : Event}
    (h : Logged address s event s') : Step address s s' := by
  cases h with
  | mine fuel clock mined => exact .mine fuel clock mined
  | accept payload decoded => exact .accept payload decoded
  | pollExtend payload phase decoded => exact .pollExtend payload phase decoded
  | pollReorg payload phase decoded => exact .pollReorg payload phase decoded
  | pollGiveUp phase => exact .pollGiveUp phase

/-- A run from a start state with everything it did, in states whose lists fit. -/
inductive LoggedRun (address : Address) (s₀ : System) : List Event → System → Prop
  | refl : LoggedRun address s₀ [] s₀
  | tail {events : List Event} {event : Event} {s s' : System}
      (run : LoggedRun address s₀ events s) (step : Logged address s event s')
      (fits : SizesFit s'.node.chain) : LoggedRun address s₀ (events ++ [event]) s'

/-! ## What is built can be encoded -/

/-- The built coinbase can be encoded. -/
theorem encodable_buildCoinbaseTx (address : Address) (height : UInt32) (fees : Int64) :
    (buildCoinbaseTx address height fees).Encodable := by
  refine ⟨?_, fun txin htxin ↦ ?_, ?_, fun txout htxout ↦ ?_, rfl⟩
  · show 1 < _
    decide
  · obtain rfl := List.mem_singleton.mp htxin
    show 4 < _
    decide
  · show 1 < _
    decide
  · obtain rfl := List.mem_singleton.mp htxout
    show (Wallet.buildP2pkhScriptPubkey address).length < _
    rw [Wallet.length_buildP2pkhScriptPubkey]
    decide

/-- The loaded mempool can be encoded. -/
theorem mempoolEncodable_loadMempoolOrEmpty (file : Option Bytes) :
    MempoolEncodable (loadMempoolOrEmpty file) := by
  unfold loadMempoolOrEmpty
  have hempty : MempoolEncodable [] := ⟨by decide, by simp⟩
  cases file with
  | none => exact hempty
  | some buffer =>
    cases hl : loadMempool buffer with
    | error e => simpa only [hl] using hempty
    | ok mempool => simpa only [hl] using mempoolEncodable_of_loadMempool hl

/-- A built block can be encoded if its transactions can, up to their number. -/
theorem encodable_of_built {headers : List CBlockHeader} {prevHash : Hash256} {address : Address}
    {fees : Int64} {extraTxs : List Transaction} {blk : CBlock}
    (h : Built headers prevHash address fees extraTxs blk) (hlen : blk.vtx.length < 2 ^ 32)
    (hextra : ∀ tx ∈ extraTxs, tx.Encodable) : blk.Encodable := by
  refine ⟨hlen, ?_⟩
  rw [h.vtx]
  exact List.forall_mem_cons.mpr ⟨encodable_buildCoinbaseTx _ _ _, hextra⟩

/-- A loaded or fresh chain can be encoded. -/
theorem chainEncodable_loadOrCreateChain {fuel : Nat} {clock : UInt32} {file : Option Bytes}
    {address : Address} {chain : List CBlock}
    (h : loadOrCreateChain fuel clock file address = some chain) : ChainEncodable chain := by
  have hfresh (hgen : buildGenesisChain fuel clock address = some chain) :
      ChainEncodable chain := by
    obtain ⟨blk, hblk, rfl⟩ := Option.map_eq_some_iff.mp hgen
    have hbuilt := buildNextBlock_spec hblk
    have hlen : blk.vtx.length < 2 ^ 32 := by
      rw [hbuilt.vtx]
      show 1 < _
      decide
    refine ⟨by show 1 < _; decide, fun b hb ↦ ?_⟩
    obtain rfl := List.mem_singleton.mp hb
    exact encodable_of_built hbuilt hlen (by simp)
  unfold loadOrCreateChain at h
  split at h
  · exact hfresh h
  · split at h
    · next hload =>
      obtain rfl := Option.some.inj h
      exact chainEncodable_of_deserializeChain hload
    · exact hfresh h

/-! ## The invariant -/

/-- The files hold what the node holds: the chain, and the pending transactions. -/
structure Mirrored (pending : List Transaction) (node : Node) : Prop where
  encodable : ChainEncodable node.chain
  chainFile : node.files.chainFile = some (serializeChain node.chain)
  pending : loadMempoolOrEmpty node.files.mempoolFile = pending

theorem loadMempoolOrEmpty_serializeMempool {mempool : List Transaction}
    (h : MempoolEncodable mempool) :
    loadMempoolOrEmpty (some (serializeMempool mempool)) = mempool := by
  simp only [loadMempoolOrEmpty, loadMempool_saved h]

/-- Saving another chain that can be encoded keeps the mirror. -/
theorem Mirrored.saveChain {pending : List Transaction} {node : Node} (h : Mirrored pending node)
    {chain : List CBlock} (henc : ChainEncodable chain) :
    Mirrored pending (node.saveChain chain) :=
  ⟨henc, rfl, h.pending⟩

/-- A saved chain grows by a block that can be encoded. -/
private theorem chainEncodable_concat {chain : List CBlock} (h : ChainEncodable chain)
    {blk : CBlock} (hblk : blk.Encodable) (hlen : (chain ++ [blk]).length < 2 ^ 32) :
    ChainEncodable (chain ++ [blk]) := by
  refine ⟨hlen, fun b hb ↦ ?_⟩
  rcases List.mem_append.mp hb with hold | hnew
  · exact h.2 b hold
  · obtain rfl := List.mem_singleton.mp hnew
    exact hblk

/-- Mining appends a block, saves the chain and clears the mempool. -/
theorem Mirrored.miningLoop {pending : List Transaction} {node node' : Node}
    (h : Mirrored pending node) {fuel : Nat} {clock : UInt32} {address : Address}
    (hmined : node.miningLoop fuel clock address = some node') (hfits : SizesFit node'.chain) :
    Mirrored [] node' := by
  obtain ⟨blk, hblk, hchain, hfile⟩ := miningLoop_spec hmined
  obtain ⟨-, hbuilt⟩ := mineOnto_spec hblk
  have hcleared : node'.files.mempoolFile = some (serializeMempool []) := by
    unfold Node.miningLoop at hmined
    rw [Option.bind_eq_bind, Option.bind_eq_some_iff] at hmined
    obtain ⟨_, -, hret⟩ := hmined
    cases hret
    rfl
  have hblkEnc : blk.Encodable := by
    apply encodable_of_built hbuilt
    · exact hfits.2 blk (by simp [hchain])
    · intro tx htx
      obtain ⟨pre, post, heq, -⟩ := mem_extraTxs_iff.mp htx
      have hmem : tx ∈ loadMempoolOrEmpty node.files.mempoolFile := by simp [heq]
      exact (mempoolEncodable_loadMempoolOrEmpty _).2 tx hmem
  rw [hchain] at hfits
  refine ⟨?_, ?_, ?_⟩
  · rw [hchain]
    exact chainEncodable_concat h.encodable hblkEnc hfits.1
  · rw [hfile, hchain]
  · rw [hcleared]
    exact loadMempoolOrEmpty_serializeMempool ⟨by decide, by simp⟩

/-- What the mempool file loads back to after a submission. -/
theorem loadMempoolOrEmpty_acceptTransaction (node : Node) {tx : Transaction}
    (htx : tx.Encodable) :
    loadMempoolOrEmpty (node.acceptTransaction tx).files.mempoolFile =
      if node.Takes tx then loadMempoolOrEmpty node.files.mempoolFile ++ [tx]
      else loadMempoolOrEmpty node.files.mempoolFile := by
  rw [Node.acceptTransaction_eq]
  split
  · next htakes =>
    have hold := mempoolEncodable_loadMempoolOrEmpty node.files.mempoolFile
    have hroom : (loadMempoolOrEmpty node.files.mempoolFile).length < 1000 := htakes.2.2
    apply loadMempoolOrEmpty_serializeMempool
    refine ⟨?_, fun t ht ↦ ?_⟩
    · rw [List.length_append, List.length_singleton]
      omega
    · rcases List.mem_append.mp ht with hmem | hnew
      · exact hold.2 t hmem
      · obtain rfl := List.mem_singleton.mp hnew
        exact htx
  · rfl

/-- Accepting a decoded transaction appends it to what is pending. -/
theorem Mirrored.acceptTransaction {pending : List Transaction} {node : Node}
    (h : Mirrored pending node) {tx : Transaction} (htx : tx.Encodable) :
    Mirrored (if node.Takes tx then pending ++ [tx] else pending) (node.acceptTransaction tx) := by
  refine ⟨?_, ?_, ?_⟩
  · rw [Node.chain_acceptTransaction]
    exact h.encodable
  · rw [Node.acceptTransaction_eq]
    split <;> exact h.chainFile
  · rw [loadMempoolOrEmpty_acceptTransaction node htx, h.pending]

/-- A polled block is saved if it extends the chain. -/
theorem Mirrored.pollExtend {pending : List Transaction} {node : Node} (h : Mirrored pending node)
    (hne : node.chain ≠ []) {blk : CBlock} (hblk : blk.Encodable)
    (hfits : SizesFit (node.pollExtend blk).2.chain) :
    Mirrored pending (node.pollExtend blk).2 := by
  unfold Node.pollExtend at hfits ⊢
  rcases tryExtendChain_cases hne blk with ⟨-, heq⟩ | ⟨-, heq⟩
  · rw [heq] at hfits ⊢
    exact h.saveChain (chainEncodable_concat h.encodable hblk hfits.1)
  · rw [heq]
    exact h

/-- A polled chain is saved if the node switches to it. -/
theorem Mirrored.pollReorg {pending : List Transaction} {node : Node} (h : Mirrored pending node)
    {peerChain : List CBlock} (hpeer : ChainEncodable peerChain) :
    Mirrored pending (node.pollReorg peerChain).2 := by
  unfold Node.pollReorg
  rcases tryReorg_cases node.chain peerChain with ⟨heq, -⟩ | heq
  · rw [heq]
    exact h.saveChain hpeer
  · rw [heq]
    exact h

/-- The pending transactions after an event. -/
private def pendingAfter (pending : List Transaction) : Event → List Transaction
  | .mined => []
  | .received tx true => pending ++ [tx]
  | .received _ false => pending
  | .polled => pending

/-- No step empties a chain. -/
theorem chain_ne_nil_step {address : Address} {s s' : System} (h : Step address s s')
    (hne : s.node.chain ≠ []) : s'.node.chain ≠ [] := by
  rcases step_cases h hne with heq | ⟨blk, front, rest, heq, -⟩ | ⟨-, hacc, -⟩
  · rw [heq]
    exact hne
  · rw [heq]
    simp
  · exact (validateFullChain_iff.mp hacc).1

/-- One step keeps the mirror. -/
theorem mirrored_step {address : Address} {pending : List Transaction} {s s' : System}
    {event : Event} (h : Mirrored pending s.node) (hne : s.node.chain ≠ [])
    (hstep : Logged address s event s') (hfits : SizesFit s'.node.chain) :
    Mirrored (pendingAfter pending event) s'.node := by
  cases hstep with
  | mine fuel clock mined => exact h.miningLoop mined hfits
  | @accept tx next payload decoded =>
    have htx := (Transaction.codec.canonical (Nat.zero_le _) decoded).1
    have hstep := h.acceptTransaction htx
    by_cases htakes : s.node.Takes tx
    · simpa only [htakes, decide_true, if_true, pendingAfter] using hstep
    · simpa only [htakes, decide_false, if_false, pendingAfter] using hstep
  | pollExtend payload phase decoded =>
    exact h.pollExtend hne (CBlock.codec.canonical (Nat.zero_le _) decoded).1 hfits
  | pollReorg payload phase decoded =>
    exact h.pollReorg (chainEncodable_of_deserializeChain decoded)
  | pollGiveUp phase => exact h

/-- A run keeps the mirror. -/
theorem mirrored_run {address : Address} {initial : List Transaction} {s₀ s : System}
    {events : List Event} (h₀ : Mirrored initial s₀.node) (hne₀ : s₀.node.chain ≠ [])
    (hrun : LoggedRun address s₀ events s) :
    s.node.chain ≠ [] ∧
      Mirrored ((if Event.mined ∈ events then [] else initial) ++ acceptedSinceMined events)
        s.node := by
  induction hrun with
  | refl =>
    refine ⟨hne₀, ?_⟩
    simpa [acceptedSinceMined] using h₀
  | @tail events event s s' run step fits ih =>
    obtain ⟨hne, hmirror⟩ := ih
    refine ⟨chain_ne_nil_step step.step hne, ?_⟩
    have hstep := mirrored_step hmirror hne step fits
    rw [acceptedSinceMined_concat]
    cases event with
    | mined => simpa [pendingAfter] using hstep
    | polled => simpa [pendingAfter] using hstep
    | received tx accepted =>
      cases accepted with
      | true => simpa [pendingAfter, List.append_assoc] using hstep
      | false => simpa [pendingAfter] using hstep

/-- In every state a node reaches from its construction, the chain file loads back to `chain_`,
and the mempool file to what it held at construction, unless a block was mined since, followed
by the transactions accepted since construction or the last mined block, in order. -/
theorem disk_mirrors_memory {address : Address} {files : Files} {node : Node}
    (hstart : Constructed address files node) {events : List Event} {s : System}
    (hrun : LoggedRun address ⟨node, .idle⟩ events s) :
    (∃ buffer, s.node.files.chainFile = some buffer ∧
      deserializeChain buffer = .ok s.node.chain) ∧
    loadMempoolOrEmpty s.node.files.mempoolFile =
      (if Event.mined ∈ events then [] else loadMempoolOrEmpty files.mempoolFile) ++
        acceptedSinceMined events := by
  obtain ⟨fuel, clock, chain, hload, hne, rfl⟩ := hstart
  have h₀ : Mirrored (loadMempoolOrEmpty files.mempoolFile)
      (Node.start chain files.mempoolFile) :=
    ⟨chainEncodable_loadOrCreateChain hload, rfl, rfl⟩
  obtain ⟨-, hmirror⟩ := mirrored_run h₀ hne hrun
  exact ⟨⟨_, hmirror.chainFile, deserializeChain_saved hmirror.encodable⟩, hmirror.pending⟩

end

/-! ## A node that mines its first block -/

/-- The files of a node with `openGenesis` and two pending payments. -/
def openFiles : Files where
  chainFile := some (serializeChain [openGenesis])
  mempoolFile := some (serializeMempool [payingSpendTx, followingTx])

/-- The open genesis chain can be encoded. -/
theorem encodable_openGenesis : @ChainEncodable keylessCrypto [openGenesis] := by
  apply @chainEncodable_of_length keylessCrypto
  · simp only [List.forall_mem_singleton]
    show ∀ tx ∈ [openRewardTx], _
    simp only [List.forall_mem_singleton]
    exact txHash_openRewardTx
  · decide +kernel

/-- After one mining iteration the chain of two blocks loads back, and nothing is pending. -/
theorem disk_mirrors_memory_openFiles :
    ∃ s, @LoggedRun keylessCrypto zeroAddress pendingSystem [.mined] s ∧
      s.node.chain.length = 2 ∧
      (∃ buffer, s.node.files.chainFile = some buffer ∧
        @deserializeChain keylessCrypto buffer = .ok s.node.chain) ∧
      @loadMempoolOrEmpty keylessCrypto s.node.files.mempoolFile = [] := by
  obtain ⟨node, hmined, hchain⟩ := miningLoop_pendingSystem
  have hfits : SizesFit node.chain := by
    rw [hchain]
    exact ⟨by decide, by decide⟩
  have hrun : @LoggedRun keylessCrypto zeroAddress pendingSystem [.mined] _ :=
    @LoggedRun.tail keylessCrypto _ _ _ _ _ _ (@LoggedRun.refl keylessCrypto _ _)
      (@Logged.mine keylessCrypto zeroAddress pendingSystem node 1 1700000020 hmined) hfits
  have hload := @deserializeChain_saved keylessCrypto _ encodable_openGenesis
  have hstart : @Constructed keylessCrypto zeroAddress openFiles pendingSystem.node := by
    refine ⟨0, 0, [openGenesis], ?_, by simp, rfl⟩
    simp only [loadOrCreateChain, openFiles, hload]
  have hmirror := @disk_mirrors_memory keylessCrypto zeroAddress openFiles pendingSystem.node
    hstart _ _ hrun
  exact ⟨_, hrun, by simp [hchain], hmirror.1, hmirror.2⟩

end Siliqua.Network
