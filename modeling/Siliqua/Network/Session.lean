import Siliqua.Network.Pending

/-!
# A session among the other threads

`HandleConnection` takes the lock once to announce its tip and once for every reply. In between,
the other threads mine, extend and reorg. A `getdata` gets the tip of the moment, whatever hash
it asks for.
-/

namespace Siliqua.Network

open ByteDecoder Siliqua.Core Siliqua.Storage Siliqua.Ledger

/-- What a session waits for. -/
inductive SessionPhase where
  | version
  | verack
  | request
  | closed
  deriving DecidableEq

/-- A `getdata` message's payload, `chain_` when it is answered, and the answer. -/
structure Answer where
  asked : Bytes
  chain : List CBlock
  sent : Message

/-- A node with one session: the hash it has announced, the messages it has sent, and the
`getdata` messages it has answered. -/
structure Conversation where
  system : System
  phase : SessionPhase
  announced : Option Hash256
  sent : List Message
  answers : List Answer

namespace Conversation

/-- A connection has been accepted. -/
def start (system : System) : Conversation := ⟨system, .version, none, [], []⟩

/-- The session ends. -/
def close (c : Conversation) : Conversation := { c with phase := .closed }

variable [Crypto]

/-- The session gets a message and acts on it; `daemon.h:87–120`. An error is an exception that
leaves the thread function, and `chain_.back()` is undefined on an empty chain. -/
def receive (c : Conversation) (msg : Message) : Except ReadError Conversation :=
  let node := c.system.node
  match c.phase with
  | .version =>
    if msg.command ≠ Command.VERSION then .ok c.close
    else .ok { c with
      phase := .verack, sent := c.sent ++ [⟨Command.VERSION, buildVersionPayload⟩] }
  | .verack =>
    if msg.command ≠ Command.VERACK then .ok c.close
    else
      match node.chain.getLast? with
      | none => .ok c.close
      | some tip => .ok { c with
          phase := .request
          announced := some tip.getHash
          sent := c.sent ++ [⟨Command.VERACK, []⟩, ⟨Command.INV, tip.getHash.toList⟩] }
  | .request =>
    if msg.command = Command.GETDATA then
      match node.chain.getLast? with
      | none => .ok c.close
      | some tip =>
        let reply : Message := ⟨Command.BLOCK, tip.serialize⟩
        .ok { c with
          sent := c.sent ++ [reply], answers := c.answers ++ [⟨msg.payload, node.chain, reply⟩] }
    else if msg.command = Command.GETBLOCKS then
      .ok { c with sent := c.sent ++ [⟨Command.CHAIN, serializeChain node.chain⟩] }
    else if msg.command = Command.TX then
      match Transaction.deserialize msg.payload 0 with
      | .error e => .error e
      | .ok (tx, _) =>
        .ok { c with system := { c.system with node := node.acceptTransaction tx } }
    else .ok c.close
  | .closed => .ok c

/-- Every answer to a `getdata` that asks for the announced hash carries a block with it. -/
def AnswersAnnounced (c : Conversation) : Prop :=
  ∀ hash, c.announced = some hash → ∀ answer ∈ c.answers, answer.asked = hash.toList →
    ∃ blk : CBlock, answer.sent = ⟨Command.BLOCK, blk.serialize⟩ ∧
      blk.getHash.toList = answer.asked

/-- Whenever a `getdata` asks for the announced hash, `chain_` ends in a block with it. -/
def AskedAtTip (c : Conversation) : Prop :=
  ∀ hash, c.announced = some hash → ∀ answer ∈ c.answers, answer.asked = hash.toList →
    tipHash answer.chain = hash

end Conversation

section

variable [Crypto]

/-- One step of a node with a session: a critical section of another thread, or a message that
arrives at the session, or its end. -/
inductive Converse (walletAddress : Address) : Conversation → Conversation → Prop
  | other {c : Conversation} {system : System} (step : Step walletAddress c.system system) :
      Converse walletAddress c { c with system }
  | receive {c c' : Conversation} (msg : Message) (received : c.receive msg = .ok c') :
      Converse walletAddress c c'
  | hangUp {c : Conversation} : Converse walletAddress c c.close

/-- A step that, once a hash is announced, leaves the hash of the last block alone. -/
def KeepsTip (c c' : Conversation) : Prop :=
  c.announced ≠ none → tipHash c'.system.node.chain = tipHash c.system.node.chain

namespace Conversation

/-! ## One message -/

/-- What a message does: the session opens, announces its tip, answers a `getdata` from its tip,
or does none of this. The chain stays. -/
theorem receive_cases {c c' : Conversation} {msg : Message} (h : c.receive msg = .ok c') :
    c'.system.node.chain = c.system.node.chain ∧
      ((c.phase = .verack ∧ c'.phase = .request ∧ c'.answers = c.answers ∧
          ∃ tip, c.system.node.chain.getLast? = some tip ∧ c'.announced = some tip.getHash) ∨
        (c.phase = .request ∧ c'.phase = .request ∧ c'.announced = c.announced ∧
          ∃ tip, c.system.node.chain.getLast? = some tip ∧ c'.answers = c.answers ++
            [⟨msg.payload, c.system.node.chain, ⟨Command.BLOCK, tip.serialize⟩⟩]) ∨
        ((c'.phase = .version ∨ c'.phase = .verack → c.phase = .version ∨ c.phase = .verack) ∧
          c'.announced = c.announced ∧ c'.answers = c.answers)) := by
  unfold receive at h
  dsimp only at h
  split at h
  · next hphase =>
    split at h
    · cases h
      exact ⟨rfl, Or.inr (Or.inr ⟨fun _ ↦ Or.inl hphase, rfl, rfl⟩)⟩
    · cases h
      exact ⟨rfl, Or.inr (Or.inr ⟨fun _ ↦ Or.inl hphase, rfl, rfl⟩)⟩
  · next hphase =>
    split at h
    · cases h
      exact ⟨rfl, Or.inr (Or.inr ⟨fun _ ↦ Or.inr hphase, rfl, rfl⟩)⟩
    · split at h
      · cases h
        exact ⟨rfl, Or.inr (Or.inr ⟨fun _ ↦ Or.inr hphase, rfl, rfl⟩)⟩
      · next tip htip =>
        cases h
        exact ⟨rfl, Or.inl ⟨hphase, rfl, rfl, tip, htip, rfl⟩⟩
  · next hphase =>
    have hclose : c.close.phase = .version ∨ c.close.phase = .verack →
        c.phase = .version ∨ c.phase = .verack := by
      rintro (hc | hc) <;> cases hc
    split at h
    · split at h
      · cases h
        exact ⟨rfl, Or.inr (Or.inr ⟨hclose, rfl, rfl⟩)⟩
      · next tip htip =>
        cases h
        exact ⟨rfl, Or.inr (Or.inl ⟨hphase, hphase, rfl, tip, htip, rfl⟩)⟩
    · split at h
      · cases h
        exact ⟨rfl, Or.inr (Or.inr ⟨id, rfl, rfl⟩)⟩
      · split at h
        · split at h
          · cases h
          · cases h
            exact ⟨Node.chain_acceptTransaction _ _, Or.inr (Or.inr ⟨id, rfl, rfl⟩)⟩
        · cases h
          exact ⟨rfl, Or.inr (Or.inr ⟨hclose, rfl, rfl⟩)⟩
  · cases h
    exact ⟨rfl, Or.inr (Or.inr ⟨id, rfl, rfl⟩)⟩

/-! ## A session on its own -/

/-- What is left when the connection is over: the node and the messages sent. -/
def outcome (c : Conversation) : Node × List Message := (c.system.node, c.sent)

/-- A session that has ended stays as it is. -/
theorem foldlM_receive_closed {c : Conversation} (h : c.phase = .closed) (msgs : List Message) :
    msgs.foldlM receive c = .ok c := by
  induction msgs with
  | nil => rfl
  | cons msg rest ih =>
    have hc : c.receive msg = .ok c := by simp [receive, h]
    rw [List.foldlM_cons, hc]
    exact ih

/-- Without other threads, the request loop does what `serve` does. -/
theorem serve_eq (system : System) (announced : Option Hash256) (sent : List Message)
    (answers : List Answer) (msgs : List Message) :
    (msgs.foldlM receive ⟨system, .request, announced, sent, answers⟩).map outcome =
      system.node.serve msgs sent := by
  induction msgs generalizing system sent answers with
  | nil => rfl
  | cons msg rest ih =>
    have hclosed : (rest.foldlM receive (close ⟨system, .request, announced, sent, answers⟩)).map
        outcome = .ok (system.node, sent) :=
      congrArg (Except.map outcome) (foldlM_receive_closed rfl rest)
    rw [List.foldlM_cons, Node.serve]
    simp only [receive]
    split
    · cases system.node.chain.getLast? with
      | none => exact hclosed
      | some tip => exact ih _ _ _
    · split
      · exact ih _ _ _
      · split
        · cases Transaction.deserialize msg.payload 0 with
          | error e => rfl
          | ok r => exact ih { system with node := system.node.acceptTransaction r.1 } _ _
        · exact hclosed

/-- Without other threads, a session is what `handleConnection` does with the stream. -/
theorem handleConnection_eq (system : System) (stream : Bytes) :
    ((messages stream).foldlM receive (start system)).map outcome =
      system.node.handleConnection stream := by
  unfold Node.handleConnection
  cases messages stream with
  | nil => rfl
  | cons msg rest =>
    rw [List.foldlM_cons]
    simp only [receive, start]
    split
    · exact congrArg (Except.map outcome) (foldlM_receive_closed rfl rest)
    · cases rest with
      | nil => rfl
      | cons msg rest =>
        simp only [List.nil_append]
        change Except.map outcome (_ >>= fun c ↦ rest.foldlM receive c) = _
        simp only [receive]
        split
        · exact congrArg (Except.map outcome) (foldlM_receive_closed rfl rest)
        · cases system.node.chain.getLast? with
          | none => exact congrArg (Except.map outcome) (foldlM_receive_closed rfl rest)
          | some tip => exact serve_eq system _ _ _ rest

/-! ## Runs -/

/-- What holds of a session in every state: nothing is answered before the announcement, and
every answer is the last block of the chain of the moment. -/
structure Answers (c : Conversation) : Prop where
  opening : c.phase = .version ∨ c.phase = .verack → c.announced = none ∧ c.answers = []
  tips : ∀ answer ∈ c.answers, ∃ tip, answer.chain.getLast? = some tip ∧
    answer.sent = ⟨Command.BLOCK, tip.serialize⟩

/-- The announced hash is the one of the last block, now and at every answer. -/
structure TipKept (c : Conversation) (hash : Hash256) : Prop where
  tip : tipHash c.system.node.chain = hash
  answers : ∀ answer ∈ c.answers, tipHash answer.chain = hash

section

variable {address : Address} {c c' : Conversation}

/-- One step. -/
theorem Answers.step (h : Answers c) (hstep : Converse address c c') : Answers c' := by
  cases hstep with
  | other step => exact ⟨h.opening, h.tips⟩
  | hangUp =>
    refine ⟨?_, h.tips⟩
    rintro (hc | hc) <;> cases hc
  | receive msg received =>
    obtain ⟨-, ⟨-, hphase, hanswers, -⟩ | ⟨-, hphase, -, tip, htip, hanswers⟩ |
      ⟨hopening, hannounced, hanswers⟩⟩ := receive_cases received
    · refine ⟨?_, by rw [hanswers]; exact h.tips⟩
      rw [hphase]
      rintro (hc | hc) <;> cases hc
    · refine ⟨?_, ?_⟩
      · rw [hphase]
        rintro (hc | hc) <;> cases hc
      · rw [hanswers]
        intro answer hanswer
        rcases List.mem_append.mp hanswer with hold | hnew
        · exact h.tips answer hold
        · obtain rfl := List.mem_singleton.mp hnew
          exact ⟨tip, htip, rfl⟩
    · refine ⟨fun hc ↦ ?_, by rw [hanswers]; exact h.tips⟩
      rw [hannounced, hanswers]
      exact h.opening (hopening hc)

/-- One step that keeps the tip. -/
theorem TipKept.step (h : Answers c) (hkept : ∀ hash, c.announced = some hash → TipKept c hash)
    (hstep : Converse address c c') (hkeeps : KeepsTip c c') {hash : Hash256}
    (hannounced' : c'.announced = some hash) : TipKept c' hash := by
  have hstays (hann : c.announced = some hash) :
      tipHash c'.system.node.chain = hash := by
    rw [hkeeps (by rw [hann]; exact Option.some_ne_none hash)]
    exact (hkept hash hann).tip
  cases hstep with
  | other step => exact ⟨hstays hannounced', (hkept hash hannounced').answers⟩
  | hangUp => exact ⟨hstays hannounced', (hkept hash hannounced').answers⟩
  | receive msg received =>
    obtain ⟨hchain, ⟨hphase, -, hanswers, tip, htip, hann⟩ | ⟨-, -, hann, tip, htip, hanswers⟩ |
      ⟨-, hann, hanswers⟩⟩ := receive_cases received
    · have hnone : c'.answers = [] := by rw [hanswers, (h.opening (Or.inr hphase)).2]
      rw [hann] at hannounced'
      obtain rfl := Option.some.inj hannounced'
      exact ⟨by rw [hchain, tipHash_eq htip], by simp [hnone]⟩
    · rw [hann] at hannounced'
      refine ⟨hstays hannounced', ?_⟩
      rw [hanswers]
      intro answer hanswer
      rcases List.mem_append.mp hanswer with hold | hnew
      · exact (hkept hash hannounced').answers answer hold
      · obtain rfl := List.mem_singleton.mp hnew
        exact (hkept hash hannounced').tip
    · rw [hann] at hannounced'
      exact ⟨hstays hannounced', by rw [hanswers]; exact (hkept hash hannounced').answers⟩

/-- Messages that arrive one after the other, with no other thread in between, are a run, and it
keeps the tip. -/
theorem run_of_foldlM {msgs : List Message} (h : msgs.foldlM receive c = .ok c') :
    Relation.ReflTransGen (fun c c' ↦ Converse address c c' ∧ KeepsTip c c') c c' := by
  induction msgs generalizing c with
  | nil =>
    obtain rfl := Except.ok.inj h
    exact .refl
  | cons msg rest ih =>
    rw [List.foldlM_cons] at h
    cases hmsg : c.receive msg with
    | error e =>
      rw [hmsg] at h
      cases h
    | ok mid =>
      rw [hmsg] at h
      exact .head ⟨.receive msg hmsg, fun _ ↦ by rw [(receive_cases hmsg).1]⟩ (ih h)

/-- Every run. -/
theorem answers_run {system : System}
    (hrun : Relation.ReflTransGen (Converse address) (start system) c) : Answers c := by
  induction hrun with
  | refl => exact ⟨fun _ ↦ ⟨rfl, rfl⟩, by simp [start]⟩
  | tail _ hstep ih => exact ih.step hstep

/-- Every run whose steps keep the tip. -/
theorem tipKept_run {system : System}
    (hrun : Relation.ReflTransGen (fun c c' ↦ Converse address c c' ∧ KeepsTip c c')
      (start system) c) : ∀ hash, c.announced = some hash → TipKept c hash := by
  induction hrun with
  | refl => exact fun hash hann ↦ by cases hann
  | tail hrun hstep ih =>
    have hanswers := answers_run (Relation.ReflTransGen.mono (fun _ _ h ↦ h.1) _ _ hrun)
    exact fun hash ↦ TipKept.step hanswers ih hstep.1 hstep.2

end

/-- Blocks with one encoding have one hash. -/
theorem getHash_eq_of_serialize_eq {blk blk' : CBlock} (h : blk.serialize = blk'.serialize) :
    blk.getHash = blk'.getHash := by
  have hheader : blk.toCBlockHeader.serialize = blk'.toCBlockHeader.serialize := by
    simp only [CBlock.serialize, writeVarInt32_eq, List.append_assoc] at h
    exact (List.append_inj h (by simp only [CBlockHeader.length_serialize])).1
  exact congrArg hashDoubleSha256 hheader

/-- An answer carries a block with a hash exactly when it was the last block's. -/
theorem carries_iff {answer : Answer} {tip : CBlock} (htip : answer.chain.getLast? = some tip)
    (hsent : answer.sent = ⟨Command.BLOCK, tip.serialize⟩) (hash : Hash256) :
    (∃ blk : CBlock, answer.sent = ⟨Command.BLOCK, blk.serialize⟩ ∧
      blk.getHash.toList = hash.toList) ↔ tipHash answer.chain = hash := by
  rw [tipHash_eq htip]
  constructor
  · rintro ⟨blk, hblk, hhash⟩
    rw [hsent, Message.mk.injEq] at hblk
    rw [getHash_eq_of_serialize_eq hblk.2]
    exact Subtype.ext hhash
  · rintro rfl
    exact ⟨tip, hsent, rfl⟩

/-- In every run, the answers to the announced hash are right exactly when the chain ends in a
block with it whenever one is asked for; so they are in every run in which no step changes the
last block's hash after the announcement. -/
theorem getdata_answers {address : Address} {system : System} {c : Conversation} :
    (Relation.ReflTransGen (Converse address) (start system) c →
      (c.AnswersAnnounced ↔ c.AskedAtTip)) ∧
    (Relation.ReflTransGen (fun c c' ↦ Converse address c c' ∧ KeepsTip c c') (start system) c →
      c.AnswersAnnounced) := by
  have hiff (hrun : Relation.ReflTransGen (Converse address) (start system) c) :
      c.AnswersAnnounced ↔ c.AskedAtTip := by
    have hone {answer : Answer} (hanswer : answer ∈ c.answers) {hash : Hash256}
        (hasked : answer.asked = hash.toList) :
        (∃ blk : CBlock, answer.sent = ⟨Command.BLOCK, blk.serialize⟩ ∧
          blk.getHash.toList = answer.asked) ↔ tipHash answer.chain = hash := by
      obtain ⟨tip, htip, hsent⟩ := (answers_run hrun).tips answer hanswer
      rw [hasked]
      exact carries_iff htip hsent hash
    constructor
    · intro h hash hann answer hanswer hasked
      exact (hone hanswer hasked).mp (h hash hann answer hanswer hasked)
    · intro h hash hann answer hanswer hasked
      exact (hone hanswer hasked).mpr (h hash hann answer hanswer hasked)
  refine ⟨hiff, fun hrun ↦ (hiff (Relation.ReflTransGen.mono (fun _ _ h ↦ h.1) _ _ hrun)).mpr ?_⟩
  exact fun hash hann answer hanswer _ ↦ (tipKept_run hrun hash hann).answers answer hanswer

end Conversation

end

/-! ## A block mined between announcement and request -/

/-- What a peer sends to open a session and hand over `payingSpendTx`. -/
def paymentMessages : List Message :=
  [⟨Command.VERSION, buildVersionPayload⟩, ⟨Command.VERACK, []⟩,
    ⟨Command.TX, payingSpendTx.serialize⟩]

/-- The session after that, on a node with `openGenesis`. -/
def paymentSession : Conversation where
  system := ⟨@Node.acceptTransaction keylessCrypto openNode payingSpendTx, .idle⟩
  phase := .request
  announced := some (@CBlock.getHash keylessCrypto openGenesis)
  sent := [⟨Command.VERSION, buildVersionPayload⟩, ⟨Command.VERACK, []⟩,
    ⟨Command.INV, (@CBlock.getHash keylessCrypto openGenesis).toList⟩]
  answers := []

/-- The request for the announced block. -/
def openGenesisRequest : Message :=
  ⟨Command.GETDATA, (@CBlock.getHash keylessCrypto openGenesis).toList⟩

private theorem receive_paymentMessages :
    paymentMessages.foldlM (@Conversation.receive keylessCrypto) (.start ⟨openNode, .idle⟩) =
      .ok paymentSession := by
  have hget : Command.TX ≠ Command.GETDATA := by decide
  have hblocks : Command.TX ≠ Command.GETBLOCKS := by decide
  simp only [paymentMessages, List.foldlM_cons, List.foldlM_nil, Conversation.receive,
    Conversation.start, decoded_payingSpendTx, hget, hblocks, ne_eq, not_true_eq_false, if_false,
    if_true]
  rfl

/-- The node mines the payment before the request arrives, and answers with the new block. -/
theorem getdata_answered_by_paidBlock :
    @validateFullChain keylessCrypto openNode.chain = true ∧
      ∃ c : Conversation, Relation.ReflTransGen (@Converse keylessCrypto zeroAddress)
          (.start ⟨openNode, .idle⟩) c ∧
        c.announced = some (@CBlock.getHash keylessCrypto openGenesis) ∧
        c.answers = [⟨openGenesisRequest.payload, [openGenesis, paidBlock],
          ⟨Command.BLOCK, paidBlock.serialize⟩⟩] ∧
        ¬ @Conversation.AnswersAnnounced keylessCrypto c := by
  have hopening := @Conversation.run_of_foldlM keylessCrypto zeroAddress _ _ _
    receive_paymentMessages
  have hmine := @Converse.other keylessCrypto zeroAddress paymentSession ⟨paidNode, .idle⟩
    (@Step.mine keylessCrypto zeroAddress paymentSession.system _ 1 1700000021
      miningLoop_paidBlock)
  have hget := @Converse.receive keylessCrypto zeroAddress
    { paymentSession with system := ⟨paidNode, .idle⟩ } _ openGenesisRequest rfl
  have hrun := ((Relation.ReflTransGen.mono (fun _ _ h ↦ h.1) _ _ hopening).tail hmine).tail hget
  refine ⟨validateFullChain_openGenesis, _, hrun, rfl, rfl, fun hanswers ↦ ?_⟩
  have hcarries := hanswers _ rfl _ (List.mem_singleton.mpr rfl) rfl
  have htip := (@Conversation.carries_iff keylessCrypto _ paidBlock rfl rfl _).mp hcarries
  exact absurd htip (by decide +kernel)

/-- A payment that another session accepts in between leaves the tip alone, and the announced block
is sent. -/
theorem getdata_answers_payment :
    @Conversation.AnswersAnnounced keylessCrypto { paymentSession with
      sent := paymentSession.sent ++ [⟨Command.BLOCK, openGenesis.serialize⟩]
      answers := [⟨openGenesisRequest.payload, [openGenesis],
        ⟨Command.BLOCK, openGenesis.serialize⟩⟩] } := by
  have hopening : (paymentMessages.take 2).foldlM (@Conversation.receive keylessCrypto)
      (.start ⟨openNode, .idle⟩) = .ok { paymentSession with system := ⟨openNode, .idle⟩ } := rfl
  have hchain : paymentSession.system.node.chain = [openGenesis] :=
    @Node.chain_acceptTransaction keylessCrypto _ _
  have haccept : @Converse keylessCrypto zeroAddress
      { paymentSession with system := ⟨openNode, .idle⟩ } paymentSession :=
    @Converse.other keylessCrypto zeroAddress _ _
      (@Step.accept keylessCrypto zeroAddress _ _ _ _ decoded_payingSpendTx)
  have hkeeps : @KeepsTip keylessCrypto { paymentSession with system := ⟨openNode, .idle⟩ }
      paymentSession := fun _ ↦ congrArg (@tipHash keylessCrypto) hchain
  have hget : @Conversation.receive keylessCrypto paymentSession openGenesisRequest =
      .ok { paymentSession with
        sent := paymentSession.sent ++ [⟨Command.BLOCK, openGenesis.serialize⟩]
        answers := [⟨openGenesisRequest.payload, [openGenesis],
          ⟨Command.BLOCK, openGenesis.serialize⟩⟩] } := by
    simp only [Conversation.receive, hchain]
    rfl
  have hrun := (@Conversation.run_of_foldlM keylessCrypto zeroAddress _ _ _ hopening).tail
    ⟨haccept, hkeeps⟩
  exact (@Conversation.getdata_answers keylessCrypto zeroAddress ⟨openNode, .idle⟩ _).2
    (hrun.tail ⟨@Converse.receive keylessCrypto zeroAddress _ _ _ hget, fun _ ↦ rfl⟩)

end Siliqua.Network
