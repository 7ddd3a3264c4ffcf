import Siliqua.Ledger.DirectAccept
import Siliqua.Network.Origins
import Siliqua.Network.Sending
import Siliqua.Network.SyncPaths

/-!
# Mining for one peer

`run_listener` mines a block and serves it to the `run_connector` that connects. Both end, and the
connector has the listener's chain exactly if it had its own and the block spends nothing it brings,
or if it had another one that is lighter.
-/

namespace Siliqua.Network

open ByteDecoder Siliqua.Core Siliqua.Consensus Siliqua.Storage Siliqua.Ledger

section

variable [Crypto]

/-! ## The listener -/

/-- What is answered once the block is announced; `node.h:420–433`. -/
def serveBlock (chain : List CBlock) (newBlock : CBlock) : List Message → List Message
  | [] => []
  | msg :: rest =>
    if msg.command = Command.GETDATA then
      ⟨Command.BLOCK, newBlock.serialize⟩ :: serveBlock chain newBlock rest
    else if msg.command = Command.GETBLOCKS then
      ⟨Command.CHAIN, serializeChain chain⟩ :: serveBlock chain newBlock rest
    else []

/-- What is sent for the messages that come in; `node.h:400–433`. -/
def listen (chain : List CBlock) (newBlock : CBlock) (received : List Message) : List Message :=
  match received with
  | [] => []
  | version :: rest =>
    if version.command ≠ Command.VERSION then []
    else
      let sent := [⟨Command.VERSION, buildVersionPayload⟩]
      match rest with
      | [] => sent
      | verack :: rest =>
        if verack.command ≠ Command.VERACK then sent
        else
          sent ++ [⟨Command.VERACK, []⟩, ⟨Command.INV, newBlock.getHash.toList⟩] ++
            serveBlock chain newBlock rest

/-- `node.h:357–436`, for the address of the loaded wallet, on the connection that is accepted: the
files after, and the messages sent. -/
def runListenerWith (fuel : Nat) (genesisClock clock : UInt32) (files : Files)
    (walletAddress : Address) (stream : Bytes) : Option (Files × List Message) := do
  let chain ← loadOrCreateChain fuel genesisClock files.chainFile walletAddress
  let (newBlock, files) ← runListener fuel genesisClock clock files walletAddress
  pure (files, listen (chain ++ [newBlock]) newBlock (messages stream))

/-! ## The connector -/

/-- The chain of a connector that has heard the listener out: it extends its own if the block links
to it, and else compares the listener's. What is too long for a message does not reach it. -/
def syncedChain (chain peerChain : List CBlock) (blk : CBlock) : List CBlock :=
  if MAX_PAYLOAD_SIZE < blk.serialize.length then chain
  else if blk.hashPrevBlock = tipHash chain then (tryExtendChain chain blk).2
  else if MAX_PAYLOAD_SIZE < (serializeChain peerChain).length then chain
  else (tryReorg chain peerChain).2

/-- The file is written if the chain has changed. -/
def Files.syncTo (files : Files) (chain newChain : List CBlock) : Files :=
  if newChain = chain then files else files.saveChain newChain

private def announces (blk : CBlock) : Message := ⟨Command.INV, blk.getHash.toList⟩
private def asksFor (blk : CBlock) : Message := ⟨Command.GETDATA, blk.getHash.toList⟩
private def delivers (blk : CBlock) : Message := ⟨Command.BLOCK, blk.serialize⟩
private def asksForAll : Message := ⟨Command.GETBLOCKS, []⟩
private def deliversAll (chain : List CBlock) : Message := ⟨Command.CHAIN, serializeChain chain⟩

private theorem length_getHash (blk : CBlock) : blk.getHash.toList.length ≤ MAX_PAYLOAD_SIZE := by
  rw [List.Vector.toList_length]
  decide

private theorem arrives_announces (blk : CBlock) : (announces blk).Arrives :=
  ⟨isCommand_INV, length_getHash blk⟩

private theorem arrives_asksFor (blk : CBlock) : (asksFor blk).Arrives :=
  ⟨isCommand_GETDATA, length_getHash blk⟩

omit [Crypto] in
private theorem arrives_asksForAll : asksForAll.Arrives := by decide

/-- Everything `run_connector` can do, by what it hears. -/
theorem runConnector_cases {files : Files} {chain : List CBlock}
    (hload : loadedChain files = some (.ok chain)) (stream : Bytes) :
    (runConnector files stream = .ok (files, [hello]) ∧ ∀ more, messages stream ≠ hello :: more) ∨
      (runConnector files stream = .ok (files, [hello, ready]) ∧
        ∀ inv more, messages stream ≠ hello :: ready :: ⟨Command.INV, inv⟩ :: more) ∨
      ∃ version verack inv more,
        messages stream = ⟨Command.VERSION, version⟩ :: ⟨Command.VERACK, verack⟩ ::
          ⟨Command.INV, inv⟩ :: more ∧
        ((runConnector files stream = .ok (files, [hello, ready, ⟨Command.GETDATA, inv⟩]) ∧
            ∀ block rest, more ≠ ⟨Command.BLOCK, block⟩ :: rest) ∨
          ∃ block rest, more = ⟨Command.BLOCK, block⟩ :: rest ∧
            runConnector files stream =
              connectorBlock files chain block rest [hello, ready, ⟨Command.GETDATA, inv⟩]) := by
  have hfiles : files.chainFile.map deserializeChain = some (.ok chain) := hload
  unfold runConnector
  simp only [hfiles]
  rcases messages stream with - | ⟨⟨version, hi⟩, rest⟩
  · exact Or.inl ⟨rfl, by simp⟩
  by_cases hversion : version = Command.VERSION
  swap
  · refine Or.inl ⟨if_pos hversion, fun more heq ↦ hversion ?_⟩
    exact congrArg Message.command (List.cons.inj heq).1
  subst hversion
  simp only [ne_eq, not_true_eq_false, if_false]
  rcases rest with - | ⟨⟨verack, ok⟩, - | ⟨⟨inv, hash⟩, rest⟩⟩
  · exact Or.inr (Or.inl ⟨rfl, by simp⟩)
  · exact Or.inr (Or.inl ⟨rfl, by simp⟩)
  by_cases hready : verack = Command.VERACK ∧ inv = Command.INV
  swap
  · refine Or.inr (Or.inl ⟨if_pos (not_and_or.mp hready), fun hash' more heq ↦ hready ?_⟩)
    have htail := (List.cons.inj heq).2
    exact ⟨congrArg Message.command (List.cons.inj htail).1,
      congrArg Message.command (List.cons.inj (List.cons.inj htail).2).1⟩
  obtain ⟨rfl, rfl⟩ := hready
  refine Or.inr (Or.inr ⟨hi, ok, hash, rest, rfl, ?_⟩)
  simp only [not_true_eq_false, or_self, if_false]
  rcases rest with - | ⟨⟨block, payload⟩, rest⟩
  · exact Or.inl ⟨rfl, by simp⟩
  by_cases hblock : block = Command.BLOCK
  swap
  · refine Or.inl ⟨if_pos hblock, fun payload' more heq ↦ hblock ?_⟩
    exact congrArg Message.command (List.cons.inj heq).1
  subst hblock
  exact Or.inr ⟨payload, rest, rfl, if_neg (not_not_intro rfl)⟩

/-- Behind the block at most the chain is asked for. -/
private theorem prefix_connectorBlock {files files' : Files} {chain : List CBlock}
    {payload : Bytes} {rest sent asked : List Message}
    (h : connectorBlock files chain payload rest sent = .ok (files', asked)) : sent <+: asked := by
  unfold connectorBlock at h
  split at h
  · cases h
  split at h
  · dsimp only at h
    split at h
    · cases h
      exact List.prefix_refl _
    · split at h
      · repeat' split at h
        all_goals cases h
        all_goals exact List.prefix_append _ _
      · cases h
        exact List.prefix_refl _
  · cases h
    exact List.prefix_refl _

section Block

variable {files : Files} {chain : List CBlock} (hne : chain ≠ []) {blk : CBlock}
  (henc : blk.Encodable) (hmerkle : blk.isMerkleRootValid = true)
  (hwork : checkProofOfWork blk.toCBlockHeader = true)
include hne henc

/-- A block that links to the tip extends the chain or is dropped. -/
private theorem connectorBlock_of_links (hlinks : blk.hashPrevBlock = tipHash chain)
    (rest sent : List Message) : connectorBlock files chain blk.serialize rest sent =
      .ok (files.syncTo chain (tryExtendChain chain blk).2, sent) := by
  obtain ⟨own, hown⟩ : ∃ own, chain.getLast? = some own := ⟨_, List.getLast?_eq_some_getLast hne⟩
  obtain ⟨bits, hnext, hbits⟩ := exists_nextWorkRequired hne
  have hflags := connectorChecks_iff hown hbits blk
  unfold connectorBlock
  simp only [CBlock.deserialize_serialize henc, hown, hnext]
  rcases tryExtendChain_cases hne blk with ⟨hfits, heq⟩ | ⟨hmisfit, heq⟩
  · rw [if_pos (hflags.mpr hfits), heq, Files.syncTo, if_neg (by simp)]
  · have hlinked : (connectorChecks chain own bits blk).linksToTip = true := by
      simp [connectorChecks, hlinks, tipHash_eq hown]
    rw [if_neg fun h ↦ hmisfit (hflags.mp h), heq, Files.syncTo, if_pos rfl, hlinked]
    simp only [Bool.not_true, Bool.and_false, Bool.false_eq_true, if_false]

include hmerkle hwork

/-- For any other block that is mined the chain is asked for. -/
private theorem connectorBlock_of_apart (hlinks : blk.hashPrevBlock ≠ tipHash chain)
    (sent : List Message) :
    connectorBlock files chain blk.serialize [] sent = .ok (files, sent ++ [asksForAll]) ∧
      (∀ rest files' asked, connectorBlock files chain blk.serialize rest sent =
        .ok (files', asked) → asked = sent ++ [asksForAll]) ∧
      ∀ peerChain, ChainEncodable peerChain → ∀ rest,
        connectorBlock files chain blk.serialize (deliversAll peerChain :: rest) sent =
          .ok (files.syncTo chain (tryReorg chain peerChain).2, sent ++ [asksForAll]) := by
  obtain ⟨own, hown⟩ : ∃ own, chain.getLast? = some own := ⟨_, List.getLast?_eq_some_getLast hne⟩
  obtain ⟨bits, hnext, hbits⟩ := exists_nextWorkRequired hne
  have hflags := connectorChecks_iff hown hbits blk
  have hmisfit : ¬ FastFits chain blk := fun h ↦ hlinks h.prev
  have hasked : ((connectorChecks chain own bits blk).merkleOk &&
      (connectorChecks chain own bits blk).powOk &&
      !(connectorChecks chain own bits blk).linksToTip) = true := by
    simp [connectorChecks, hmerkle, hwork, ← tipHash_eq hown, hlinks]
  unfold connectorBlock
  simp only [CBlock.deserialize_serialize henc, hown, hnext, if_neg fun h ↦ hmisfit (hflags.mp h),
    if_pos hasked]
  refine ⟨rfl, fun rest files' asked h ↦ ?_, fun peerChain hpeer rest ↦ ?_⟩
  · repeat' split at h
    all_goals cases h
    all_goals rfl
  · have hload : deserializeChain (serializeChain peerChain) = .ok peerChain :=
      deserializeChain_saved hpeer
    simp only [deliversAll, hload, ne_eq, not_true_eq_false, if_false, connectorSwitch_eq hne,
      tryReorg_eq hne]
    by_cases hswitch : eligible chain peerChain = true ∧ work chain < work peerChain
    · have hother : peerChain ≠ chain := by
        rintro rfl
        exact lt_irrefl _ hswitch.2
      simp only [if_pos hswitch, Files.syncTo, if_neg hother]
      rfl
    · simp only [if_neg hswitch, Files.syncTo, if_true]
      rfl

end Block

/-! ## The conversation -/

private theorem messages_asked {blk : CBlock} (more : List Message) :
    messages (frames (hello :: ready :: asksFor blk :: more)) =
      hello :: ready :: asksFor blk :: messages (frames more) := by
  rw [messages_frames_cons arrives_hello, messages_frames_cons arrives_ready,
    messages_frames_cons (arrives_asksFor blk)]

private theorem messages_served {blk : CBlock} (more : List Message) :
    messages (frames (hello :: ready :: announces blk :: more)) =
      hello :: ready :: announces blk :: messages (frames more) := by
  rw [messages_frames_cons arrives_hello, messages_frames_cons arrives_ready,
    messages_frames_cons (arrives_announces blk)]

section Dialogue

variable {files files' : Files} {chain peerChain : List CBlock} (hne : chain ≠ [])
  (hload : loadedChain files = some (.ok chain)) {blk : CBlock}
include hload

/-- Once the block is announced, its delivery decides. -/
private theorem runConnector_delivered (hlt : blk.serialize.length < 2 ^ 32)
    (more : List Message) :
    (MAX_PAYLOAD_SIZE < blk.serialize.length →
      runConnector files (frames (hello :: ready :: announces blk :: delivers blk :: more)) =
        .ok (files, [hello, ready, asksFor blk])) ∧
      (blk.serialize.length ≤ MAX_PAYLOAD_SIZE →
        runConnector files (frames (hello :: ready :: announces blk :: delivers blk :: more)) =
          connectorBlock files chain blk.serialize (messages (frames more))
            [hello, ready, asksFor blk]) := by
  have hm := @messages_served _ blk (delivers blk :: more)
  have hcases := runConnector_cases hload
    (frames (hello :: ready :: announces blk :: delivers blk :: more))
  rw [hm] at hcases
  rcases hcases with ⟨-, hnone⟩ | ⟨-, hnone⟩ | ⟨version, verack, inv, rest, heq, hcases⟩
  · exact absurd rfl (hnone _)
  · exact absurd rfl (hnone _ _)
  obtain ⟨-, -, hinv, hrest⟩ : hello = ⟨Command.VERSION, version⟩ ∧
      ready = ⟨Command.VERACK, verack⟩ ∧ announces blk = ⟨Command.INV, inv⟩ ∧
      messages (frames (delivers blk :: more)) = rest := by
    simpa only [List.cons.injEq] using heq
  obtain rfl : blk.getHash.toList = inv := congrArg Message.payload hinv
  subst hrest
  refine ⟨fun hlong ↦ ?_, fun hfits ↦ ?_⟩
  · rw [delivers, messages_frames_of_lt hlong hlt] at hcases
    rcases hcases with ⟨heq, -⟩ | ⟨block, rest, hnil, -⟩
    · exact heq
    · cases hnil
  · have harrives : (delivers blk).Arrives := ⟨isCommand_BLOCK, hfits⟩
    rw [messages_frames_cons harrives] at hcases
    rcases hcases with ⟨-, hnone⟩ | ⟨block, rest, hcons, heq⟩
    · exact absurd rfl (hnone _ _)
    · obtain ⟨hpayload, rfl⟩ := List.cons.inj hcons
      obtain rfl : blk.serialize = block := congrArg Message.payload hpayload
      exact heq

/-- The two get to the announced block: the listener answers the version and its confirmation, the
connector asks for what is announced. -/
private theorem asksFor_of_conversation {asked served : List Message}
    (hserves : listen peerChain blk (messages (frames asked)) = served)
    (hasks : runConnector files (frames served) = .ok (files', asked)) :
    ∃ later, asked = hello :: ready :: asksFor blk :: later ∧
      served = hello :: ready :: announces blk :: delivers blk ::
        serveBlock peerChain blk (messages (frames later)) := by
  have hcases := runConnector_cases hload (frames served)
  rw [hasks] at hcases
  rcases hcases with ⟨heq, hnone⟩ | ⟨heq, hnone⟩ | ⟨version, verack, inv, more, hm, hcases⟩
  · cases heq
    rw [messages_frames_cons arrives_hello] at hserves
    obtain rfl : [hello] = served := hserves
    exact absurd (messages_frames_cons arrives_hello []) (hnone _)
  · cases heq
    rw [messages_frames_cons arrives_hello, messages_frames_cons arrives_ready] at hserves
    obtain rfl : [hello, ready, announces blk] = served := hserves
    exact absurd (messages_served []) (hnone _ _)
  obtain ⟨later, rfl⟩ : ∃ later, asked = hello :: ready :: ⟨Command.GETDATA, inv⟩ :: later := by
    rcases hcases with ⟨heq, -⟩ | ⟨block, rest, -, heq⟩
    · cases heq
      exact ⟨[], rfl⟩
    · obtain ⟨later, hlater⟩ := prefix_connectorBlock heq.symm
      exact ⟨later, hlater.symm⟩
  rw [messages_frames_cons arrives_hello, messages_frames_cons arrives_ready] at hserves
  obtain rfl : hello :: ready :: announces blk :: serveBlock peerChain blk
      (messages (frames (⟨Command.GETDATA, inv⟩ :: later))) = served := hserves
  -- what was announced is what is asked for
  rw [messages_served] at hm
  obtain ⟨-, -, hinv, -⟩ : hello = ⟨Command.VERSION, version⟩ ∧
      ready = ⟨Command.VERACK, verack⟩ ∧ announces blk = ⟨Command.INV, inv⟩ ∧ _ = more := by
    simpa only [List.cons.injEq] using hm
  obtain rfl : blk.getHash.toList = inv := congrArg Message.payload hinv
  refine ⟨later, rfl, ?_⟩
  have hrequest : messages (frames (⟨Command.GETDATA, blk.getHash.toList⟩ :: later)) =
      asksFor blk :: messages (frames later) := messages_frames_cons (arrives_asksFor blk) later
  rw [hrequest]
  rfl

variable (henc : blk.Encodable) (hmem : blk ∈ peerChain) (hbytes : BytesFit peerChain)
include hne henc hmem hbytes

/-- A connector that does not get the block, or whose tip it links to, asks for nothing else. -/
private theorem runConnector_stays
    (hstay : MAX_PAYLOAD_SIZE < blk.serialize.length ∨ blk.hashPrevBlock = tipHash chain)
    (more : List Message) :
    runConnector files (frames (hello :: ready :: announces blk :: delivers blk :: more)) =
      .ok (files.syncTo chain (syncedChain chain peerChain blk), [hello, ready, asksFor blk]) := by
  obtain ⟨hlong, hfits⟩ := runConnector_delivered hload
    ((length_serialize_le hmem).trans_lt hbytes) more
  by_cases hlt : MAX_PAYLOAD_SIZE < blk.serialize.length
  · rw [hlong hlt, syncedChain, if_pos hlt, Files.syncTo, if_pos rfl]
  · have hlinks := hstay.resolve_left hlt
    rw [hfits (Nat.not_lt.mp hlt), syncedChain, if_neg hlt, if_pos hlinks]
    exact connectorBlock_of_links hne henc hlinks _ _

variable (hmerkle : blk.isMerkleRootValid = true)
  (hwork : checkProofOfWork blk.toCBlockHeader = true) (hpeer : ChainEncodable peerChain)
include hmerkle hwork hpeer

/-- Any other connector asks for the chain, and compares it if it gets it. -/
private theorem runConnector_compares (hfits : blk.serialize.length ≤ MAX_PAYLOAD_SIZE)
    (hlinks : blk.hashPrevBlock ≠ tipHash chain) :
    (∀ more asked, runConnector files
        (frames (hello :: ready :: announces blk :: delivers blk :: more)) = .ok (files', asked) →
      asked = [hello, ready, asksFor blk, asksForAll]) ∧
      runConnector files (frames [hello, ready, announces blk, delivers blk,
          deliversAll peerChain]) =
        .ok (files.syncTo chain (syncedChain chain peerChain blk),
          [hello, ready, asksFor blk, asksForAll]) := by
  have hblk := (length_serialize_le hmem).trans_lt hbytes
  obtain ⟨hnothing, hasks, hanswer⟩ := @connectorBlock_of_apart _ files _ hne _ henc hmerkle hwork
    hlinks [hello, ready, asksFor blk]
  refine ⟨fun more asked h ↦ ?_, ?_⟩
  · rw [(runConnector_delivered hload hblk more).2 hfits] at h
    exact hasks _ _ _ h
  rw [(runConnector_delivered hload hblk _).2 hfits, syncedChain, if_neg (Nat.not_lt.mpr hfits),
    if_neg hlinks]
  by_cases hlong : MAX_PAYLOAD_SIZE < (serializeChain peerChain).length
  · rw [deliversAll, messages_frames_of_lt hlong hbytes, if_pos hlong, Files.syncTo, if_pos rfl]
    exact hnothing
  · have harrives : (deliversAll peerChain).Arrives := ⟨isCommand_CHAIN, Nat.not_lt.mp hlong⟩
    rw [messages_frames_cons harrives, if_neg hlong]
    exact hanswer peerChain hpeer []

/-- Whatever is said, the connector ends with the synced chain. -/
private theorem conversation_unique {asked served : List Message}
    (hserves : listen peerChain blk (messages (frames asked)) = served)
    (hasks : runConnector files (frames served) = .ok (files', asked)) :
    files' = files.syncTo chain (syncedChain chain peerChain blk) := by
  obtain ⟨later, rfl, rfl⟩ := asksFor_of_conversation hload hserves hasks
  by_cases hstay : MAX_PAYLOAD_SIZE < blk.serialize.length ∨ blk.hashPrevBlock = tipHash chain
  · rw [@runConnector_stays _ _ _ peerChain hne hload _ henc hmem hbytes hstay] at hasks
    exact (Prod.mk.inj (Except.ok.inj hasks)).1.symm
  · obtain ⟨hfits, hlinks⟩ := not_or.mp hstay
    obtain ⟨hlast, hanswer⟩ := @runConnector_compares _ _ files' _ peerChain hne hload _ henc hmem
      hbytes hmerkle hwork hpeer (Nat.not_lt.mp hfits) hlinks
    have heq := hlast _ _ hasks
    obtain rfl : later = [asksForAll] := (List.cons.inj (List.cons.inj (List.cons.inj heq).2).2).2
    have hall : serveBlock peerChain blk (messages (frames [asksForAll])) =
        [deliversAll peerChain] := by
      rw [messages_frames_cons arrives_asksForAll]
      rfl
    rw [hall, hanswer] at hasks
    exact (Prod.mk.inj (Except.ok.inj hasks)).1.symm

/-- And there is something to be said. -/
private theorem conversation_exists : ∃ asked served,
    listen peerChain blk (messages (frames asked)) = served ∧
      runConnector files (frames served) =
        .ok (files.syncTo chain (syncedChain chain peerChain blk), asked) := by
  by_cases hstay : MAX_PAYLOAD_SIZE < blk.serialize.length ∨ blk.hashPrevBlock = tipHash chain
  · refine ⟨[hello, ready, asksFor blk], [hello, ready, announces blk, delivers blk], ?_,
      runConnector_stays hne hload henc hmem hbytes hstay []⟩
    rw [messages_asked]
    rfl
  · obtain ⟨hfits, hlinks⟩ := not_or.mp hstay
    refine ⟨[hello, ready, asksFor blk, asksForAll], [hello, ready, announces blk, delivers blk,
      deliversAll peerChain], ?_, (@runConnector_compares _ _ files _ peerChain hne hload _ henc
        hmem hbytes hmerkle hwork hpeer (Nat.not_lt.mp hfits) hlinks).2⟩
    rw [messages_asked, messages_frames_cons arrives_asksForAll]
    rfl

end Dialogue

/-! ## The sync -/

section

variable {fuel : Nat} {genesisClock clock : UInt32} {address : Address}
  {filesA filesA' files : Files} {chainA chain : List CBlock} {blk : CBlock}

/-- What the connector's file holds after. -/
private theorem loadedChain_syncTo {newChain : List CBlock}
    (hload : loadedChain files = some (.ok chain)) (henc : ChainEncodable newChain) :
    loadedChain (files.syncTo chain newChain) = some (.ok newChain) := by
  rw [Files.syncTo]
  split
  · next heq => rw [hload, heq]
  · exact congrArg some (deserializeChain_saved henc)

/-- The synced chain is one of three. -/
private theorem encodable_syncedChain {peerChain : List CBlock} (hne : chain ≠ [])
    (hchain : ChainEncodable chain) (hpeer : ChainEncodable peerChain) (hblk : blk.Encodable)
    (hlen : chain.length + 1 < 2 ^ 32) : ChainEncodable (syncedChain chain peerChain blk) := by
  unfold syncedChain
  split
  · exact hchain
  split
  · rcases tryExtendChain_cases hne blk with ⟨-, heq⟩ | ⟨-, heq⟩
    · rw [heq]
      exact encodable_concat hchain hblk (by rw [List.length_append]; exact hlen)
    · rw [heq]
      exact hchain
  split
  · exact hchain
  · rw [tryReorg_eq hne]
    split
    · exact hpeer
    · exact hchain

/-- A connector whose tip the block links to ends with the listener's chain exactly if it takes the
block. -/
private theorem syncedChain_of_links (hne : chain ≠ [])
    (hlinks : blk.hashPrevBlock = tipHash chain) :
    syncedChain chain (chain ++ [blk]) blk = chain ++ [blk] ↔
      blk.serialize.length ≤ MAX_PAYLOAD_SIZE ∧ FastFits chain blk := by
  have hother : chain ≠ chain ++ [blk] := by simp
  rw [syncedChain, if_pos hlinks]
  split
  · next hlong => exact iff_of_false hother fun h ↦ absurd h.1 (Nat.not_le.mpr hlong)
  · next hfits =>
    rcases tryExtendChain_cases hne blk with ⟨hfast, heq⟩ | ⟨hmisfit, heq⟩
    · rw [heq]
      exact iff_of_true rfl ⟨Nat.not_lt.mp hfits, hfast⟩
    · rw [heq]
      exact iff_of_false hother fun h ↦ hmisfit h.2

/-- Any other one if it has that chain, or gets it and finds it to be the heavier one. -/
private theorem syncedChain_of_apart {peerChain : List CBlock} (hne : chain ≠ [])
    (hmem : blk ∈ peerChain) (hlinks : blk.hashPrevBlock ≠ tipHash chain)
    (hvalid : validateFullChain peerChain = true) :
    syncedChain chain peerChain blk = peerChain ↔ chain = peerChain ∨
      (serializeChain peerChain).length ≤ MAX_PAYLOAD_SIZE ∧
        genesisHash peerChain = genesisHash chain ∧ work chain < work peerChain := by
  have hle := length_serialize_le hmem
  rw [syncedChain, if_neg hlinks]
  by_cases hlong : MAX_PAYLOAD_SIZE < (serializeChain peerChain).length
  · rw [if_pos hlong, ite_self]
    exact (or_iff_left fun h ↦ absurd h.1 (Nat.not_le.mpr hlong)).symm
  · rw [if_neg (fun h ↦ hlong (h.trans_le hle)), if_neg hlong, tryReorg_eq hne]
    simp only [eligible, hvalid, Bool.and_true, decide_eq_true_eq]
    split
    · next hswitch => exact iff_of_true rfl (Or.inr ⟨Nat.not_lt.mp hlong, hswitch⟩)
    · next hstay => exact (or_iff_left fun h ↦ hstay h.2).symm

/-- A `run_listener` and the `run_connector` that connects to it both end, and in one way: the
listener saves its chain with the new block, the connector the synced chain. If the listener's chain
was valid, then from the same chain the connector gets to the listener's exactly if the block is not
too long for a message and nothing the listener's loop took spends the output of another pending
transaction. From any chain that the block does not link to it gets there exactly if it has that
chain already, or if that chain is not too long, begins like its own and is heavier. -/
theorem one_shot_sync
    (hloadA : loadOrCreateChain fuel genesisClock filesA.chainFile address = some chainA)
    (hmined : runListener fuel genesisClock clock filesA address = some (blk, filesA'))
    (hbytes : BytesFit (chainA ++ [blk])) (hne : chain ≠ [])
    (hload : loadedChain files = some (.ok chain)) :
    Ends (runListenerWith fuel genesisClock clock filesA address) (runConnector files) filesA'
        (files.syncTo chain (syncedChain chain (chainA ++ [blk]) blk)) ∧
      loadedChain filesA' = some (.ok (chainA ++ [blk])) ∧
      (chain.length + 1 < 2 ^ 32 →
        loadedChain (files.syncTo chain (syncedChain chain (chainA ++ [blk]) blk)) =
          some (.ok (syncedChain chain (chainA ++ [blk]) blk))) ∧
      (validateFullChain chainA = true →
        Collisionless (transactions (chainA ++ [blk]) ++ loadMempoolOrEmpty filesA.mempoolFile) →
        (chain = chainA → (syncedChain chain (chainA ++ [blk]) blk = chainA ++ [blk] ↔
          blk.serialize.length ≤ MAX_PAYLOAD_SIZE ∧
            SpendsOnlyChain chainA (loadMempoolOrEmpty filesA.mempoolFile))) ∧
        (blk.hashPrevBlock ≠ tipHash chain →
          (syncedChain chain (chainA ++ [blk]) blk = chainA ++ [blk] ↔ chain = chainA ++ [blk] ∨
            (serializeChain (chainA ++ [blk])).length ≤ MAX_PAYLOAD_SIZE ∧
              genesisHash (chainA ++ [blk]) = genesisHash chain ∧
              work chain < work (chainA ++ [blk])))) := by
  obtain ⟨hblock, hfile⟩ := runListener_spec hloadA hmined
  obtain ⟨hneA, hbuilt⟩ := mineOnto_spec hblock
  have hsizes := hbytes.sizesFit
  have hmem : blk ∈ chainA ++ [blk] := by simp
  have hblk : blk.Encodable := encodable_of_mineOnto hblock (hsizes.2 blk hmem)
  have hpeer : ChainEncodable (chainA ++ [blk]) :=
    encodable_concat (chainEncodable_loadOrCreateChain hloadA) hblk hsizes.1
  have hdec := decoded_of_loadMempoolOrEmpty filesA.mempoolFile
  have hsend (stream : Bytes) : runListenerWith fuel genesisClock clock filesA address stream =
      some (filesA', listen (chainA ++ [blk]) blk (messages stream)) := by
    rw [runListenerWith, hloadA, hmined]
    rfl
  refine ⟨⟨?_, fun sender receiver served asked h ↦ ?_⟩, ?_, fun hlen ↦ ?_, fun hacc hcol ↦ ?_⟩
  · obtain ⟨asked, served, hserves, hasks⟩ := conversation_exists hne hload hblk hmem hbytes
      hbuilt.merkle hbuilt.work hpeer
    exact ⟨served, asked, by rw [hsend, hserves], hasks⟩
  · have hsends := h.sends
    rw [hsend, Option.some.injEq, Prod.mk.injEq] at hsends
    exact ⟨hsends.1.symm, conversation_unique hne hload hblk hmem hbytes hbuilt.merkle hbuilt.work
      hpeer hsends.2 h.receives⟩
  · rw [loadedChain, hfile]
    exact congrArg some (deserializeChain_saved hpeer)
  · obtain ⟨buffer, -, hbuffer⟩ := Option.map_eq_some_iff.mp hload
    exact loadedChain_syncTo hload (encodable_syncedChain hne
      (chainEncodable_of_deserializeChain hbuffer) hpeer hblk hlen)
  · refine ⟨?_, fun hlinks ↦ syncedChain_of_apart hne hmem hlinks
      (validateFullChain_of_built hacc hdec hbuilt hcol)⟩
    rintro rfl
    have hcol' : Collisionless (transactions chain ++ loadMempoolOrEmpty filesA.mempoolFile) := by
      refine hcol.subset (List.append_subset.mpr ⟨fun tx htx ↦ ?_, List.subset_append_right _ _⟩)
      simp [transactions_append, htx]
    rw [← fastFits_iff_spendsOnlyChain hacc hdec hbuilt hcol']
    exact syncedChain_of_links hne hbuilt.prev

end

end

/-! ## A peer that refuses the block -/

private theorem load_openFiles : @loadOrCreateChain keylessCrypto 1 0 openFiles.chainFile
    zeroAddress = some [openGenesis] := by
  have hload := @deserializeChain_saved keylessCrypto _ encodable_openGenesis
  simp only [loadOrCreateChain, openFiles, hload]

private theorem mempool_openFiles :
    @loadMempoolOrEmpty keylessCrypto openFiles.mempoolFile = [payingSpendTx, followingTx] :=
  @loadMempoolOrEmpty_serializeMempool keylessCrypto _ ⟨by decide, List.forall_mem_cons.mpr
    ⟨encodable_payingSpendTx, List.forall_mem_singleton.mpr encodable_followingTx⟩⟩

private theorem runListener_openFiles : @runListener keylessCrypto 1 0 1700000020 openFiles
    zeroAddress = some (minedBlock, ⟨some (serializeChain paidChain),
      some (serializeMempool [])⟩) := by
  unfold runListener
  rw [load_openFiles, mempool_openFiles, Option.bind_eq_bind, Option.bind_some, mineOnto_minedBlock]
  rfl

/-- A connector with the listener's first block keeps it: the second payment of the mined block
spends the first one's output. -/
theorem one_shot_sync_openFiles :
    @Ends keylessCrypto _ _ (@runListenerWith keylessCrypto 1 0 1700000020 openFiles zeroAddress)
        (@runConnector keylessCrypto genesisFiles)
        ⟨some (serializeChain paidChain), some (serializeMempool [])⟩ genesisFiles ∧
      ¬ @SpendsOnlyChain keylessCrypto [openGenesis]
        (@loadMempoolOrEmpty keylessCrypto openFiles.mempoolFile) := by
  have hload : @loadedChain keylessCrypto genesisFiles = some (.ok [openGenesis]) :=
    congrArg some (@deserializeChain_saved keylessCrypto _ encodable_openGenesis)
  have hbytes : BytesFit ([openGenesis] ++ [minedBlock]) := by
    rw [BytesFit]
    decide +kernel
  have hcol := collisionless_minedBlock
  rw [← mempool_openFiles] at hcol
  obtain ⟨hends, -, -, hsyncs⟩ := @one_shot_sync keylessCrypto 1 0 1700000020 zeroAddress openFiles
    _ genesisFiles _ _ _ load_openFiles runListener_openFiles hbytes (by simp) hload
  have hkeeps : @syncedChain keylessCrypto [openGenesis] ([openGenesis] ++ [minedBlock])
      minedBlock = [openGenesis] := by
    obtain ⟨-, -, hlinks, hmisfit⟩ := linkedMisfit_minedBlock
    rcases @tryExtendChain_cases keylessCrypto [openGenesis] (by simp) minedBlock with
      ⟨hfits, -⟩ | ⟨-, heq⟩
    · exact absurd hfits hmisfit
    · unfold syncedChain
      rw [if_pos hlinks, heq, ite_self]
  rw [hkeeps] at hends hsyncs
  refine ⟨?_, fun honly ↦ ?_⟩
  · rwa [Files.syncTo, if_pos rfl] at hends
  · have hmined := ((hsyncs validateFullChain_openGenesis hcol).1 rfl).mpr
      ⟨by decide +kernel, honly⟩
    cases hmined

end Siliqua.Network
