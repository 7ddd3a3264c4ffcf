import Siliqua.Network.Commands
import Siliqua.Network.Listening

/-!
# The life of a data directory

The wallet, chain and mempool files of one `chain_path` under all commands of the program, one after
the other, and a daemon that is stopped anywhere. A key that was saved is never replaced, and a
chain that was saved is only followed by chains of the same genesis and of no less work. The
exception is `--seed`, which writes a new chain whatever is there.
-/

namespace Siliqua.Network

open ByteDecoder Siliqua.Core Siliqua.Consensus Siliqua.Storage Siliqua.Wallet Siliqua.Ledger

/-- The files `chain_path`, `chain_path.mempool` and `chain_path.wallet`. -/
structure Directory where
  walletFile : Option Bytes
  files : Files

/-- What the wallet and the daemon's constructor read. -/
def Directory.dataFiles (d : Directory) : DataFiles := ⟨d.walletFile, d.files.chainFile⟩

/-- There is no chain file, or it holds a linked chain. -/
def Files.Readable [Crypto] (files : Files) : Prop :=
  files.chainFile = none ∨ ∃ chain, loadedChain files = some (.ok chain) ∧ Linked chain

/-- One chain may follow another. -/
structure Progress [Crypto] (chain chain' : List CBlock) : Prop where
  linked : Linked chain'
  genesis : genesisHash chain' = genesisHash chain
  heavier : work chain ≤ work chain'

/-- A chain that could be read is followed by one that can. -/
def Files.Continues [Crypto] (files files' : Files) : Prop :=
  ∀ chain, loadedChain files = some (.ok chain) →
    ∃ chain', loadedChain files' = some (.ok chain') ∧ Progress chain chain'

section

variable [SigningCrypto]

/-- What a command makes of the directory of its path, with any random key, clock and peer;
`Siliqua.cpp:139–233`. A daemon has been stopped after any step, in chains that take less than
`2 ^ 32` bytes, and may mine: one that does not, does nothing else. -/
inductive Executes : Invocation → Directory → Directory → Prop
  | seed {d : Directory} {path : Bytes} {fuel : Nat} {clock : UInt32} {chain : List CBlock}
      (built : buildGenesisChain fuel clock zeroAddress = some chain) :
      Executes (.seed path) d { d with files := d.files.saveChain chain }
  | listen {d : Directory} {port : UInt16} {path : Bytes} {fuel : Nat}
      {genesisClock clock : UInt32} {generated : Option Wallet} {w : Wallet}
      {walletFile : Option Bytes} {blk : CBlock} {files : Files}
      (opened : loadOrCreateWallet generated d.walletFile = some (w, walletFile))
      (mined : runListener fuel genesisClock clock d.files w.address = some (blk, files)) :
      Executes (.listen port path) d ⟨walletFile, files⟩
  | connect {d : Directory} {host : Bytes} {port : UInt16} {path : Bytes} {files : Files}
      {sent : List Message} (stream : Bytes)
      (synced : runConnector d.files stream = .ok (files, sent)) :
      Executes (.connect host port path) d { d with files }
  | address {d : Directory} {path : Bytes} {generated : Option Wallet} {w : Wallet}
      {walletFile : Option Bytes}
      (opened : loadOrCreateWallet generated d.walletFile = some (w, walletFile)) :
      Executes (.address path) d { d with walletFile }
  | balance {d : Directory} {path : Bytes} {generated : Option Wallet} {w : Wallet}
      {walletFile : Option Bytes}
      (opened : loadOrCreateWallet generated d.walletFile = some (w, walletFile)) :
      Executes (.balance path) d { d with walletFile }
  | send {d : Directory} {host : Bytes} {port : UInt16} {path : Bytes} {recipient : Address}
      {amount : Int64} {generated : Option Wallet}
      {walk : UtxoSet → List (COutPoint × CTxOut)} {after : DataFiles} {sent : List Message}
      (stream : Bytes)
      (paid : runSendTx generated walk d.dataFiles recipient amount stream = some (after, sent)) :
      Executes (.send host port path recipient amount) d
        ⟨after.walletFile, ⟨after.chainFile, d.files.mempoolFile⟩⟩
  | receiveTx {d : Directory} {port : UInt16} {path : Bytes} {files : Files}
      {sent : List Message} (stream : Bytes)
      (received : runReceiveTx d.files stream = .ok (files, sent)) :
      Executes (.receiveTx port path) d { d with files }
  | daemon {d : Directory} {port : UInt16} {path : Bytes} {peers : List PeerAddress} {mine : Bool}
      {fuel : Nat} {clock : UInt32} {generated : Option Wallet} {s : Startup} {last : System}
      (built : constructNode fuel clock generated d.dataFiles = some s)
      (run : Relation.ReflTransGen
        (fun t t' ↦ Step s.wallet.address t t' ∧ BytesFit t'.node.chain)
        ⟨Node.start s.chain d.files.mempoolFile, .idle⟩ last) :
      Executes (.daemon port path peers mine) d ⟨s.files.walletFile, last.node.files⟩
  | demonstration {d : Directory} : Executes .demonstration d d

/-! ## What is kept -/

/-- The files that exist can be read. -/
structure Directory.Healthy (d : Directory) : Prop where
  wallet : d.walletFile = none ∨ ∃ w, loadWallet d.walletFile = some w
  chain : d.files.Readable

/-- The key is the same, and the chain has made progress. -/
structure Directory.Kept (d d' : Directory) : Prop where
  wallet : ∀ w, loadWallet d.walletFile = some w → loadWallet d'.walletFile = some w
  chain : d.files.Continues d'.files

/-- The chain file takes less than `2 ^ 32` bytes. -/
def Directory.Fits (d : Directory) : Prop :=
  ∀ bytes, d.files.chainFile = some bytes → bytes.length < 2 ^ 32

end

/-! ## Chains -/

section

variable [Crypto] {chain chain' chain'' : List CBlock}

theorem Progress.refl (h : Linked chain) : Progress chain chain := ⟨h, rfl, le_refl _⟩

theorem Progress.trans (h : Progress chain chain') (h' : Progress chain' chain'') :
    Progress chain chain'' :=
  ⟨h'.linked, h'.genesis.trans h.genesis, h.heavier.trans h'.heavier⟩

/-- A fitting block. -/
theorem Progress.concat (h : Linked chain) {blk : CBlock} (hfits : HeaderFits chain blk)
    {front : Transaction} {rest : List Transaction} (hv : blk.vtx = front :: rest)
    (hcb : front.isCoinbase = true) : Progress chain (chain ++ [blk]) :=
  ⟨h.concat hfits hv hcb, genesisHash_concat h.nonempty blk, work_concat_le chain blk⟩

/-- A step of a daemon. -/
theorem Progress.step {address : Address} {s s' : System} (h : Linked s.node.chain)
    (hstep : Step address s s') : Progress s.node.chain s'.node.chain := by
  obtain ⟨⟨hlinked, hgenesis⟩, hwork⟩ := integrity_step ⟨h, rfl⟩ hstep
  exact ⟨hlinked, hgenesis, hwork⟩

/-- The files of a node hold its chain, and some pending transactions. -/
def Node.Stored (node : Node) : Prop := ∃ pending, Mirrored pending node

/-- A step of a daemon saves what it does. -/
theorem Node.Stored.step {address : Address} {s s' : System} (h : s.node.Stored)
    (hne : s.node.chain ≠ []) (hstep : Step address s s') (hfits : BytesFit s'.node.chain) :
    s'.node.Stored := by
  obtain ⟨pending, h⟩ := h
  have hsizes := hfits.sizesFit
  cases hstep with
  | mine fuel clock mined => exact ⟨_, h.miningLoop mined hsizes⟩
  | accept payload decoded =>
    exact ⟨_, h.acceptTransaction (Transaction.codec.canonical (Nat.zero_le _) decoded).1⟩
  | pollExtend payload phase decoded =>
    exact ⟨_, h.pollExtend hne (CBlock.codec.canonical (Nat.zero_le _) decoded).1 hsizes⟩
  | pollReorg payload phase decoded =>
    exact ⟨_, h.pollReorg (chainEncodable_of_deserializeChain decoded)⟩
  | pollGiveUp phase => exact ⟨_, h⟩
  | mempoolWrite content => exact ⟨_, h.encodable, h.chainFile, rfl⟩

/-- A daemon that is stopped anywhere leaves what it has made of its chain. -/
theorem Node.Stored.run {address : Address} {s s' : System} (h : s.node.Stored)
    (hlinked : Linked s.node.chain)
    (hrun : Relation.ReflTransGen (fun t t' ↦ Step address t t' ∧ BytesFit t'.node.chain) s s') :
    s'.node.Stored ∧ Progress s.node.chain s'.node.chain := by
  induction hrun with
  | refl => exact ⟨h, .refl hlinked⟩
  | tail _ hstep ih =>
    obtain ⟨hstored, hprogress⟩ := ih
    exact ⟨hstored.step hprogress.linked.nonempty hstep.1 hstep.2,
      hprogress.trans (.step hprogress.linked hstep.1)⟩

end

/-! ## Files -/

section

variable [Crypto] {files files' : Files} {chain chain' : List CBlock} {sent : List Message}

/-- What a command makes of the chain file: it can be read and goes on from what was there. -/
structure Files.Advances (files files' : Files) : Prop where
  readable : files'.Readable
  continues : files.Continues files'

/-- A file holds one chain. -/
private theorem loadedChain_inj (h : loadedChain files = some (.ok chain))
    (h' : loadedChain files = some (.ok chain')) : chain = chain' :=
  Except.ok.inj (Option.some.inj (h.symm.trans h'))

/-- The file is left alone. -/
theorem Files.Advances.of_eq (h : files.Readable) (heq : files'.chainFile = files.chainFile) :
    files.Advances files' := by
  have hloaded : loadedChain files' = loadedChain files := by rw [loadedChain, heq, loadedChain]
  refine ⟨by rwa [Files.Readable, heq, hloaded], fun chain hchain ↦ ?_⟩
  rcases h with hnone | ⟨found, hfound, hlinked⟩
  · rw [loadedChain, hnone] at hchain
    cases hchain
  · obtain rfl := loadedChain_inj hfound hchain
    exact ⟨found, hloaded.trans hfound, .refl hlinked⟩

/-- A chain is saved that goes on from the one that was there. -/
theorem Files.Advances.of_saved (hfile : files'.chainFile = some (serializeChain chain'))
    (henc : ChainEncodable chain') (hlinked : Linked chain')
    (h : ∀ chain, loadedChain files = some (.ok chain) → Progress chain chain') :
    files.Advances files' := by
  have hload : loadedChain files' = some (.ok chain') := by
    rw [loadedChain, hfile]
    exact congrArg some (deserializeChain_saved henc)
  exact ⟨.inr ⟨chain', hload, hlinked⟩, fun chain hchain ↦ ⟨chain', hload, h chain hchain⟩⟩

/-- What a node loads or creates is linked, and it is what could be read. -/
private theorem linked_loadOrCreateChain {fuel : Nat} {clock : UInt32} {address : Address}
    (h : files.Readable)
    (hload : loadOrCreateChain fuel clock files.chainFile address = some chain) :
    Linked chain ∧ ∀ found, loadedChain files = some (.ok found) → found = chain := by
  rcases h with hnone | ⟨own, hown, hlinked⟩
  · rw [hnone] at hload
    refine ⟨linked_of_accepted (validateFullChain_buildGenesisChain hload), fun found hfound ↦ ?_⟩
    rw [loadedChain, hnone] at hfound
    cases hfound
  · obtain ⟨buffer, hfile, hbuffer⟩ := Option.map_eq_some_iff.mp hown
    simp only [loadOrCreateChain, hfile, hbuffer, Option.some.injEq] at hload
    subst hload
    exact ⟨hlinked, fun found hfound ↦ loadedChain_inj hfound hown⟩

/-! ## The one-shot commands -/

/-- `run_listener` appends a block. -/
private theorem advances_runListener {fuel : Nat} {genesisClock clock : UInt32} {address : Address}
    {blk : CBlock} (h : files.Readable)
    (hmined : runListener fuel genesisClock clock files address = some (blk, files'))
    (hfits : ∀ bytes, files'.chainFile = some bytes → bytes.length < 2 ^ 32) :
    files.Advances files' := by
  obtain ⟨chain, hload, -⟩ : ∃ chain, loadOrCreateChain fuel genesisClock files.chainFile address =
      some chain ∧ _ := Option.bind_eq_some_iff.mp hmined
  obtain ⟨hblock, hfile⟩ := runListener_spec hload hmined
  obtain ⟨hlinked, hown⟩ := linked_loadOrCreateChain h hload
  obtain ⟨-, hbuilt⟩ := mineOnto_spec hblock
  have hsizes := BytesFit.sizesFit (hfits _ hfile)
  have hprogress := Progress.concat hlinked hbuilt.headerFits hbuilt.vtx
    (isCoinbase_buildCoinbaseTx _ _ _)
  refine .of_saved hfile (encodable_concat (chainEncodable_loadOrCreateChain hload)
    (encodable_of_mineOnto hblock (hsizes.2 blk (by simp))) hsizes.1) hprogress.linked ?_
  rintro found hfound
  obtain rfl := hown found hfound
  exact hprogress

/-- Behind the block `run_connector` saves a chain that goes on from its own, or nothing. -/
private theorem connectorBlock_saves (hlinked : Linked chain) {payload : Bytes}
    {rest asked : List Message}
    (h : connectorBlock files chain payload rest sent = .ok (files', asked)) :
    files' = files ∨ ∃ chain', files' = files.saveChain chain' ∧ Progress chain chain' ∧
      (ChainEncodable chain → BytesFit chain' → ChainEncodable chain') := by
  unfold connectorBlock at h
  split at h
  · cases h
  next blk next hdecode =>
  split at h
  swap
  · cases h
    exact .inl rfl
  next tip bits htip hnext =>
  obtain ⟨bits', hnext', hbits⟩ := exists_nextWorkRequired hlinked.nonempty
  obtain rfl : bits = bits' := Option.some.inj (hnext.symm.trans hnext')
  dsimp only at h
  split at h
  · next hflags =>
    cases h
    have hfast := (connectorChecks_iff htip hbits blk).mp hflags
    obtain ⟨front, more, hv, hcb, -⟩ := hfast.coinbase
    exact .inr ⟨_, rfl, .concat hlinked hfast.toHeaderFits hv hcb, fun henc hfits ↦
      encodable_concat henc (CBlock.codec.canonical (Nat.zero_le _) hdecode).1 hfits.sizesFit.1⟩
  split at h
  swap
  · cases h
    exact .inl rfl
  split at h
  · cases h
    exact .inl rfl
  split at h
  · cases h
    exact .inl rfl
  split at h
  · cases h
  next peerChain hload =>
  rw [connectorSwitch_eq hlinked.nonempty] at h
  by_cases hswitch : eligible chain peerChain = true ∧ work chain < work peerChain
  · rw [if_pos hswitch] at h
    cases h
    have helig := hswitch.1
    rw [eligible, Bool.and_eq_true, decide_eq_true_eq] at helig
    exact .inr ⟨_, rfl, ⟨linked_of_accepted helig.2, helig.1, hswitch.2.le⟩, fun _ _ ↦
      chainEncodable_of_deserializeChain hload⟩
  · rw [if_neg hswitch] at h
    cases h
    exact .inl rfl

/-- So does `run_connector`. -/
private theorem advances_runConnector {stream : Bytes} (h : files.Readable)
    (hsynced : runConnector files stream = .ok (files', sent))
    (hfits : ∀ bytes, files'.chainFile = some bytes → bytes.length < 2 ^ 32) :
    files.Advances files' := by
  rcases h with hnone | ⟨own, hown, hlinked⟩
  · rw [runConnector, hnone] at hsynced
    cases hsynced
    exact .of_eq (.inl hnone) rfl
  have hcases : files' = files ∨ ∃ block rest sent', connectorBlock files own block rest sent' =
      .ok (files', sent) := by
    rcases runConnector_cases hown stream with ⟨heq, -⟩ | ⟨heq, -⟩ |
      ⟨_, _, _, _, -, ⟨heq, -⟩ | ⟨block, rest, -, heq⟩⟩
    · exact .inl (Prod.mk.inj (Except.ok.inj (hsynced.symm.trans heq))).1
    · exact .inl (Prod.mk.inj (Except.ok.inj (hsynced.symm.trans heq))).1
    · exact .inl (Prod.mk.inj (Except.ok.inj (hsynced.symm.trans heq))).1
    · exact .inr ⟨block, rest, _, heq.symm.trans hsynced⟩
  rcases hcases with rfl | ⟨block, rest, sent', hblock⟩
  · exact .of_eq (.inr ⟨own, hown, hlinked⟩) rfl
  rcases connectorBlock_saves hlinked hblock with rfl | ⟨chain', rfl, hprogress, henc⟩
  · exact .of_eq (.inr ⟨own, hown, hlinked⟩) rfl
  obtain ⟨buffer, -, hbuffer⟩ := Option.map_eq_some_iff.mp hown
  refine .of_saved rfl (henc (chainEncodable_of_deserializeChain hbuffer) (hfits _ rfl))
    hprogress.linked fun found hfound ↦ ?_
  obtain rfl := loadedChain_inj hown hfound
  exact hprogress

private theorem chainFile_receiveTx {payload : Bytes}
    (h : receiveTx files chain payload = .ok files') : files'.chainFile = files.chainFile := by
  unfold receiveTx at h
  split at h
  · cases h
  dsimp only at h
  repeat' split at h
  all_goals
    cases h
    rfl

/-- `run_receive_tx` does not touch the chain. -/
private theorem chainFile_runReceiveTx {stream : Bytes}
    (h : runReceiveTx files stream = .ok (files', sent)) : files'.chainFile = files.chainFile := by
  unfold runReceiveTx at h
  split at h
  swap
  · cases h
    rfl
  next chain hload =>
  dsimp only at h
  repeat' split at h
  all_goals try
    cases h
    rfl
  next msg _ _ _ =>
  cases hreceive : receiveTx files chain msg.payload with
  | error e =>
    rw [hreceive] at h
    cases h
  | ok after =>
    rw [hreceive] at h
    cases h
    exact chainFile_receiveTx hreceive

end

/-! ## The wallet -/

section

variable [SigningCrypto] {d d₀ d' : Directory}

/-- A wallet that can be read is the one that is used, and a new one can be read. -/
private theorem loadOrCreateWallet_kept {generated : Option Wallet} {file file' : Option Bytes}
    {w : Wallet} (h : loadOrCreateWallet generated file = some (w, file')) :
    loadWallet file' = some w ∧ ∀ own, loadWallet file = some own → own = w := by
  unfold loadOrCreateWallet at h
  split at h
  · next found hload =>
    obtain ⟨rfl, rfl⟩ := Prod.mk.inj (Option.some.inj h)
    exact ⟨hload, fun own hown ↦ Option.some.inj (hown.symm.trans hload)⟩
  · next hload =>
    obtain ⟨fresh, -, hfresh⟩ := Option.map_eq_some_iff.mp h
    obtain ⟨rfl, rfl⟩ := Prod.mk.inj hfresh
    refine ⟨loadWallet_eq_some_iff.mpr rfl, fun own hown ↦ ?_⟩
    rw [hload] at hown
    cases hown

/-- `run_send_tx` opens the wallet, and leaves the chain alone. -/
private theorem runSendTx_files {generated : Option Wallet}
    {walk : UtxoSet → List (COutPoint × CTxOut)} {before after : DataFiles} {recipient : Address}
    {amount : Int64} {stream : Bytes} {sent : List Message}
    (h : runSendTx generated walk before recipient amount stream = some (after, sent)) :
    (∃ w, loadOrCreateWallet generated before.walletFile = some (w, after.walletFile)) ∧
      after.chainFile = before.chainFile := by
  obtain ⟨⟨w, walletFile⟩, hwallet, hrest⟩ := Option.bind_eq_some_iff.mp h
  dsimp only at hrest
  have hafter : after = { before with walletFile } := by
    repeat' split at hrest
    all_goals
      cases hrest
      rfl
  subst hafter
  exact ⟨⟨w, hwallet⟩, rfl⟩

/-! ## One command -/

/-- The wallet was opened, and the chain file goes on. -/
private theorem kept_of_opened {generated : Option Wallet} {w : Wallet}
    (hopened : loadOrCreateWallet generated d.walletFile = some (w, d'.walletFile))
    (hfiles : d.files.Advances d'.files) : d'.Healthy ∧ d.Kept d' := by
  obtain ⟨hwallet, hown⟩ := loadOrCreateWallet_kept hopened
  exact ⟨⟨.inr ⟨w, hwallet⟩, hfiles.readable⟩, fun own hload ↦ hown own hload ▸ hwallet,
    hfiles.continues⟩

/-- The wallet was not touched. -/
private theorem kept_of_eq (h : d.Healthy) (hwallet : d'.walletFile = d.walletFile)
    (hfiles : d.files.Advances d'.files) : d'.Healthy ∧ d.Kept d' :=
  ⟨⟨hwallet ▸ h.wallet, hfiles.readable⟩, fun _ hload ↦ hwallet ▸ hload, hfiles.continues⟩

/-- Every command but a `--seed` of a chain that is there leaves healthy files healthy, and keeps
them. -/
theorem Executes.kept (h : d.Healthy) {invocation : Invocation}
    (hexec : Executes invocation d d') (hfits : d'.Fits)
    (hseed : ∀ path, invocation = .seed path → d.files.chainFile = none) :
    d'.Healthy ∧ d.Kept d' := by
  cases hexec with
  | @seed _ path fuel clock chain built =>
    have hnone := hseed path rfl
    refine kept_of_eq h rfl (.of_saved rfl ?_ (linked_of_accepted
      (validateFullChain_buildGenesisChain built)) fun own hown ↦ ?_)
    · exact @chainEncodable_loadOrCreateChain _ fuel clock none zeroAddress chain built
    · rw [loadedChain, hnone] at hown
      cases hown
  | listen opened mined => exact kept_of_opened opened (advances_runListener h.chain mined hfits)
  | connect stream synced =>
    exact kept_of_eq h rfl (advances_runConnector h.chain synced hfits)
  | address opened => exact kept_of_opened opened (.of_eq h.chain rfl)
  | balance opened => exact kept_of_opened opened (.of_eq h.chain rfl)
  | send stream paid =>
    obtain ⟨⟨w, hopened⟩, hchain⟩ := runSendTx_files paid
    exact kept_of_opened hopened (.of_eq h.chain hchain)
  | receiveTx stream received =>
    exact kept_of_eq h rfl (.of_eq h.chain (chainFile_runReceiveTx received))
  | @daemon _ port path peers mine fuel clock generated s last built run =>
    obtain ⟨hwallet, hchain, -⟩ := constructNode_eq_some_iff.mp built
    obtain ⟨hlinked, hown⟩ := linked_loadOrCreateChain h.chain hchain
    have hstored : (Node.start s.chain d.files.mempoolFile).Stored :=
      ⟨_, chainEncodable_loadOrCreateChain hchain, rfl, rfl⟩
    obtain ⟨⟨pending, hlast⟩, hprogress⟩ :=
      @Node.Stored.run _ _ ⟨_, .idle⟩ last hstored hlinked run
    refine kept_of_opened hwallet (.of_saved hlast.chainFile hlast.encodable hprogress.linked ?_)
    rintro found hfound
    obtain rfl := hown found hfound
    exact hprogress
  | demonstration => exact kept_of_eq h rfl (.of_eq h.chain rfl)

/-! ## Any commands -/

/-- Commands one after the other, none of them a `--seed` where there is a chain. -/
def Directory.Runs : Directory → Directory → Prop :=
  Relation.ReflTransGen fun d d' ↦ ∃ invocation, Executes invocation d d' ∧ d'.Fits ∧
    ∀ path, invocation = .seed path → d.files.chainFile = none

/-- Files that are missing, or that can be read, stay so under any commands: the key never changes
once there is one, and a chain is followed by chains of its genesis with no less work. -/
theorem directory_life (h : d₀.Healthy) (hrun : d₀.Runs d) : d.Healthy ∧ d₀.Kept d := by
  induction hrun with
  | refl => exact kept_of_eq h rfl (.of_eq h.chain rfl)
  | tail _ hstep ih =>
    obtain ⟨hhealthy, hkept⟩ := ih
    obtain ⟨invocation, hexec, hfits, hseed⟩ := hstep
    obtain ⟨hhealthy', hkept'⟩ := hexec.kept hhealthy hfits hseed
    refine ⟨hhealthy', fun w hw ↦ hkept'.wallet w (hkept.wallet w hw), fun chain hchain ↦ ?_⟩
    obtain ⟨mid, hmid, hprogress⟩ := hkept.chain chain hchain
    obtain ⟨last, hlast, hprogress'⟩ := hkept'.chain mid hmid
    exact ⟨last, hlast, hprogress.trans hprogress'⟩

end

/-! ## A directory with a pending payment -/

/-- The wallet's key, its first block and the payment. -/
def payerDirectory : Directory :=
  ⟨wholeFiles.walletFile, ⟨wholeFiles.chainFile, some (serializeMempool [paymentTx])⟩⟩

/-- The payment is in the second block. -/
def minedDirectory : Directory :=
  ⟨wholeFiles.walletFile, ⟨some (serializeChain payerChain), some (serializeMempool [])⟩⟩

private theorem loadedChain_payerDirectory :
    @loadedChain payerCrypto.toCrypto payerDirectory.files = some (.ok [payerGenesis]) := by
  have hload : @deserializeChain payerCrypto.toCrypto (serializeChain [payerGenesis]) =
      .ok [payerGenesis] := by decide +kernel
  exact congrArg some hload

private theorem executes_listen_payerDirectory :
    @Executes payerCrypto (.listen 8333 []) payerDirectory minedDirectory := by
  have hchain : @loadOrCreateChain payerCrypto.toCrypto 1 0 payerDirectory.files.chainFile
      payerAddress = some [payerGenesis] := by decide +kernel
  have hmempool : @loadMempoolOrEmpty payerCrypto.toCrypto payerDirectory.files.mempoolFile =
      [paymentTx] := by decide +kernel
  have hmined : @runListener payerCrypto.toCrypto 1 0 1700000020 payerDirectory.files
      payerAddress = some (paymentBlock, minedDirectory.files) := by
    unfold runListener
    rw [hchain, hmempool, Option.bind_eq_bind, Option.bind_some, mineOnto_paymentBlock]
    rfl
  exact @Executes.listen payerCrypto payerDirectory 8333 [] _ _ _ none payerWallet _ _ _
    (@loadOrCreateWallet_seckey payerCrypto none payerWallet) hmined

/-- Mining the payment keeps the key, and the chain makes progress. -/
theorem directory_life_payerDirectory :
    @Directory.Runs payerCrypto payerDirectory minedDirectory ∧
      @loadedChain payerCrypto.toCrypto minedDirectory.files = some (.ok payerChain) ∧
      @Directory.Healthy payerCrypto minedDirectory ∧
      @Directory.Kept payerCrypto payerDirectory minedDirectory := by
  have hload : @deserializeChain payerCrypto.toCrypto (serializeChain payerChain) =
      .ok payerChain := by decide +kernel
  have hhealthy : @Directory.Healthy payerCrypto payerDirectory :=
    @Directory.Healthy.mk payerCrypto _
      (.inr ⟨payerWallet, (@loadWallet_eq_some_iff payerCrypto _ _).mpr rfl⟩)
      (.inr ⟨_, loadedChain_payerDirectory, @linked_of_accepted payerCrypto.toCrypto _
        validateFullChain_payerGenesis⟩)
  have hfits : Directory.Fits minedDirectory := by
    intro bytes hbytes
    obtain rfl := Option.some.inj hbytes
    decide +kernel
  have haddress : @Executes payerCrypto (.address []) minedDirectory minedDirectory :=
    @Executes.address payerCrypto minedDirectory _ none _ _
      (@loadOrCreateWallet_seckey payerCrypto none payerWallet)
  have hruns : @Directory.Runs payerCrypto payerDirectory minedDirectory :=
    .tail (.single ⟨_, executes_listen_payerDirectory, hfits, by simp⟩)
      ⟨_, haddress, hfits, by simp⟩
  exact ⟨hruns, congrArg some hload, @directory_life payerCrypto _ _ hhealthy hruns⟩

end Siliqua.Network
