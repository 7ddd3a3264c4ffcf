import Siliqua.Ledger.Transfer
import Siliqua.Network.Persistence

/-!
# What starting a node leaves on disk

`load_or_create_wallet`, `load_or_create_chain` and the constructor of `network::Node`. A file that
does not load is treated like one that is missing: it is replaced.
-/

namespace Siliqua.Network

open Siliqua.Core Siliqua.Storage Siliqua.Wallet Siliqua.Ledger

/-- The wallet file and the chain file; `none` where the file does not exist. -/
structure DataFiles where
  walletFile : Option Bytes
  chainFile : Option Bytes

section

variable [SigningCrypto]

/-- The `try` block of `load_or_create_wallet`, `none` where it throws; `node.h:320–324`. -/
def loadWallet (file : Option Bytes) : Option Wallet :=
  match file with
  | none => none
  | some buffer =>
    if h : buffer.length = 32 then (Wallet.fromSeckey ⟨buffer, h⟩).toOption else none

/-- The wallet and the wallet file after the call, for what the constructor `Wallet()` returns where
it is reached; `node.h:318–333`. -/
def loadOrCreateWallet (generated : Option Wallet) (file : Option Bytes) :
    Option (Wallet × Option Bytes) :=
  match loadWallet file with
  | some w => some (w, file)
  | none => generated.map fun w ↦ (w, some w.seckey.toList)

/-- A constructed node: its wallet, its chain and the files. -/
structure Startup where
  wallet : Wallet
  chain : List CBlock
  files : DataFiles

/-- `Node::Node`; `daemon.h:37–42`. `none` where it throws, or mines for longer than the fuel
lasts. -/
def constructNode (fuel : Nat) (clock : UInt32) (generated : Option Wallet) (files : DataFiles) :
    Option Startup := do
  let (wallet, walletFile) ← loadOrCreateWallet generated files.walletFile
  let chain ← loadOrCreateChain fuel clock files.chainFile wallet.address
  pure ⟨wallet, chain, ⟨walletFile, some (serializeChain chain)⟩⟩

/-- An existing wallet file is left alone, an existing chain file is left alone or written anew from
its own chain. -/
structure FilesKept (before after : DataFiles) : Prop where
  wallet : ∀ bytes, before.walletFile = some bytes → after.walletFile = some bytes
  chain : ∀ bytes, before.chainFile = some bytes → after.chainFile = some bytes ∨
    ∃ chain, deserializeChain bytes = .ok chain ∧ after.chainFile = some (serializeChain chain)

/-- The node is fresh only where a file was missing: it has the key and the chain it found. -/
structure NothingFresh (before : DataFiles) (s : Startup) : Prop where
  wallet : ∀ bytes, before.walletFile = some bytes → s.wallet.seckey.toList = bytes
  chain : ∀ bytes, before.chainFile = some bytes → deserializeChain bytes = .ok s.chain

/-- A wallet file that exists is 32 bytes that `FromSeckey` takes, and a chain file that exists
decodes. -/
structure Intact (files : DataFiles) : Prop where
  wallet : ∀ bytes, files.walletFile = some bytes →
    ∃ (h : bytes.length = 32) (w : Wallet), Wallet.fromSeckey ⟨bytes, h⟩ = .ok w
  chain : ∀ bytes, files.chainFile = some bytes → ∃ chain, deserializeChain bytes = .ok chain

/-! ## The two loaders -/

/-- A wallet file loads to the wallet whose secret key it holds. -/
theorem loadWallet_eq_some_iff {bytes : Bytes} {w : Wallet} :
    loadWallet (some bytes) = some w ↔ w.seckey.toList = bytes := by
  unfold loadWallet
  dsimp only
  constructor
  · intro h
    split at h
    · next hlen =>
      cases hw : Wallet.fromSeckey ⟨bytes, hlen⟩ with
      | error e => simp [hw, Except.toOption] at h
      | ok found =>
        rw [hw] at h
        obtain rfl : found = w := Option.some.inj h
        exact congrArg List.Vector.toList (Wallet.fromSeckey_eq_ok_iff.mp hw)
    · cases h
  · rintro rfl
    rw [dif_pos w.seckey.toList_length]
    have hw : Wallet.fromSeckey w.seckey = .ok w := Wallet.fromSeckey_eq_ok_iff.mpr rfl
    exact congrArg Except.toOption hw

theorem exists_loadWallet_iff {bytes : Bytes} :
    (∃ w, loadWallet (some bytes) = some w) ↔
      ∃ (h : bytes.length = 32) (w : Wallet), Wallet.fromSeckey ⟨bytes, h⟩ = .ok w := by
  simp only [loadWallet_eq_some_iff]
  constructor
  · rintro ⟨w, rfl⟩
    exact ⟨w.seckey.toList_length, w, Wallet.fromSeckey_eq_ok_iff.mpr rfl⟩
  · rintro ⟨h, w, hw⟩
    exact ⟨w, congrArg List.Vector.toList (Wallet.fromSeckey_eq_ok_iff.mp hw)⟩

/-- An existing wallet file is kept exactly if it loads; else it holds the new key. -/
theorem loadOrCreateWallet_cases {generated : Option Wallet} {bytes : Bytes} {w : Wallet}
    {file : Option Bytes} (h : loadOrCreateWallet generated (some bytes) = some (w, file)) :
    (loadWallet (some bytes) = some w ∧ file = some bytes) ∨
      (loadWallet (some bytes) = none ∧ file = some w.seckey.toList) := by
  unfold loadOrCreateWallet at h
  split at h
  · next found hload =>
    obtain ⟨rfl, rfl⟩ := Prod.mk.inj (Option.some.inj h)
    exact .inl ⟨hload, rfl⟩
  · next hload =>
    obtain ⟨fresh, -, hfresh⟩ := Option.map_eq_some_iff.mp h
    obtain ⟨rfl, rfl⟩ := Prod.mk.inj hfresh
    exact .inr ⟨hload, rfl⟩

/-- A saved key is the wallet. -/
theorem loadOrCreateWallet_seckey (generated : Option Wallet) (w : Wallet) :
    loadOrCreateWallet generated (some w.seckey.toList) = some (w, some w.seckey.toList) := by
  rw [loadOrCreateWallet, loadWallet_eq_some_iff.mpr rfl]

/-- What a constructed node has loaded or created. -/
theorem constructNode_eq_some_iff {fuel : Nat} {clock : UInt32} {generated : Option Wallet}
    {before : DataFiles} {s : Startup} :
    constructNode fuel clock generated before = some s ↔
      loadOrCreateWallet generated before.walletFile = some (s.wallet, s.files.walletFile) ∧
        loadOrCreateChain fuel clock before.chainFile s.wallet.address = some s.chain ∧
        s.files.chainFile = some (serializeChain s.chain) := by
  constructor
  · intro h
    unfold constructNode at h
    rw [Option.bind_eq_bind, Option.bind_eq_some_iff] at h
    obtain ⟨⟨wallet, walletFile⟩, hwallet, h⟩ := h
    rw [Option.bind_eq_bind, Option.bind_eq_some_iff] at h
    obtain ⟨chain, hchain, h⟩ := h
    cases h
    exact ⟨hwallet, hchain, rfl⟩
  · obtain ⟨wallet, chain, walletFile, chainFile⟩ := s
    rintro ⟨hwallet, hchain, hfile⟩
    dsimp only at hwallet hchain hfile
    simp [constructNode, hwallet, hchain, hfile]

section

variable {fuel : Nat} {clock : UInt32} {generated : Option Wallet} {before : DataFiles}
  {s : Startup}

/-- Kept files are files that load: a new key and a new chain are encoded as what they load to. -/
theorem intact_of_filesKept (h : constructNode fuel clock generated before = some s)
    (hkept : FilesKept before s.files) : Intact before := by
  obtain ⟨hwallet, hchain, hfile⟩ := constructNode_eq_some_iff.mp h
  refine ⟨fun bytes hbytes ↦ exists_loadWallet_iff.mp ?_, fun bytes hbytes ↦ ?_⟩
  · have hsame := hkept.wallet bytes hbytes
    rw [hbytes] at hwallet
    rcases loadOrCreateWallet_cases hwallet with ⟨hload, -⟩ | ⟨-, hnew⟩
    · exact ⟨s.wallet, hload⟩
    · rw [hsame] at hnew
      exact ⟨s.wallet, loadWallet_eq_some_iff.mpr (Option.some.inj hnew).symm⟩
  · rcases hkept.chain bytes hbytes with hsame | ⟨chain, hdecoded, -⟩
    · rw [hfile] at hsame
      rw [← Option.some.inj hsame]
      exact ⟨s.chain, deserializeChain_saved (chainEncodable_loadOrCreateChain hchain)⟩
    · exact ⟨chain, hdecoded⟩

/-- Files that load are what the node starts from. -/
theorem nothingFresh_of_intact (h : constructNode fuel clock generated before = some s)
    (hintact : Intact before) : NothingFresh before s := by
  obtain ⟨hwallet, hchain, -⟩ := constructNode_eq_some_iff.mp h
  refine ⟨fun bytes hbytes ↦ ?_, fun bytes hbytes ↦ ?_⟩
  · rw [hbytes] at hwallet
    obtain ⟨w, hw⟩ := exists_loadWallet_iff.mpr (hintact.wallet bytes hbytes)
    rcases loadOrCreateWallet_cases hwallet with ⟨hload, -⟩ | ⟨hload, -⟩
    · exact loadWallet_eq_some_iff.mp hload
    · rw [hw] at hload
      cases hload
  · obtain ⟨chain, hdecoded⟩ := hintact.chain bytes hbytes
    rw [hbytes] at hchain
    simp only [loadOrCreateChain, hdecoded, Option.some.injEq] at hchain
    rw [hdecoded, hchain]

/-- A node that found its key and its chain has kept the files. -/
theorem NothingFresh.filesKept (h : constructNode fuel clock generated before = some s)
    (hfound : NothingFresh before s) : FilesKept before s.files := by
  obtain ⟨hwallet, -, hfile⟩ := constructNode_eq_some_iff.mp h
  refine ⟨fun bytes hbytes ↦ ?_, fun bytes hbytes ↦
    .inr ⟨s.chain, hfound.chain bytes hbytes, hfile⟩⟩
  have hload := loadWallet_eq_some_iff.mpr (hfound.wallet bytes hbytes)
  rw [hbytes] at hwallet
  rcases loadOrCreateWallet_cases hwallet with ⟨-, hsame⟩ | ⟨hnone, -⟩
  · exact hsame
  · rw [hload] at hnone
    cases hnone

/-- Starting a node destroys nothing exactly if what is there loads, and then nothing but what was
missing is fresh. -/
theorem filesKept_iff_intact (h : constructNode fuel clock generated before = some s) :
    (FilesKept before s.files ↔ Intact before) ∧ (Intact before → NothingFresh before s) :=
  ⟨⟨intact_of_filesKept h, fun hintact ↦ (nothingFresh_of_intact h hintact).filesKept h⟩,
    nothingFresh_of_intact h⟩

end

end

/-! ## Whole and damaged files -/

/-- The files of a wallet with the secret key one and its genesis chain. -/
def wholeFiles : DataFiles where
  walletFile := some (Hash256.ofBigEndian 1).toList
  chainFile := some (serializeChain [payerGenesis])

/-- The wallet file lost its last byte, the chain file all of them. -/
def damagedFiles : DataFiles where
  walletFile := some (List.replicate 31 0)
  chainFile := some []

/-- The wallet of the secret key one on its genesis chain. -/
private def payerStartup : @Startup payerCrypto :=
  @Startup.mk payerCrypto payerWallet [payerGenesis] wholeFiles

/-- A restart keeps both files. -/
theorem filesKept_wholeFiles :
    ∃ s, @constructNode payerCrypto 0 0 none wholeFiles = some s ∧
      @FilesKept payerCrypto wholeFiles (@Startup.files payerCrypto s) := by
  have hstart : @constructNode payerCrypto 0 0 none wholeFiles = some payerStartup :=
    (@constructNode_eq_some_iff payerCrypto _ _ _ _ _).mpr
      ⟨@loadOrCreateWallet_seckey payerCrypto none payerWallet, by decide +kernel, rfl⟩
  refine ⟨payerStartup, hstart,
    (@filesKept_iff_intact payerCrypto _ _ _ _ _ hstart).1.mpr
      (@Intact.mk payerCrypto _ (fun bytes hbytes ↦ ?_) (fun bytes hbytes ↦ ?_))⟩
  · obtain rfl := Option.some.inj hbytes
    exact ⟨rfl, payerWallet, (@Wallet.fromSeckey_eq_ok_iff payerCrypto _ _).mpr rfl⟩
  · obtain rfl := Option.some.inj hbytes
    exact ⟨[payerGenesis], by decide +kernel⟩

/-- Both damaged files are overwritten. -/
theorem not_filesKept_damagedFiles :
    ∃ s, @constructNode payerCrypto 1 1700000000 (some payerWallet) damagedFiles = some s ∧
      ¬ @FilesKept payerCrypto damagedFiles (@Startup.files payerCrypto s) := by
  refine ⟨payerStartup, (@constructNode_eq_some_iff payerCrypto _ _ _ _ _).mpr
    ⟨rfl, by decide +kernel, rfl⟩, fun hkept ↦ ?_⟩
  have hsame := Option.some.inj (@FilesKept.wallet payerCrypto _ _ hkept _ rfl)
  exact absurd (congrArg List.length hsame) (by decide)

end Siliqua.Network
