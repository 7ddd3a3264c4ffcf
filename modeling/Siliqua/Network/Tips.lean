import Siliqua.Network.Persistence

/-!
# The tip of a running node

The code takes `chain.back()` and `chain.front()` without asking whether the chain is empty. Chains
come in through the chain file, and its count of blocks decides: a count of zero loads as an empty
chain, and from every other start no step ever leaves the chain empty.
-/

namespace Siliqua.Network

open Relation ByteDecoder Siliqua.Core Siliqua.Storage Siliqua.Ledger

/-- `chain.back()` and `chain.front()` are defined, and there are headers to retarget from. -/
structure HasTip (chain : List CBlock) : Prop where
  back : ∃ tip, chain.getLast? = some tip
  front : ∃ front, chain.head? = some front
  headers : extractHeaders chain ≠ []

theorem hasTip_iff {chain : List CBlock} : HasTip chain ↔ chain ≠ [] := by
  constructor
  · rintro h rfl
    exact h.headers rfl
  · intro hne
    obtain ⟨block, rest, rfl⟩ := List.exists_cons_of_ne_nil hne
    exact ⟨⟨_, List.getLast?_eq_some_getLast (by simp)⟩, ⟨block, rfl⟩, by simp [extractHeaders]⟩

variable [Crypto]

/-- A loading step that completed: that of `Node::Node` and `run_listener`, and that of
`run_connector`. -/
inductive Loaded (file : Option Bytes) : List CBlock → Prop
  | create {chain : List CBlock} (fuel : Nat) (clock : UInt32) (address : Address)
      (loaded : loadOrCreateChain fuel clock file address = some chain) : Loaded file chain
  | connect {buffer : Bytes} {chain : List CBlock} (found : file = some buffer)
      (loaded : deserializeChain buffer = .ok chain) : Loaded file chain

/-- A chain after one mined block, or one call with any data of a peer. -/
inductive ChainStep : List CBlock → List CBlock → Prop
  | mine {chain : List CBlock} {blk : CBlock} (fuel : Nat) (clock : UInt32) (address : Address)
      (mempool : List Transaction) (mined : mineOnto fuel clock chain address mempool = some blk) :
      ChainStep chain (chain ++ [blk])
  | extend (chain : List CBlock) (receivedBlock : CBlock) :
      ChainStep chain (tryExtendChain chain receivedBlock).2
  | reorg (chain peerChain : List CBlock) : ChainStep chain (tryReorg chain peerChain).2

/-- Every chain that the file starts has a tip, in every sequence of calls and in every state of the
daemon that its constructor starts. -/
def AlwaysHasTip (file : Option Bytes) : Prop :=
  ∀ chain, Loaded file chain →
    (∀ chain', ReflTransGen ChainStep chain chain' → HasTip chain') ∧
    ∀ (address : Address) (mempoolFile : Option Bytes) (s : System),
      Reachable address ⟨Node.start chain mempoolFile, .idle⟩ s → HasTip s.node.chain

/-! ## Steps -/

/-- No call leaves a chain empty. -/
theorem ne_nil_of_chainStep {chain chain' : List CBlock} (h : ChainStep chain chain')
    (hne : chain ≠ []) : chain' ≠ [] := by
  cases h with
  | mine fuel clock address mempool mined => simp
  | extend receivedBlock =>
    rcases tryExtendChain_cases hne receivedBlock with ⟨-, heq⟩ | ⟨-, heq⟩
    · rw [heq]
      simp
    · rw [heq]
      exact hne
  | reorg peerChain =>
    rcases tryReorg_cases chain peerChain with ⟨heq, -, hacc, -⟩ | heq
    · rw [heq]
      exact (validateFullChain_iff.mp hacc).1
    · rw [heq]
      exact hne

/-- No sequence of calls leaves a chain empty. -/
theorem ne_nil_of_chainRun {chain chain' : List CBlock} (h : ReflTransGen ChainStep chain chain')
    (hne : chain ≠ []) : chain' ≠ [] := by
  induction h with
  | refl => exact hne
  | tail _ hstep ih => exact ne_nil_of_chainStep hstep ih

/-- No run of the daemon leaves its chain empty. -/
theorem ne_nil_of_reachable {address : Address} {s s' : System} (h : Reachable address s s')
    (hne : s.node.chain ≠ []) : s'.node.chain ≠ [] := by
  induction h with
  | refl => exact hne
  | tail _ hstep ih => exact chain_ne_nil_step hstep ih

/-! ## Loading -/

/-- A decoded chain has as many blocks as the file says. -/
theorem length_of_deserializeChain {buffer : Bytes} {chain : List CBlock}
    (h : deserializeChain buffer = .ok chain) :
    ∃ count next, readVarInt32 buffer 0 = .ok (count, next) ∧ chain.length = count.toNat := by
  cases hd : chainDecoder buffer 0 with
  | error e =>
    rw [deserializeChain, hd] at h
    cases h
  | ok p =>
    rw [deserializeChain, hd] at h
    obtain rfl : p.1 = chain := Except.ok.inj h
    obtain ⟨count, next, hcount, hmany⟩ := Decoder.bind_eq_ok_iff.mp hd
    exact ⟨count, next, hcount, Decoder.length_of_many_eq_ok hmany⟩

/-- A count of zero loads as an empty chain. -/
theorem deserializeChain_eq_nil_iff {buffer : Bytes} :
    deserializeChain buffer = .ok [] ↔ ∃ next, readVarInt32 buffer 0 = .ok (0, next) := by
  constructor
  · intro h
    obtain ⟨count, next, hcount, hlen⟩ := length_of_deserializeChain h
    obtain rfl : count = 0 := UInt32.toNat_inj.mp hlen.symm
    exact ⟨next, hcount⟩
  · rintro ⟨next, hcount⟩
    rw [deserializeChain, chainDecoder, Decoder.bind_of_ok hcount]
    rfl

/-- A loaded chain is empty only where the file decodes to an empty chain. -/
theorem Loaded.decoded_of_nil {file : Option Bytes} (h : Loaded file []) :
    ∃ buffer, file = some buffer ∧ deserializeChain buffer = .ok [] := by
  cases h with
  | create fuel clock address loaded =>
    have hfresh : buildGenesisChain fuel clock address ≠ some [] := by
      intro hnil
      obtain ⟨blk, -, hblk⟩ := Option.map_eq_some_iff.mp hnil
      cases hblk
    unfold loadOrCreateChain at loaded
    split at loaded
    · exact absurd loaded hfresh
    · next buffer =>
      split at loaded
      · next hdecoded =>
        rw [Option.some.inj loaded] at hdecoded
        exact ⟨buffer, rfl, hdecoded⟩
      · exact absurd loaded hfresh
  | connect found loaded => exact ⟨_, found, loaded⟩

/-- A node always has a tip exactly if its chain file, if there is one with a count, does not say
that there are no blocks. -/
theorem alwaysHasTip_iff (file : Option Bytes) :
    AlwaysHasTip file ↔
      ∀ buffer next, file = some buffer → readVarInt32 buffer 0 ≠ .ok (0, next) := by
  constructor
  · intro h buffer next hfile hzero
    have hloaded : Loaded file [] :=
      .connect hfile (deserializeChain_eq_nil_iff.mpr ⟨next, hzero⟩)
    exact hasTip_iff.mp ((h [] hloaded).1 [] .refl) rfl
  · intro h chain hloaded
    have hne : chain ≠ [] := by
      rintro rfl
      obtain ⟨buffer, hfile, hnil⟩ := hloaded.decoded_of_nil
      obtain ⟨next, hzero⟩ := deserializeChain_eq_nil_iff.mp hnil
      exact h buffer next hfile hzero
    exact ⟨fun chain' hrun ↦ hasTip_iff.mpr (ne_nil_of_chainRun hrun hne),
      fun address mempoolFile s hrun ↦ hasTip_iff.mpr (ne_nil_of_reachable hrun hne)⟩

omit [Crypto] in
/-- Four zero bytes are the file of a chain without blocks, and start a node without a tip. -/
theorem not_alwaysHasTip_zeroCount :
    serializeChain [] = [0, 0, 0, 0] ∧
      @loadOrCreateChain keylessCrypto 0 0 (some [0, 0, 0, 0]) zeroAddress = some [] ∧
      ¬ @AlwaysHasTip keylessCrypto (some [0, 0, 0, 0]) := by
  refine ⟨rfl, by decide, fun h ↦ ?_⟩
  have hloaded : @Loaded keylessCrypto (some [0, 0, 0, 0]) [] :=
    @Loaded.create keylessCrypto (some [0, 0, 0, 0]) [] 0 0 zeroAddress (by decide)
  exact hasTip_iff.mp ((h [] hloaded).1 [] .refl) rfl

end Siliqua.Network
