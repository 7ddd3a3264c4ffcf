import Mathlib.Algebra.Order.Field.Power
import Siliqua.Ledger.Mining
import Siliqua.Storage.RoundTrip

/-!
# A running node's chain

The chain of a node over any interleaving of mining, polling and accepting: it stays linked,
mined at the right difficulty and rooted in the same genesis, and its work never goes down.
-/

namespace Siliqua.Ledger

open Siliqua.Core Siliqua.Consensus Siliqua.Network Siliqua.Storage Splits

/-! ## Work -/

/-- A block never takes work away. -/
theorem calculateBlockWork_nonneg (nBits : UInt32) : 0 ≤ calculateBlockWork nBits := by
  unfold calculateBlockWork
  split
  · exact le_refl 0
  · exact div_nonneg (zpow_nonneg zero_le_two _) (Nat.cast_nonneg _)

/-- A block whose target is not zero adds work. -/
theorem calculateBlockWork_pos {nBits : UInt32} (h : mantissaOf nBits ≠ 0) :
    0 < calculateBlockWork nBits := by
  rw [calculateBlockWork, if_neg h]
  exact div_pos (zpow_pos zero_lt_two _) (Nat.cast_pos.mpr (Nat.pos_of_ne_zero h))

/-- Work of a chain, as a sum. -/
theorem calculateChainWork_eq_sum (headers : List CBlockHeader) :
    calculateChainWork headers = (headers.map fun h ↦ calculateBlockWork h.nBits).sum := by
  rw [calculateChainWork, List.sum_eq_foldl, List.foldl_map]

/-- Work of the blocks a chain consists of. -/
def work (chain : List CBlock) : ℚ := calculateChainWork (extractHeaders chain)

/-- Another block adds its own work. -/
theorem work_concat (chain : List CBlock) (blk : CBlock) :
    work (chain ++ [blk]) = work chain + calculateBlockWork blk.nBits := by
  rw [work, work, calculateChainWork_eq_sum, calculateChainWork_eq_sum, extractHeaders_concat,
    List.map_append, List.sum_append, List.map_singleton, List.sum_singleton]

/-- Another block does not lower the work. -/
theorem work_concat_le (chain : List CBlock) (blk : CBlock) :
    work chain ≤ work (chain ++ [blk]) := by
  rw [work_concat]
  exact le_add_of_nonneg_right (calculateBlockWork_nonneg blk.nBits)

/-- A block whose target is not zero makes the chain heavier. -/
theorem work_lt_concat (chain : List CBlock) {blk : CBlock} (h : mantissaOf blk.nBits ≠ 0) :
    work chain < work (chain ++ [blk]) := by
  rw [work_concat]
  exact lt_add_of_pos_right _ (calculateBlockWork_pos h)

section

variable [Crypto]

/-! ## Linked chains -/

/-- Every block fits the ones before it as far as headers go, and starts with a coinbase. -/
structure Linked (chain : List CBlock) : Prop where
  nonempty : chain ≠ []
  fits : ∀ pre blk post, chain = pre ++ blk :: post → HeaderFits pre blk ∧
    ∃ front rest, blk.vtx = front :: rest ∧ front.isCoinbase = true

/-- Accepted chains are linked. -/
theorem linked_of_accepted {chain : List CBlock} (h : validateFullChain chain = true) :
    Linked chain := by
  obtain ⟨hne, hall⟩ := validateFullChain_iff.mp h
  refine ⟨hne, fun pre blk post heq ↦ ?_⟩
  have hfits := hall pre blk post heq
  obtain ⟨front, rest, hv, hcb, -⟩ := hfits.coinbase
  exact ⟨hfits.toHeaderFits, front, rest, hv, hcb⟩

/-- One more fitting block keeps a chain linked. -/
theorem Linked.concat {chain : List CBlock} (h : Linked chain) {blk : CBlock}
    (hfits : HeaderFits chain blk) {front : Transaction} {rest : List Transaction}
    (hv : blk.vtx = front :: rest) (hcb : front.isCoinbase = true) : Linked (chain ++ [blk]) :=
  ⟨by simp, forall_split_concat.mpr ⟨h.fits, hfits, front, rest, hv, hcb⟩⟩

/-- Hash of the first block. -/
def genesisHash (chain : List CBlock) : Option Hash256 := chain.head?.map CBlock.getHash

theorem genesisHash_concat {chain : List CBlock} (hne : chain ≠ []) (blk : CBlock) :
    genesisHash (chain ++ [blk]) = genesisHash chain := by
  rw [genesisHash, List.head?_append_of_ne_nil _ hne, genesisHash]

/-! ## The three ways a chain changes -/

/-- Both outcomes of `try_reorg`. -/
theorem tryReorg_cases (chain peerChain : List CBlock) :
    (tryReorg chain peerChain = (true, peerChain) ∧ genesisHash peerChain = genesisHash chain ∧
        validateFullChain peerChain = true ∧ work chain < work peerChain) ∨
      tryReorg chain peerChain = (false, chain) := by
  cases peerChain with
  | nil => exact Or.inr rfl
  | cons p ps =>
    cases chain with
    | nil => exact Or.inr rfl
    | cons c cs =>
      unfold tryReorg
      dsimp only
      split
      · exact Or.inr rfl
      · next hok =>
        simp only [Bool.or_eq_true, Bool.not_eq_true', not_or, Bool.not_eq_false, beq_iff_eq] at hok
        split
        · next hwork => exact Or.inl ⟨rfl, by simp [genesisHash, hok.1], hok.2, hwork⟩
        · exact Or.inr rfl

/-- What a step does to the chain: nothing, one more fitting block, or a switch to a heavier
accepted chain with the same genesis. -/
theorem step_cases {address : Address} {s s' : System} (h : Step address s s')
    (hne : s.node.chain ≠ []) :
    s'.node.chain = s.node.chain ∨
      (∃ blk front rest, s'.node.chain = s.node.chain ++ [blk] ∧ HeaderFits s.node.chain blk ∧
        blk.vtx = front :: rest ∧ front.isCoinbase = true) ∨
      (genesisHash s'.node.chain = genesisHash s.node.chain ∧
        validateFullChain s'.node.chain = true ∧ work s.node.chain < work s'.node.chain) := by
  cases h with
  | mine fuel clock mined =>
    obtain ⟨blk, hmined, hchain, -⟩ := miningLoop_spec mined
    obtain ⟨-, hbuilt⟩ := mineOnto_spec hmined
    exact Or.inr (Or.inl ⟨blk, _, _, hchain, hbuilt.headerFits, hbuilt.vtx,
      isCoinbase_buildCoinbaseTx _ _ _⟩)
  | accept payload decoded => exact Or.inl (Node.chain_acceptTransaction _ _)
  | @pollExtend blk next payload phase decoded =>
    rcases tryExtendChain_cases hne blk with ⟨hfast, heq⟩ | ⟨-, heq⟩
    · obtain ⟨front, rest, hv, hcb, -⟩ := hfast.coinbase
      refine Or.inr (Or.inl ⟨blk, front, rest, ?_, hfast.toHeaderFits, hv, hcb⟩)
      simp [Node.pollExtend, heq, Node.saveChain]
    · refine Or.inl ?_
      simp [Node.pollExtend, heq]
  | @pollReorg peerChain payload phase decoded =>
    rcases tryReorg_cases s.node.chain peerChain with ⟨heq, hgen, hacc, hwork⟩ | heq
    · refine Or.inr (Or.inr ?_)
      simpa [Node.pollReorg, heq, Node.saveChain] using And.intro hgen ⟨hacc, hwork⟩
    · refine Or.inl ?_
      simp [Node.pollReorg, heq]
  | pollGiveUp phase => exact Or.inl rfl
  | mempoolWrite content => exact Or.inl rfl

/-! ## Runs -/

/-- What holds of a node's chain in every state, relative to the chain it started with. -/
structure ChainIntegrity (chain₀ chain : List CBlock) : Prop extends Linked chain where
  genesis : genesisHash chain = genesisHash chain₀

/-- One step keeps a chain's integrity and does not lower its work. -/
theorem integrity_step {address : Address} {chain₀ : List CBlock} {s s' : System}
    (h : ChainIntegrity chain₀ s.node.chain) (hstep : Step address s s') :
    ChainIntegrity chain₀ s'.node.chain ∧ work s.node.chain ≤ work s'.node.chain := by
  rcases step_cases hstep h.nonempty with heq | ⟨blk, front, rest, heq, hfits, hv, hcb⟩ |
    ⟨hgen, hacc, hwork⟩
  · rw [heq]
    exact ⟨h, le_refl _⟩
  · rw [heq]
    refine ⟨⟨h.toLinked.concat hfits hv hcb, ?_⟩, work_concat_le _ _⟩
    rw [genesisHash_concat h.nonempty]
    exact h.genesis
  · exact ⟨⟨linked_of_accepted hacc, hgen.trans h.genesis⟩, hwork.le⟩

/-- A run keeps a chain's integrity. -/
theorem integrity_run {address : Address} {s₀ s : System}
    (h₀ : validateFullChain s₀.node.chain = true) (hrun : Reachable address s₀ s) :
    ChainIntegrity s₀.node.chain s.node.chain := by
  induction hrun with
  | refl => exact ⟨linked_of_accepted h₀, rfl⟩
  | tail _ hstep ih => exact (integrity_step ih hstep).1

/-- From an accepted chain, in every reachable state: the chain is linked, mined at the required
difficulties and rooted in the same genesis; no step lowers its work, and every successful
reorganisation raises it. -/
theorem node_chain_integrity {address : Address} {s₀ s : System}
    (h₀ : validateFullChain s₀.node.chain = true) (hrun : Reachable address s₀ s) :
    ChainIntegrity s₀.node.chain s.node.chain ∧
      (∀ s', Step address s s' → work s.node.chain ≤ work s'.node.chain) ∧
      ∀ peerChain, (s.node.pollReorg peerChain).1 = true →
        work s.node.chain < work (s.node.pollReorg peerChain).2.chain := by
  have hint := integrity_run h₀ hrun
  refine ⟨hint, fun s' hstep ↦ (integrity_step hint hstep).2, fun peerChain hswitch ↦ ?_⟩
  rcases tryReorg_cases s.node.chain peerChain with ⟨heq, -, -, hwork⟩ | heq
  · simpa [Node.pollReorg, heq, Node.saveChain] using hwork
  · simp [Node.pollReorg, heq] at hswitch

end

/-- A node with `openGenesis` and two pending payments, before its first poll. -/
def pendingSystem : System where
  node := Node.start [openGenesis] (some (Storage.serializeMempool [payingSpendTx, followingTx]))
  poll := .idle

/-- That node mines both payments. -/
theorem miningLoop_pendingSystem :
    ∃ node, @Node.miningLoop keylessCrypto pendingSystem.node 1 1700000020 zeroAddress =
      some node ∧ node.chain = [openGenesis, minedBlock] := by
  have hencodable : @MempoolEncodable keylessCrypto [payingSpendTx, followingTx] :=
    ⟨by decide, by simp [encodable_payingSpendTx, encodable_followingTx]⟩
  have hpending : @loadMempoolOrEmpty keylessCrypto pendingSystem.node.files.mempoolFile =
      [payingSpendTx, followingTx] := by
    unfold pendingSystem loadMempoolOrEmpty
    dsimp only [Node.start]
    rw [@loadMempool_saved keylessCrypto _ hencodable]
  have hchain : pendingSystem.node.chain = [openGenesis] := rfl
  unfold Node.miningLoop
  rw [hchain, hpending, mineOnto_minedBlock]
  exact ⟨_, rfl, rfl⟩

/-- After one mining iteration of that node. -/
theorem node_chain_integrity_pendingSystem :
    ∃ s, @Reachable keylessCrypto zeroAddress pendingSystem s ∧ s.node.chain.length = 2 ∧
      @ChainIntegrity keylessCrypto [openGenesis] s.node.chain := by
  obtain ⟨node, hmined, hnode⟩ := miningLoop_pendingSystem
  have hstep := @Step.mine keylessCrypto zeroAddress pendingSystem node 1 1700000020 hmined
  have hrun := Relation.ReflTransGen.single hstep
  have hstart : pendingSystem.node.chain = [openGenesis] := rfl
  have hacc : @validateFullChain keylessCrypto pendingSystem.node.chain = true := by
    rw [hstart, validateFullChain_openGenesis]
  have hint := (@node_chain_integrity keylessCrypto _ _ _ hacc hrun).1
  refine ⟨_, hrun, ?_, hstart ▸ hint⟩
  rw [hnode]
  rfl

end Siliqua.Ledger
