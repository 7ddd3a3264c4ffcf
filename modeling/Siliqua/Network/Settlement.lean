import Siliqua.Network.Hub
import Siliqua.Network.Pending

/-!
# A payment in a cluster of one miner

What the miner has accepted is pending until it mines its next block, and that block decides it: the
block holds the payment, or a transaction that spends one of its inputs. No daemon ever has another
block in that place, so a decision stands.
-/

namespace Siliqua.Network

open ByteDecoder Siliqua.Core Siliqua.Consensus Siliqua.Storage Siliqua.Ledger

universe u

section

variable [Crypto] {ι : Type u} [DecidableEq ι]

/-- The pending transactions that the mempool file holds. -/
def Node.pending (node : Node) : List Transaction := loadMempoolOrEmpty node.files.mempoolFile

/-- A block holds the transaction, or one that spends one of its inputs. -/
def Decides (blk : CBlock) (tx : Transaction) : Prop :=
  ∃ t ∈ blk.vtx, ∃ p ∈ tx.prevouts, p ∈ t.prevouts

/-- A daemon accepts a transaction. -/
def Cluster.accept (c : Cluster ι) (i : ι) (tx : Transaction) : Cluster ι :=
  { c with node := Function.update c.node i ((c.node i).acceptTransaction tx) }

/-- Another process rewrites a daemon's mempool file. -/
def Cluster.rewrite (c : Cluster ι) (i : ι) (content : Option Bytes) : Cluster ι :=
  { c with
    node := Function.update c.node i
      { c.node i with files := { (c.node i).files with mempoolFile := content } } }

/-- A step that keeps the entries of the miner's mempool where another process rewrites it. -/
def Cluster.KeepingStep (setup : Setup ι) (miner : ι) (c c' : Cluster ι) : Prop :=
  Cluster.Step setup c c' ∧
    ∀ content, c' = c.rewrite miner content → (c.node miner).pending ⊆ (c'.node miner).pending

variable {setup : Setup ι} {P : List CBlock → Prop} {miner : ι} {c₀ c c' c'' : Cluster ι}
  {tx : Transaction}

/-! ## One step -/

omit [DecidableEq ι] in
/-- Accepting appends to the pending transactions or leaves them alone. -/
theorem Node.pending_acceptTransaction (node : Node) (henc : tx.Encodable) :
    (node.acceptTransaction tx).pending =
      if node.Takes tx then node.pending ++ [tx] else node.pending :=
  loadMempoolOrEmpty_acceptTransaction node henc

/-- The pending transactions of a daemon, where one node changes and loses none. -/
private theorem pending_subset_update {node : ι → Node} {i j : ι} {next : Node}
    (h : (node j).pending ⊆ next.pending) :
    (node i).pending ⊆ (Function.update node j next i).pending := by
  by_cases hi : i = j
  · subst hi
    rwa [Function.update_self]
  · rw [Function.update_of_ne hi]
    exact List.Subset.refl _

/-- A step keeps what is pending at a daemon, mines a block, or is another process at its mempool
file. -/
theorem Cluster.Step.pending (henc : ∀ chain, P chain → ChainEncodable chain) (hc : Carried P c)
    (h : Cluster.Step setup c c') (i : ι) :
    (c'.mined = c.mined ∧ ((c.node i).pending ⊆ (c'.node i).pending ∨
        ∃ content, c' = c.rewrite i content)) ∨
      ∃ j fuel clock blk, setup.mine j = true ∧
        mineOnto fuel clock (c.node j).chain (setup.address j) (c.node j).pending = some blk ∧
        c'.mined = c.mined ++ [blk] := by
  cases h with
  | mine j fuel clock on mined =>
    obtain ⟨blk, hblk, hchain, -⟩ := miningLoop_spec mined
    refine Or.inr ⟨j, fuel, clock, blk, on, hblk, ?_⟩
    rw [hchain, List.getLast?_concat, Option.toList_some]
  | accept j payload decoded =>
    refine Or.inl ⟨rfl, Or.inl (pending_subset_update ?_)⟩
    rw [Node.pending_acceptTransaction _ (Transaction.codec.canonical (Nat.zero_le _) decoded).1]
    split
    · exact List.subset_append_left _ _
    · exact List.Subset.refl _
  | mempoolWrite j content =>
    by_cases hj : i = j
    · subst hj
      exact Or.inl ⟨rfl, Or.inr ⟨content, rfl⟩⟩
    · refine Or.inl ⟨rfl, Or.inl ?_⟩
      show _ ⊆ (Function.update c.node j _ i).pending
      rw [Function.update_of_ne hj]
      exact List.Subset.refl _
  | connect j k idle known => exact Or.inl ⟨rfl, Or.inl (List.Subset.refl _)⟩
  | serve j opened received served =>
    obtain rfl := hc.serve opened received served
    exact Or.inl ⟨rfl, Or.inl (pending_subset_update (List.Subset.refl _))⟩
  | receive j opened received polled =>
    refine Or.inl ⟨rfl, Or.inl (pending_subset_update ?_)⟩
    obtain rfl | ⟨known, tip, -, -, rfl⟩ | ⟨peerChain, -, rfl⟩ :=
      hc.receive henc opened received polled
    · exact List.Subset.refl _
    · rw [Node.pending, Node.pending, mempoolFile_pollExtend]
      exact List.Subset.refl _
    · rw [Node.pending, Node.pending, mempoolFile_pollReorg]
      exact List.Subset.refl _
  | hangUp j opened => exact Or.inl ⟨rfl, Or.inl (List.Subset.refl _)⟩
  | drop j => exact Or.inl ⟨rfl, Or.inl (List.Subset.refl _)⟩
  | restart j fuel clock loaded =>
    exact Or.inl ⟨rfl, Or.inl (pending_subset_update (List.Subset.refl _))⟩

omit [DecidableEq ι] in
/-- A block that is mined while a valid transaction is pending decides it. -/
theorem decides_of_mineOnto {fuel : Nat} {clock : UInt32} {chain : List CBlock} {address : Address}
    {mempool : List Transaction} {blk : CBlock}
    (h : mineOnto fuel clock chain address mempool = some blk) (htx : tx ∈ mempool)
    (hfee : 0 ≤ validateAndGetFee tx (buildUtxoSet chain)) : Decides blk tx := by
  obtain ⟨p, hp, t, ht, hpt⟩ := exists_taken_of_valid htx hfee
  refine ⟨t, ?_, p, hp, hpt⟩
  rw [(mineOnto_spec h).2.vtx]
  exact List.mem_cons_of_mem _ ht

/-! ## A run -/

/-- The transaction is pending on a history, or the block that came next decided it. -/
def Awaited (history : List CBlock) (tx : Transaction) (c₀ : Cluster ι) (miner : ι)
    (c : Cluster ι) : Prop :=
  (c₀.history miner c = history ∧ tx ∈ (c.node miner).pending) ∨
    ∃ blk, (c₀.history miner c)[history.length]? = some blk ∧ Decides blk tx

/-- A step adds to the history. -/
private theorem history_grows (h : Cluster.Step setup c c') :
    c₀.history miner c <+: c₀.history miner c' :=
  (List.prefix_append_right_inj _).mpr h.mined_prefix

/-- So it is after a step. -/
theorem Awaited.step {history : List CBlock} (honly : ∀ i, setup.mine i = true → i = miner)
    (hs : Synced c₀ miner c) (hfee : 0 ≤ validateAndGetFee tx (buildUtxoSet history))
    (h : Awaited history tx c₀ miner c) (hstep : Cluster.KeepingStep setup miner c c') :
    Awaited history tx c₀ miner c' := by
  rcases h with ⟨hhistory, hpending⟩ | ⟨blk, hblk, hdecides⟩
  · rcases hstep.1.pending (fun _ hp ↦ hp.encodable) hs.carried miner with
        ⟨hmined, hkept⟩ | ⟨j, fuel, clock, blk, on, hmine, hmined⟩
    · refine Or.inl ⟨?_, ?_⟩
      · rw [← hhistory, Cluster.history, Cluster.history, hmined]
      · rcases hkept with hsubset | ⟨content, hrewrite⟩
        · exact hsubset hpending
        · exact hstep.2 content hrewrite hpending
    · obtain rfl := honly j on
      rw [hs.chain, hhistory] at hmine
      refine Or.inr ⟨blk, ?_, decides_of_mineOnto hmine hpending hfee⟩
      rw [Cluster.history, hmined, ← List.append_assoc]
      show (c₀.history j c ++ [blk])[history.length]? = some blk
      rw [hhistory, List.getElem?_concat_length]
  · exact Or.inr ⟨blk, ReplicatedLog.getElem?_of_prefix (history_grows hstep.1) hblk, hdecides⟩

/-- And after a run. -/
theorem Awaited.run {history : List CBlock} (honly : ∀ i, setup.mine i = true → i = miner)
    (hs : Synced c₀ miner c) (hfee : 0 ≤ validateAndGetFee tx (buildUtxoSet history))
    (h : Awaited history tx c₀ miner c)
    (hrun : Relation.ReflTransGen (Cluster.KeepingStep setup miner) c c')
    (hsound : Sound (c₀.history miner c')) :
    Synced c₀ miner c' ∧ Awaited history tx c₀ miner c' := by
  induction hrun with
  | refl => exact ⟨hs, h⟩
  | tail _ hstep ih =>
    obtain ⟨hs', h'⟩ := ih (hsound.of_prefix (history_grows hstep.1))
    exact ⟨hs'.step honly hsound hstep.1, h'.step honly hs' hfee hstep⟩

end

/-! ## A payment that is mined -/

end Siliqua.Network
