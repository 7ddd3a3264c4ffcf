import Siliqua.Base.Gossip
import Siliqua.Consensus.Work
import Siliqua.Ledger.ForkChoice
import Siliqua.Network.Origins
import Siliqua.Network.Quiet
import Siliqua.Network.SyncPaths

/-!
# Forks resolve

Where hashes tell blocks apart, a poll between accepted chains of one genesis takes the heavier of
the two: the fast path never does anything else. So whoever has heard of the heaviest chain, through
any number of polls, holds it.
-/

namespace Siliqua.Network

open ByteDecoder Siliqua.Core Siliqua.Consensus Siliqua.Storage Siliqua.Ledger Splits

universe u

section

variable [Crypto]

/-! ## Chains that end in one hash -/

/-- Hashes tell some blocks apart, and from no block. -/
structure ToldApart (blocks : Set CBlock) : Prop where
  injective : ∀ blk ∈ blocks, ∀ blk' ∈ blocks, blk.getHash = blk'.getHash → blk = blk'
  nonzero : ∀ blk ∈ blocks, blk.getHash ≠ Hash256.zero

/-- Every block points at the one before it. -/
def Links (chain : List CBlock) : Prop :=
  ∀ pre blk post, chain = pre ++ blk :: post → blk.hashPrevBlock = tipHash pre

/-- Linked chains from blocks that hashes tell apart are told apart by the hash they end in. -/
theorem ToldApart.eq_of_tipHash {blocks : Set CBlock} (h : ToldApart blocks)
    {chain chain' : List CBlock} (hmem : ∀ blk ∈ chain, blk ∈ blocks)
    (hmem' : ∀ blk ∈ chain', blk ∈ blocks) (hlinks : Links chain) (hlinks' : Links chain')
    (htip : tipHash chain = tipHash chain') : chain = chain' := by
  induction chain using List.reverseRecOn generalizing chain' with
  | nil =>
    cases chain' using List.reverseRecOn with
    | nil => rfl
    | append_singleton chain' blk' =>
      rw [tipHash_concat] at htip
      exact absurd htip.symm (h.nonzero blk' (hmem' blk' (by simp)))
  | append_singleton chain blk ih =>
    rw [tipHash_concat] at htip
    cases chain' using List.reverseRecOn with
    | nil => exact absurd htip (h.nonzero blk (hmem blk (by simp)))
    | append_singleton chain' blk' =>
      rw [tipHash_concat] at htip
      obtain rfl := h.injective blk (hmem blk (by simp)) blk' (hmem' blk' (by simp)) htip
      obtain ⟨hrest, hlast⟩ := forall_split_concat.mp hlinks
      obtain ⟨hrest', hlast'⟩ := forall_split_concat.mp hlinks'
      rw [ih (fun b hb ↦ hmem b (List.mem_append_left _ hb))
        (fun b hb ↦ hmem' b (List.mem_append_left _ hb)) hrest hrest' (hlast.symm.trans hlast')]

/-- Accepted chains are linked. -/
theorem links_of_accepted {chain : List CBlock} (h : validateFullChain chain = true) :
    Links chain :=
  fun pre blk post heq ↦ ((linked_of_accepted h).fits pre blk post heq).1.prev

/-! ## One poll -/

/-- A block that fits on one of two such chains and ends the other makes the one into the other, and
heavier. -/
theorem ToldApart.concat_of_fits {blocks : Set CBlock} (h : ToldApart blocks)
    {chain served : List CBlock} {tip : CBlock} (hmem : ∀ blk ∈ chain, blk ∈ blocks)
    (hmem' : ∀ blk ∈ served, blk ∈ blocks) (hlinks : Links chain) (hlinks' : Links served)
    (htip : served.getLast? = some tip) (hfits : HeaderFits chain tip) :
    served = chain ++ [tip] ∧ work chain < work served := by
  obtain ⟨before, rfl⟩ := List.getLast?_eq_some_iff.mp htip
  obtain ⟨hbefore, hprev⟩ := forall_split_concat.mp hlinks'
  have hsame : chain = before := h.eq_of_tipHash hmem
    (fun blk hblk ↦ hmem' blk (List.mem_append_left _ hblk)) hlinks hbefore
    (hfits.prev.symm.trans hprev)
  have hbits := mantissaOf_ne_zero_of_checkProofOfWork hfits.work
    (h.nonzero tip (hmem' tip (by simp)))
  exact ⟨by rw [hsame], hsame ▸ work_lt_concat before hbits⟩

/-- What is assumed of the chains that daemons hold: each is accepted and can be sent, all start
with one block, and hashes tell their blocks apart. -/
structure Settled {ι : Type u} (chains : ι → List CBlock) : Prop where
  accepted : ∀ i, validateFullChain (chains i) = true
  encodable : ∀ i, ChainEncodable (chains i)
  small : ∀ i, (serializeChain (chains i)).length ≤ MAX_PAYLOAD_SIZE
  genesis : ∀ i j, genesisHash (chains i) = genesisHash (chains j)
  apart : ToldApart {blk | ∃ i, blk ∈ chains i}

variable {ι : Type u}

/-- Chains that come from settled ones are settled. -/
theorem Settled.of_source {chains chains' : ι → List CBlock} (h : Settled chains)
    (hsource : ∀ i, ∃ j, chains' i = chains j) : Settled chains' := by
  choose source hsource using hsource
  refine ⟨fun i ↦ ?_, fun i ↦ ?_, fun i ↦ ?_, fun i j ↦ ?_, ?_, ?_⟩
  · rw [hsource]
    exact h.accepted _
  · rw [hsource]
    exact h.encodable _
  · rw [hsource]
    exact h.small _
  · rw [hsource, hsource]
    exact h.genesis _ _
  · rintro blk ⟨i, hi⟩ blk' ⟨i', hi'⟩
    rw [hsource] at hi hi'
    exact h.apart.injective blk ⟨_, hi⟩ blk' ⟨_, hi'⟩
  · rintro blk ⟨i, hi⟩
    rw [hsource] at hi
    exact h.apart.nonzero blk ⟨_, hi⟩

variable {c : Cluster ι}

/-- The chains of a cluster. -/
def Cluster.chains (c : Cluster ι) (i : ι) : List CBlock := (c.node i).chain

/-- A poll between settled chains takes the heavier one. -/
theorem Settled.chain_pulled (h : Settled c.chains) {i j : ι} {tip : CBlock}
    (htip : (c.chains j).getLast? = some tip) :
    ((c.node i).pulled (c.chains j) tip).chain =
      if work (c.chains i) < work (c.chains j) then c.chains j else c.chains i := by
  have hne := (validateFullChain_iff.mp (h.accepted i)).1
  unfold Node.pulled
  rcases Node.pollExtend_cases hne tip with ⟨hfits, heq⟩ | ⟨-, heq⟩
  · obtain ⟨hserved, hwork⟩ := @ToldApart.concat_of_fits _ _ h.apart (c.chains i) (c.chains j) tip
      (fun _ hblk ↦ ⟨i, hblk⟩) (fun _ hblk ↦ ⟨j, hblk⟩) (links_of_accepted (h.accepted i))
      (links_of_accepted (h.accepted j)) htip hfits.toHeaderFits
    rw [heq, if_pos hwork, hserved]
    rfl
  · have helig : eligible (c.chains i) (c.chains j) = true := by
      rw [eligible, h.accepted j, h.genesis j i, Bool.and_true, decide_eq_true_eq]
    have htry := tryReorg_eq hne (c.chains j)
    rw [helig] at htry
    simp only [true_and] at htry
    rw [heq]
    simp only [Bool.false_eq_true, if_false]
    by_cases hwork : work (c.chains i) < work (c.chains j)
    · rw [if_pos hwork] at htry ⊢
      simp only [Node.pollReorg, show (c.node i).chain = c.chains i from rfl, htry, if_true]
      rfl
    · rw [if_neg hwork] at htry ⊢
      simp only [Node.pollReorg, show (c.node i).chain = c.chains i from rfl, htry,
        Bool.false_eq_true, if_false]

/-! ## Any number of polls -/

section

variable [DecidableEq ι] {setup : Setup ι}

/-- One poll from the beginning to the end, whatever the daemon was doing. -/
theorem Settled.exists_pull (h : Settled c.chains) {e : ι × ι} (he : e.2 ∈ setup.knownPeers e.1) :
    ∃ c', Cluster.Run setup c c' ∧ c'.mined = c.mined ∧
      c'.chains = Gossip.pull work c.chains e := by
  obtain ⟨i, j⟩ := e
  have hne (k : ι) : c.chains k ≠ [] := (validateFullChain_iff.mp (h.accepted k)).1
  obtain ⟨tip, htip⟩ : ∃ tip, (c.chains j).getLast? = some tip :=
    ⟨_, List.getLast?_eq_some_getLast (hne j)⟩
  obtain ⟨before, hbefore⟩ := List.getLast?_eq_some_iff.mp htip
  have hmined := (linked_of_accepted (h.accepted j)).fits before tip [] hbefore
  let idle : Cluster ι := { c with poll := Function.update c.poll i none }
  have hrun := @exists_quiet_poll _ ι _ setup idle i j (Function.update_self _ _ _) tip htip he
    (hne i) hmined.1.merkle hmined.1.work (h.encodable j) (h.small j)
  refine ⟨_, .head (.drop i) hrun, rfl, ?_⟩
  have hpulled := @Settled.chain_pulled _ _ _ h i j tip htip
  funext k
  show (Function.update c.node i ((c.node i).pulled (c.chains j) tip) k).chain = _
  unfold Gossip.pull
  by_cases hk : k = i
  · subst hk
    rw [Function.update_self, Function.update_self, hpulled]
  · rw [Function.update_of_ne hk, Function.update_of_ne hk]
    rfl

/-- One poll after the other. -/
theorem Settled.exists_pulls (h : Settled c.chains) {es : List (ι × ι)}
    (hes : ∀ e ∈ es, e.2 ∈ setup.knownPeers e.1) :
    ∃ c', Cluster.Run setup c c' ∧ c'.mined = c.mined ∧
      c'.chains = Gossip.pulls work c.chains es := by
  induction es generalizing c with
  | nil => exact ⟨c, .refl, rfl, rfl⟩
  | cons e es ih =>
    obtain ⟨he, hes⟩ := List.forall_mem_cons.mp hes
    obtain ⟨c₁, hrun₁, hmined₁, hchains₁⟩ := h.exists_pull he
    have hsettled : Settled c₁.chains := by
      rw [hchains₁]
      exact h.of_source (Gossip.exists_pull_eq c.chains e)
    obtain ⟨c₂, hrun₂, hmined₂, hchains₂⟩ := ih hsettled hes
    exact ⟨c₂, hrun₁.trans hrun₂, hmined₂.trans hmined₁, by rw [hchains₂, hchains₁]; rfl⟩

/-- From any state with settled chains, one of which has more work than every other: any polls of
known peers can follow, one after the other, each taking the heavier of the two chains, and then
every daemon that has heard of the heaviest chain, through whatever daemons, holds it. And for any
number of daemons from which known peers lead to it there are such polls. -/
theorem forks_resolve (h : Settled c.chains) {best : ι}
    (hbest : ∀ k, c.chains k = c.chains best ∨ work (c.chains k) < work (c.chains best)) :
    (∀ es : List (ι × ι), (∀ e ∈ es, e.2 ∈ setup.knownPeers e.1) →
      ∃ c', Cluster.Run setup c c' ∧ c'.mined = c.mined ∧
        c'.chains = Gossip.pulls work c.chains es ∧
        ∀ i ∈ Gossip.heard {best} es, c'.chains i = c.chains best) ∧
    ∀ daemons : List ι,
      (∀ i ∈ daemons, Relation.ReflTransGen (fun i j ↦ j ∈ setup.knownPeers i) i best) →
      ∃ es : List (ι × ι), (∀ e ∈ es, e.2 ∈ setup.knownPeers e.1) ∧
        ∃ c', Cluster.Run setup c c' ∧ c'.mined = c.mined ∧
          c'.chains = Gossip.pulls work c.chains es ∧
          ∀ i ∈ daemons, c'.chains i = c.chains best := by
  have hpolls (es : List (ι × ι)) (hes : ∀ e ∈ es, e.2 ∈ setup.knownPeers e.1) :
      ∃ c', Cluster.Run setup c c' ∧ c'.mined = c.mined ∧
        c'.chains = Gossip.pulls work c.chains es ∧
        ∀ i ∈ Gossip.heard {best} es, c'.chains i = c.chains best := by
    obtain ⟨c', hrun, hmined, hchains⟩ := h.exists_pulls hes
    refine ⟨c', hrun, hmined, hchains, fun i hi ↦ ?_⟩
    rw [hchains]
    exact Gossip.pulls_eq_of_heard hbest hi
  refine ⟨hpolls, fun daemons hpaths ↦ ?_⟩
  obtain ⟨es, hes, hheard⟩ := Gossip.exists_schedule daemons hpaths
  obtain ⟨c', hrun, hmined, hchains, hsame⟩ := hpolls es hes
  exact ⟨es, hes, c', hrun, hmined, hchains, fun i hi ↦ hsame i (hheard i hi)⟩

end

end

/-! ## A follower that is behind -/

/-- The two blocks have different hashes, and neither has the hash of no block. -/
theorem toldApart_paidChain : @ToldApart keylessCrypto {blk | blk ∈ paidChain} := by
  have hdistinct : @CBlock.getHash keylessCrypto openGenesis ≠
      @CBlock.getHash keylessCrypto minedBlock := by decide +kernel
  have hzero : @CBlock.getHash keylessCrypto openGenesis ≠ Hash256.zero ∧
      @CBlock.getHash keylessCrypto minedBlock ≠ Hash256.zero := by decide +kernel
  have hmem (blk : CBlock) (h : blk ∈ {blk | blk ∈ paidChain}) :
      blk = openGenesis ∨ blk = minedBlock := by simpa [paidChain] using h
  refine @ToldApart.mk keylessCrypto _ (fun blk hblk blk' hblk' heq ↦ ?_) fun blk hblk ↦ ?_
  · rcases hmem blk hblk with rfl | rfl <;> rcases hmem blk' hblk' with rfl | rfl
    · rfl
    · exact absurd heq hdistinct
    · exact absurd heq.symm hdistinct
    · rfl
  · rcases hmem blk hblk with rfl | rfl
    · exact hzero.1
    · exact hzero.2

/-- After the miner's next block the chains are settled. -/
theorem settled_paidChain {c : Cluster Bool} (hminer : c.chains true = paidChain)
    (hfollower : c.chains false = [openGenesis]) : @Settled keylessCrypto Bool c.chains := by
  have hsub (i : Bool) : ∀ blk ∈ c.chains i, blk ∈ paidChain := by
    cases i with
    | false =>
      rw [hfollower]
      exact fun blk hblk ↦ List.mem_cons.mpr (Or.inl (List.mem_singleton.mp hblk))
    | true => rw [hminer]; exact fun _ h ↦ h
  have hgenesis (i : Bool) :
      @genesisHash keylessCrypto (c.chains i) = @genesisHash keylessCrypto [openGenesis] := by
    cases i with
    | false => rw [hfollower]
    | true => rw [hminer]; rfl
  refine @Settled.mk keylessCrypto _ _ (fun i ↦ ?_) (fun i ↦ ?_) (fun i ↦ ?_)
    (fun i j ↦ (hgenesis i).trans (hgenesis j).symm) ?_
  · cases i with
    | false => rw [hfollower]; exact validateFullChain_openGenesis
    | true => rw [hminer]; exact validateFullChain_paidChain
  · cases i with
    | false => rw [hfollower]; exact encodable_openGenesis
    | true => rw [hminer]; exact encodable_paidChain
  · cases i with
    | false => rw [hfollower]; decide +kernel
    | true => rw [hminer]; decide +kernel
  · refine @ToldApart.mk keylessCrypto _ ?_ ?_
    · rintro blk ⟨i, hi⟩ blk' ⟨i', hi'⟩
      exact @ToldApart.injective keylessCrypto _ toldApart_paidChain blk (hsub i blk hi) blk'
        (hsub i' blk' hi')
    · rintro blk ⟨i, hi⟩
      exact @ToldApart.nonzero keylessCrypto _ toldApart_paidChain blk (hsub i blk hi)

/-- The follower, one block behind the miner, catches up. -/
theorem forks_resolve_paidChain : ∃ c c' : Cluster Bool, c.chains false = [openGenesis] ∧
    @Cluster.Run keylessCrypto Bool _ pairSetup c c' ∧ c'.chains false = paidChain := by
  obtain ⟨node, hchain, -⟩ := step_pairCluster
  let c : Cluster Bool :=
    ⟨Function.update pairCluster.node true node, pairCluster.poll, [minedBlock]⟩
  have hminer : c.chains true = paidChain := by
    show (Function.update pairCluster.node true node true).chain = _
    rw [Function.update_self, hchain, paidChain]
  have hfollower : c.chains false = [openGenesis] := rfl
  have hbest (k : Bool) :
      c.chains k = c.chains true ∨ work (c.chains k) < work (c.chains true) := by
    cases k with
    | false => rw [hminer]; exact Or.inr heavier_paidChain
    | true => exact Or.inl rfl
  have hpath (i : Bool) (hi : i ∈ [false]) :
      Relation.ReflTransGen (fun i j ↦ j ∈ pairSetup.knownPeers i) i true := by
    obtain rfl := List.mem_singleton.mp hi
    exact .single (by decide)
  obtain ⟨-, -, c', hrun, -, -, hsame⟩ := (@forks_resolve keylessCrypto Bool c _ pairSetup
    (settled_paidChain hminer hfollower) true hbest).2 [false] hpath
  exact ⟨c, c', hfollower, hrun, (hsame false List.mem_cons_self).trans hminer⟩

end Siliqua.Network
