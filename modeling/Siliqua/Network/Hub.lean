import Siliqua.Base.ReplicatedLog
import Siliqua.Network.Origins

/-!
# One miner and its followers

`--no-mine` on every daemon but one. If all of them start on a part of the miner's chain, the
cluster is a replicated log: the miner appends to it, and a follower's chain is at all times a
prefix of it that only grows. No block that any of them has had is ever replaced.
-/

namespace Siliqua.Network

open ByteDecoder Siliqua.Core Siliqua.Consensus Siliqua.Storage Siliqua.Ledger

universe u

section

variable [Crypto]

/-! ## Hashes that tell blocks apart -/

/-- No two blocks of a chain have one hash, and none has the hash that stands for no block. -/
def HashesDistinct (chain : List CBlock) : Prop :=
  (Hash256.zero :: chain.map CBlock.getHash).Nodup

/-- So it is for what a chain starts with. -/
theorem HashesDistinct.of_prefix {chain chain' : List CBlock} (h : HashesDistinct chain')
    (hpre : chain <+: chain') : HashesDistinct chain := by
  obtain ⟨rest, rfl⟩ := hpre
  rw [HashesDistinct, List.map_append, ← List.cons_append] at h
  exact (List.nodup_append.mp h).1

/-- The hash a chain ends in, in the list of all of them. -/
private theorem getElem?_tipHash {chain history : List CBlock} (h : chain <+: history) :
    (Hash256.zero :: history.map CBlock.getHash)[chain.length]? = some (tipHash chain) := by
  obtain ⟨rest, rfl⟩ := h
  cases chain using List.reverseRecOn with
  | nil => rfl
  | append_singleton chain blk =>
    rw [tipHash_concat, List.length_append, List.length_singleton, List.getElem?_cons_succ,
      List.getElem?_map, List.append_assoc, List.getElem?_append_right (Nat.le_refl _),
      Nat.sub_self]
    rfl

/-- Two parts of one chain that end in one hash are the same. -/
theorem HashesDistinct.eq_of_tipHash {history chain chain' : List CBlock}
    (h : HashesDistinct history) (hpre : chain <+: history) (hpre' : chain' <+: history)
    (htip : tipHash chain = tipHash chain') : chain = chain' := by
  have hget := getElem?_tipHash hpre
  have hget' := getElem?_tipHash hpre'
  rw [← htip] at hget'
  have hlt := (List.getElem?_eq_some_iff.mp hget).1
  have hlen := (List.getElem?_inj hlt h).mp (hget.trans hget'.symm)
  obtain ⟨rest, rfl⟩ := hpre
  obtain ⟨rest', heq⟩ := hpre'
  exact (List.append_inj heq hlen.symm).1.symm

/-! ## Parts of a linked chain -/

omit [Crypto] in
/-- A part of a chain is no heavier. -/
theorem work_le_of_isPrefix {chain chain' : List CBlock} (h : chain <+: chain') :
    work chain ≤ work chain' := by
  obtain ⟨rest, rfl⟩ := h
  induction rest using List.reverseRecOn with
  | nil => rw [List.append_nil]
  | append_singleton rest blk ih =>
    rw [← List.append_assoc]
    exact ih.trans (work_concat_le _ _)

/-- A block of a linked chain that fits on a part of it is the next one. -/
theorem concat_prefix_of_fits {history chain known : List CBlock} {tip : CBlock}
    (hlinked : Linked history) (hdistinct : HashesDistinct history) (hchain : chain <+: history)
    (hknown : known <+: history) (hlast : known.getLast? = some tip)
    (hfits : HeaderFits chain tip) : known = chain ++ [tip] := by
  obtain ⟨before, rfl⟩ := List.getLast?_eq_some_iff.mp hlast
  obtain ⟨rest, hrest⟩ := hknown
  have hbefore : before <+: history := ⟨tip :: rest, by rw [← hrest, List.append_assoc]; rfl⟩
  have hprev := (hlinked.fits before tip rest (by rw [← hrest, List.append_assoc]; rfl)).1.prev
  rw [hdistinct.eq_of_tipHash hchain hbefore (hfits.prev.symm.trans hprev)]

/-! ## The invariant -/

section

variable {ι : Type u} [DecidableEq ι]

/-- Everything the miner has had and mined, in order. -/
def Cluster.history (c₀ : Cluster ι) (miner : ι) (c : Cluster ι) : List CBlock :=
  (c₀.node miner).chain ++ c.mined

/-- A chain that can be sent and is a part of the history. -/
structure PartOf (history chain : List CBlock) : Prop where
  encodable : ChainEncodable chain
  nonempty : chain ≠ []
  isPrefix : chain <+: history

/-- What is assumed of the history: hashes tell its blocks apart, and it fits its counts. -/
structure Sound (history : List CBlock) : Prop where
  distinct : HashesDistinct history
  fits : SizesFit history

/-- A cluster of one miner at the start: all are constructed, the followers from parts of the
miner's chain. -/
structure Cluster.HubStarted (setup : Setup ι) (miner : ι) (c₀ : Cluster ι) : Prop
    extends c₀.Started setup where
  fresh : c₀.mined = []
  part : ∀ i, (c₀.node i).chain <+: (c₀.node miner).chain
  linked : Linked (c₀.node miner).chain

/-- What holds of it in every state. -/
structure Synced (c₀ : Cluster ι) (miner : ι) (c : Cluster ι) : Prop where
  chain : (c.node miner).chain = c₀.history miner c
  linked : Linked (c₀.history miner c)
  carried : Carried (PartOf (c₀.history miner c)) c

variable {setup : Setup ι} {miner : ι} {c₀ c c' : Cluster ι}

/-- A sound history was sound before. -/
theorem Sound.of_prefix {history history' : List CBlock} (h : Sound history')
    (hpre : history <+: history') : Sound history :=
  ⟨h.distinct.of_prefix hpre, hpre.length_le.trans_lt h.fits.1,
    fun blk hblk ↦ h.fits.2 blk (hpre.subset hblk)⟩

/-- The log of mined blocks only grows. -/
theorem Cluster.Step.mined_prefix (h : Cluster.Step setup c c') : c.mined <+: c'.mined := by
  cases h <;> first | exact List.prefix_rfl | exact List.prefix_append _ _

omit [DecidableEq ι] in
/-- At the start. -/
theorem Cluster.HubStarted.synced (h : c₀.HubStarted setup miner) : Synced c₀ miner c₀ := by
  have hhistory : c₀.history miner c₀ = (c₀.node miner).chain := by
    rw [Cluster.history, h.fresh, List.append_nil]
  refine ⟨hhistory.symm, hhistory ▸ h.linked, ?_, ?_, ?_⟩
  · intro i
    obtain ⟨files, hfiles⟩ := h.constructed i
    obtain ⟨henc, hne, -⟩ := constructed_spec hfiles
    exact ⟨henc, hne, hhistory ▸ h.part i⟩
  · intro i
    obtain ⟨files, hfiles⟩ := h.constructed i
    exact (constructed_spec hfiles).2.2
  · intro i conn hconn
    rw [h.idle i] at hconn
    cases hconn

/-! ## One step -/

section

variable (honly : ∀ i, setup.mine i = true → i = miner) (hs : Synced c₀ miner c)
  (hsound : Sound (c₀.history miner c'))
include honly hs hsound

/-- What one step is in terms of the history: it stays, with one chain at most a longer part of it,
or the miner appends to it. -/
theorem Synced.moves (h : Cluster.Step setup c c') :
    (∃ i node, c'.node = Function.update c.node i node ∧ c'.mined = c.mined ∧
        PartOf (c₀.history miner c) node.chain ∧ (c.node i).chain <+: node.chain) ∨
      ∃ node blk, c'.node = Function.update c.node miner node ∧ c'.mined = c.mined ++ [blk] ∧
        node.chain = c₀.history miner c ++ [blk] ∧ blk.Encodable ∧
        HeaderFits (c₀.history miner c) blk ∧
        ∃ front rest, blk.vtx = front :: rest ∧ front.isCoinbase = true := by
  obtain ⟨i, node, hnode, -, hmoves⟩ := h.moves (fun _ hp ↦ hp.encodable) hs.carried
    fun _ hp ↦ hp.nonempty
  have hpart := hs.carried.known i
  have hsound₀ := hsound.of_prefix (List.prefix_append_right_inj _ |>.mpr h.mined_prefix)
  cases hmoves with
  | stays chain log =>
    exact Or.inl ⟨i, node, hnode, log, chain ▸ hpart, by rw [chain]⟩
  | mines blk fuel clock on block chain log =>
    obtain rfl := honly i on
    have hbuilt := (mineOnto_spec block).2
    rw [hs.chain] at chain block hbuilt
    have hmem : blk ∈ c₀.history i c' := by simp [Cluster.history, log]
    exact Or.inr ⟨node, blk, hnode, log, chain,
      encodable_of_mineOnto block (hsound.fits.2 blk hmem), hbuilt.headerFits, _, _, hbuilt.vtx,
      isCoinbase_buildCoinbaseTx _ _ _⟩
  | takes known tip holds last fits chain log =>
    have hnext := concat_prefix_of_fits hs.linked hsound₀.distinct hpart.isPrefix holds.isPrefix
      last fits.toHeaderFits
    rw [hnext] at holds
    rw [← chain] at holds
    exact Or.inl ⟨i, node, hnode, log, holds, chain ▸ List.prefix_append _ _⟩
  | switches holds genesis accepted heavier log =>
    refine Or.inl ⟨i, node, hnode, log, holds, ?_⟩
    rcases List.prefix_or_prefix_of_prefix hpart.isPrefix holds.isPrefix with hgrows | hshrinks
    · exact hgrows
    · exact absurd heavier (not_lt.mpr (work_le_of_isPrefix hshrinks))

/-- So it is again a history, and all chains are parts of it. -/
theorem Synced.step (h : Cluster.Step setup c c') : Synced c₀ miner c' := by
  have hnext {P' : List CBlock → Prop} :=
    @Carried.step _ _ setup (PartOf (c₀.history miner c)) P' c c' (fun _ hp ↦ hp.encodable)
      hs.carried _ (fun _ hp ↦ hp.nonempty) h
  rcases hs.moves honly hsound h with ⟨i, node, hnode, hmined, hpart, hgrows⟩ |
    ⟨node, blk, hnode, hmined, hchain, hblk, hfits, front, rest, hvtx, hcoinbase⟩
  · have hhistory : c₀.history miner c' = c₀.history miner c := by
      rw [Cluster.history, Cluster.history, hmined]
    refine ⟨?_, hhistory ▸ hs.linked, ?_⟩
    · rw [hhistory, hnode]
      by_cases hi : miner = i
      · subst hi
        rw [Function.update_self]
        rw [hs.chain] at hgrows
        exact hpart.isPrefix.eq_of_length_le hgrows.length_le
      · rw [Function.update_of_ne hi, hs.chain]
    · rw [hhistory]
      refine hnext (fun _ hp ↦ hp) fun j ↦ ?_
      rw [hnode]
      by_cases hj : j = i
      · subst hj
        rwa [Function.update_self]
      · rw [Function.update_of_ne hj]
        exact hs.carried.known j
  · have hhistory : c₀.history miner c' = c₀.history miner c ++ [blk] := by
      rw [Cluster.history, Cluster.history, hmined, List.append_assoc]
    refine ⟨?_, hhistory ▸ hs.linked.concat hfits hvtx hcoinbase, ?_⟩
    · rw [hhistory, hnode, Function.update_self, hchain]
    · have hlonger := List.prefix_append (c₀.history miner c) [blk]
      rw [hhistory] at hsound ⊢
      refine hnext (fun chain hp ↦ ⟨hp.encodable, hp.nonempty, hp.isPrefix.trans hlonger⟩)
        fun j ↦ ?_
      rw [hnode]
      by_cases hj : j = miner
      · subst hj
        rw [Function.update_self, hchain]
        have hminer := hs.carried.known j
        rw [hs.chain] at hminer
        exact ⟨encodable_concat hminer.encodable hblk hsound.fits.1, by simp, List.prefix_rfl⟩
      · rw [Function.update_of_ne hj]
        have hpart := hs.carried.known j
        exact ⟨hpart.encodable, hpart.nonempty, hpart.isPrefix.trans hlonger⟩

end

/-! ## The log behind it -/

/-- The miner's chain is the log, the daemons' chains are the replicas. -/
def Cluster.Shows (c : Cluster ι) (miner : ι) (r : ReplicatedLog ι CBlock) : Prop :=
  r.log = (c.node miner).chain ∧ r.view = fun i ↦ (c.node i).chain

/-- A step into a sound history. -/
def Cluster.SoundStep (setup : Setup ι) (miner : ι) (c₀ c c' : Cluster ι) : Prop :=
  Cluster.Step setup c c' ∧ Sound (c₀.history miner c')

/-- So it does in a run. -/
theorem Cluster.Run.mined_prefix (h : Cluster.Run setup c c') : c.mined <+: c'.mined := by
  induction h with
  | refl => exact List.prefix_rfl
  | tail _ hstep ih => exact ih.trans hstep.mined_prefix

/-- A run into a sound history went through sound ones. -/
theorem Cluster.Run.sound (h : Cluster.Run setup c c')
    (hsound : Sound (c₀.history miner c')) :
    Relation.ReflTransGen (Cluster.SoundStep setup miner c₀) c c' := by
  induction h with
  | refl => exact .refl
  | tail _ hstep ih =>
    have hpre := (List.prefix_append_right_inj (c₀.node miner).chain).mpr hstep.mined_prefix
    exact (ih (hsound.of_prefix hpre)).tail ⟨hstep, hsound⟩

/-- The cluster is a replicated log. -/
theorem hub_simulation (honly : ∀ i, setup.mine i = true → i = miner) :
    Simulation (Cluster.SoundStep setup miner c₀) ReplicatedLog.Step
      fun c r ↦ Synced c₀ miner c ∧ c.Shows miner r := by
  rintro c r c' ⟨hs, hlog, hview⟩ ⟨hstep, hsound⟩
  have hs' := hs.step honly hsound hstep
  rcases hs.moves honly hsound hstep with ⟨i, node, hnode, hmined, hpart, hgrows⟩ |
    ⟨node, blk, hnode, hmined, hchain, -⟩
  · have hknown : node.chain <+: r.log := by
      rw [hlog, hs.chain]
      exact hpart.isPrefix
    refine ⟨r.advance i node.chain hknown, ⟨hs', ?_, ?_⟩, .single (.advance r i _ hknown ?_)⟩
    · show r.log = _
      rw [hlog, hs.chain, hs'.chain, Cluster.history, Cluster.history, hmined]
    · show Function.update r.view i node.chain = _
      rw [hview, hnode]
      exact (Function.comp_update Node.chain c.node i node).symm
    · rw [hview]
      exact hgrows
  · have hknown : node.chain <+: (r.append blk).log := by
      show node.chain <+: r.log ++ [blk]
      rw [hchain, hlog, hs.chain]
    refine ⟨(r.append blk).advance miner node.chain hknown, ⟨hs', ?_, ?_⟩,
      .tail (.single (.append r blk)) (.advance _ miner _ hknown ?_)⟩
    · show r.log ++ [blk] = _
      rw [hnode, Function.update_self, hchain, hlog, hs.chain]
    · show Function.update r.view miner node.chain = _
      rw [hview, hnode]
      exact (Function.comp_update Node.chain c.node miner node).symm
    · show r.view miner <+: node.chain
      rw [hview, hchain, ← hs.chain]
      exact List.prefix_append _ _

/-- With one miner and followers that start on parts of its chain, in every run, whatever
connections break and daemons restart: the miner's chain is everything it has mined on top of what
it had, and the daemons' chains have gone through a run of the replicas of a log. -/
theorem hub_refines_log (honly : ∀ i, setup.mine i = true → i = miner)
    (hstart : c₀.HubStarted setup miner) (hrun : Cluster.Run setup c₀ c)
    (hsound : Sound ((c₀.node miner).chain ++ c.mined)) :
    (c.node miner).chain = (c₀.node miner).chain ++ c.mined ∧
      ∃ r₀ r : ReplicatedLog ι CBlock, c₀.Shows miner r₀ ∧ c.Shows miner r ∧
        ReplicatedLog.Run r₀ r := by
  have hshows : c₀.Shows miner ⟨_, fun i ↦ (c₀.node i).chain, hstart.part⟩ := ⟨rfl, rfl⟩
  obtain ⟨r, ⟨hs, hr⟩, hlog⟩ :=
    (hub_simulation honly).run ⟨hstart.synced, hshows⟩ (hrun.sound hsound)
  exact ⟨hs.chain, _, r, hshows, hr, hlog⟩

/-- What replicas two states of a run show. -/
theorem hub_views (honly : ∀ i, setup.mine i = true → i = miner)
    (hstart : c₀.HubStarted setup miner) (hrun : Cluster.Run setup c₀ c)
    (hrun' : Cluster.Run setup c c') (hsound : Sound (c₀.history miner c')) :
    ∃ r r' : ReplicatedLog ι CBlock, (∀ i, (c.node i).chain = r.view i) ∧
      (∀ i, (c'.node i).chain = r'.view i) ∧ ReplicatedLog.Run r r' := by
  have hsim := @hub_simulation _ _ _ setup miner c₀ honly
  have hshows : c₀.Shows miner ⟨_, fun i ↦ (c₀.node i).chain, hstart.part⟩ := ⟨rfl, rfl⟩
  have hsound₀ : Sound (c₀.history miner c) :=
    hsound.of_prefix ((List.prefix_append_right_inj _).mpr hrun'.mined_prefix)
  obtain ⟨r, hr, -⟩ := hsim.run ⟨hstart.synced, hshows⟩ (hrun.sound hsound₀)
  obtain ⟨r', hr', hlater⟩ := hsim.run hr (hrun'.sound hsound)
  exact ⟨r, r', fun i ↦ (congrFun hr.2.2 i).symm, fun i ↦ (congrFun hr'.2.2 i).symm, hlater⟩

/-- Of two followers one has a prefix of the other's chain; a daemon's chain only grows; and a block
that a daemon has at some height is the block at that height of every daemon that ever gets
there. -/
theorem hub_agreement (honly : ∀ i, setup.mine i = true → i = miner)
    (hstart : c₀.HubStarted setup miner) (hrun : Cluster.Run setup c₀ c)
    (hrun' : Cluster.Run setup c c') (hsound : Sound ((c₀.node miner).chain ++ c'.mined)) :
    (∀ i j, (c.node i).chain <+: (c.node j).chain ∨ (c.node j).chain <+: (c.node i).chain) ∧
      (∀ i, (c.node i).chain <+: (c'.node i).chain) ∧
      ∀ i j k blk, (c.node i).chain[k]? = some blk → k < (c'.node j).chain.length →
        (c'.node j).chain[k]? = some blk := by
  obtain ⟨r, r', hview, hview', hlater⟩ := hub_views honly hstart hrun hrun' hsound
  simp only [hview, hview']
  exact ⟨r.view_prefix_or_prefix, (ReplicatedLog.Run.grows hlater).2,
    fun i j k blk ↦ ReplicatedLog.Run.getElem?_view hlater⟩

end

end

/-! ## A miner and its follower -/

theorem hubStarted_pairCluster :
    @Cluster.HubStarted keylessCrypto Bool pairSetup true pairCluster :=
  @Cluster.HubStarted.mk keylessCrypto _ _ _ _ started_pairCluster rfl (fun _ ↦ List.prefix_rfl)
    (@linked_of_accepted keylessCrypto _ validateFullChain_openGenesis)

theorem sound_minedBlock : @Sound keylessCrypto [openGenesis, minedBlock] :=
  @Sound.mk keylessCrypto _ (show List.Nodup _ by decide +kernel) ⟨by decide, by decide⟩

/-- The miner has mined a block, and the log has grown by it. -/
theorem hub_refines_log_pairCluster : ∃ c, c.mined = [minedBlock] ∧
    @Cluster.Run keylessCrypto Bool _ pairSetup pairCluster c ∧
    ∃ r₀ r : ReplicatedLog Bool CBlock, pairCluster.Shows true r₀ ∧ c.Shows true r ∧
      ReplicatedLog.Run r₀ r := by
  obtain ⟨node, -, hmines⟩ := step_pairCluster
  have hrun : @Cluster.Run keylessCrypto Bool _ pairSetup pairCluster _ := .single hmines
  exact ⟨_, rfl, hrun, (@hub_refines_log keylessCrypto Bool _ pairSetup true pairCluster _
    (fun _ h ↦ h) hubStarted_pairCluster hrun sound_minedBlock).2⟩

/-- The follower, still on the genesis block, agrees with the miner before and behind. -/
theorem hub_agreement_pairCluster : ∃ c, c.mined = [minedBlock] ∧
    @Cluster.Run keylessCrypto Bool _ pairSetup pairCluster c ∧
    ∀ i, (pairCluster.node i).chain <+: (c.node i).chain := by
  obtain ⟨node, -, hmines⟩ := step_pairCluster
  have hrun : @Cluster.Run keylessCrypto Bool _ pairSetup pairCluster _ := .single hmines
  exact ⟨_, rfl, hrun, (@hub_agreement keylessCrypto Bool _ pairSetup true pairCluster pairCluster _
    (fun _ h ↦ h) hubStarted_pairCluster .refl hrun sound_minedBlock).2.1⟩

end Siliqua.Network
