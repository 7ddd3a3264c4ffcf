import Siliqua.Crypto.Picosha2
import Siliqua.Ledger.Sources

/-!
# The fast path against full validation

`try_extend_chain` checks every transaction of a block against the set before the block,
`validate_full_chain` against the set the transactions before it leave. They part on blocks in
which two transactions spend one output.
-/

namespace Siliqua.Ledger

open Siliqua.Core Siliqua.Consensus Siliqua.Network KeyedStore Journal Splits

section

variable [Crypto]

/-! ## What the fast path checks -/

/-- All checks `try_extend_chain` makes. -/
structure FastFits (chain : List CBlock) (blk : CBlock) : Prop extends HeaderFits chain blk where
  fees : ∀ tx ∈ blk.vtx, tx.isCoinbase = false → 0 ≤ validateAndGetFee tx (buildUtxoSet chain)
  coinbase : ∃ front rest, blk.vtx = front :: rest ∧ front.isCoinbase = true ∧
    outputTotal front.vout = calculateBlockReward (UInt32.ofNat chain.length) +
      (blk.vtx.map (feeOf (buildUtxoSet chain))).sum

/-- One turn of the fee loop. -/
theorem addFee_eq_some_iff {m : UtxoSet} {tx : Transaction} {fees r : Int64} :
    addFee m fees tx = some r ↔
      (tx.isCoinbase = false → 0 ≤ validateAndGetFee tx m) ∧ r = fees + feeOf m tx := by
  unfold addFee feeOf
  cases hc : tx.isCoinbase with
  | true => simp [eq_comm]
  | false =>
    by_cases hf : validateAndGetFee tx m < 0
    · have hnot : ¬ 0 ≤ validateAndGetFee tx m := Int64.not_le.mpr hf
      simp [hf, hnot]
    · have hge : 0 ≤ validateAndGetFee tx m := Int64.not_lt.mp hf
      simp [hf, hge, eq_comm]

/-- The fee loop against a set that does not change. -/
theorem foldlM_addFee {m : UtxoSet} {txs : List Transaction} {fees r : Int64} :
    txs.foldlM (addFee m) fees = some r ↔
      (∀ tx ∈ txs, tx.isCoinbase = false → 0 ≤ validateAndGetFee tx m) ∧
        r = fees + (txs.map (feeOf m)).sum := by
  induction txs generalizing fees with
  | nil =>
    rw [List.foldlM_nil, List.map_nil, List.sum_nil, Int64.add_zero]
    exact ⟨fun h ↦ ⟨by simp, (Option.some.inj h).symm⟩, fun h ↦ congrArg some h.2.symm⟩
  | cons tx rest ih =>
    rw [List.foldlM_cons, Option.bind_eq_bind, Option.bind_eq_some_iff, List.forall_mem_cons,
      List.map_cons, List.sum_cons, ← Int64.add_assoc]
    constructor
    · rintro ⟨mid, hone, hrest⟩
      obtain ⟨hfee, rfl⟩ := addFee_eq_some_iff.mp hone
      obtain ⟨hfees, hr⟩ := ih.mp hrest
      exact ⟨⟨hfee, hfees⟩, hr⟩
    · rintro ⟨⟨hfee, hfees⟩, hr⟩
      exact ⟨_, addFee_eq_some_iff.mpr ⟨hfee, rfl⟩, ih.mpr ⟨hfees, hr⟩⟩

omit [Crypto] in
private theorem ite_refused_eq_iff {p : Prop} [Decidable p] {c c' : List CBlock}
    {r : Bool × List CBlock} :
    (if p then (false, c) else r) = (true, c') ↔ ¬ p ∧ r = (true, c') := by
  split <;> simp [*]

/-- `try_extend_chain` appends the block, or refuses it and leaves the chain. -/
private theorem tryExtendChain_or (chain : List CBlock) (blk : CBlock) :
    tryExtendChain chain blk = (true, chain ++ [blk]) ∨
      tryExtendChain chain blk = (false, chain) := by
  unfold tryExtendChain
  split
  · dsimp only
    repeat' split
    all_goals simp
  · simp

private theorem tryExtendChain_eq_true_iff {chain : List CBlock} (hne : chain ≠ [])
    {blk : CBlock} :
    tryExtendChain chain blk = (true, chain ++ [blk]) ↔ FastFits chain blk := by
  obtain ⟨tip, htip⟩ : ∃ tip, chain.getLast? = some tip :=
    ⟨_, List.getLast?_eq_some_getLast hne⟩
  have hhash := tipHash_eq htip
  have hexp : expectedBits (extractHeaders chain) =
      getNextWorkRequired (extractHeaders chain) RETARGET_INTERVAL TARGET_TIMESPAN_SECONDS := by
    simp [expectedBits, extractHeaders, hne]
  have hloop {totalFees : Int64} :
      blk.vtx.foldlM (addFee (buildUtxoSet chain)) 0 = some totalFees ↔
        (∀ tx ∈ blk.vtx, tx.isCoinbase = false →
          0 ≤ validateAndGetFee tx (buildUtxoSet chain)) ∧
        totalFees = (blk.vtx.map (feeOf (buildUtxoSet chain))).sum := by
    rw [foldlM_addFee, Int64.zero_add]
  unfold tryExtendChain
  rw [htip, ← hexp]
  constructor
  · intro h
    split at h
    · next bits htip' hbits =>
      obtain rfl := Option.some.inj htip'
      simp only [ite_refused_eq_iff, Bool.or_eq_true, Bool.not_eq_true', not_or,
        Bool.not_eq_false, ne_eq, Decidable.not_not] at h
      obtain ⟨⟨hmerkle, hwork⟩, ⟨hprev, hnBits⟩, h⟩ := h
      split at h
      · cases h
      next totalFees hfold =>
      obtain ⟨hfees, rfl⟩ := hloop.mp hfold
      split at h
      · cases h
      next front rest hv =>
      simp only [ite_refused_eq_iff, Bool.not_eq_false, Decidable.not_not] at h
      exact ⟨⟨hmerkle, hwork, hprev.trans hhash.symm, by rw [hbits, hnBits]⟩, hfees, front, rest,
        hv, h.1, h.2.1⟩
    · cases h
  · intro h
    obtain ⟨front, rest, hv, hcb, htot⟩ := h.coinbase
    rw [← h.bits]
    dsimp only
    rw [hloop.mpr ⟨h.fees, rfl⟩]
    simp [h.merkle, h.work, h.prev, hhash, hv, hcb, htot]

/-- Both outcomes of `try_extend_chain` on a chain with a tip. -/
theorem tryExtendChain_cases {chain : List CBlock} (hne : chain ≠ []) (blk : CBlock) :
    (FastFits chain blk ∧ tryExtendChain chain blk = (true, chain ++ [blk])) ∨
      (¬ FastFits chain blk ∧ tryExtendChain chain blk = (false, chain)) := by
  rcases tryExtendChain_or chain blk with heq | heq
  · exact Or.inl ⟨(tryExtendChain_eq_true_iff hne).mp heq, heq⟩
  · refine Or.inr ⟨fun hfit ↦ ?_, heq⟩
    rw [(tryExtendChain_eq_true_iff hne).mpr hfit] at heq
    cases heq

/-- `try_extend_chain` takes exactly the blocks that pass its checks. -/
theorem tryExtendChain_iff {chain : List CBlock} (hne : chain ≠ []) {blk : CBlock} :
    (tryExtendChain chain blk).1 = true ↔ FastFits chain blk := by
  rcases tryExtendChain_cases hne blk with ⟨hfit, heq⟩ | ⟨hfit, heq⟩ <;> simp [hfit, heq]

/-- What `try_extend_chain` leaves in `chain`. -/
theorem tryExtendChain_snd {chain : List CBlock} (hne : chain ≠ []) (blk : CBlock) :
    (tryExtendChain chain blk).2 =
      if (tryExtendChain chain blk).1 then chain ++ [blk] else chain := by
  rcases tryExtendChain_cases hne blk with ⟨-, heq⟩ | ⟨-, heq⟩ <;> simp [heq]

/-! ## Where the two agree -/

/-- Every transaction can be stored, and between two transactions with checked inputs that name
one outpoint, the first included, some transaction creates that outpoint again. -/
structure SpendsApart (txs : List Transaction) : Prop where
  sized : ∀ tx ∈ txs, tx.vout.length < 2 ^ 32
  renewed : ∀ pre t mid u post, txs = pre ++ t :: (mid ++ u :: post) →
    t.isCoinbase = false → u.isCoinbase = false → ∀ p ∈ t.prevouts, p ∈ u.prevouts →
      ∃ w ∈ t :: mid, p ∈ w.outpoints.map Prod.fst

omit [Crypto] in
/-- Kept, read over the transactions of a journal. -/
theorem kept_journal_iff {txs : List Transaction} {p : COutPoint} :
    Kept (journal txs) p ↔ ∀ pre t mid, txs = pre ++ t :: mid → p ∈ spends t →
      ∃ w ∈ t :: mid, p ∈ w.outpoints.map Prod.fst := by
  constructor
  · intro h pre t mid heq hs
    obtain ⟨e, he, hmk⟩ := h (journal pre) (entry t) (journal mid) (by simp [heq]) hs
    obtain ⟨w, hw, rfl⟩ := List.mem_map.mp (journal_cons t mid ▸ he : e ∈ journal (t :: mid))
    exact ⟨w, hw, hmk⟩
  · intro h pre e mid heq hs
    obtain ⟨tpre, trest, rfl, rfl, hrest⟩ := List.map_eq_append_iff.mp heq
    obtain ⟨t, tmid, rfl, rfl, rfl⟩ := List.map_eq_cons_iff.mp hrest
    obtain ⟨w, hw, hmk⟩ := h tpre t tmid rfl hs
    exact ⟨entry w, List.mem_map_of_mem hw, hmk⟩

section Compare

variable {all txs : List Transaction} {m n : UtxoSet}
  (hid : (∀ tx ∈ txs, tx.vout.length < 2 ^ 32) → Identified all) (hin : txs ⊆ all)
  (hsub : Sub m n) (hm : Sourced all m) (hn : Sourced all n)
  (hfees : ∀ tx ∈ txs, tx.isCoinbase = false → 0 ≤ validateAndGetFee tx m)
include hid hin hm hn hfees

private theorem fee_replay {pre post : List Transaction} {tx : Transaction}
    (hsized : ∀ tx ∈ txs, tx.vout.length < 2 ^ 32) (heq : txs = pre ++ tx :: post)
    (hc : tx.isCoinbase = false) (hheld : ∀ p ∈ tx.prevouts, p ∈ replay n (journal pre)) :
    validateAndGetFee tx (replay n (journal pre)) = validateAndGetFee tx m := by
  have hpart : pre ⊆ txs := heq ▸ List.subset_append_left _ _
  have hpre : pre ⊆ all := List.Subset.trans hpart hin
  have htx : tx ∈ txs := by simp [heq]
  exact (hn.replay hpre).fee_eq (hid hsized) hm hheld (mem_of_fee_nonneg (hfees tx htx hc))

include hsub

/-- Transactions that all check out against one set check out one after the other exactly when
they spend apart. -/
theorem admitsAll_iff_spendsApart : AdmitsAll n txs ↔ SpendsApart txs := by
  have hheld : ∀ tx ∈ txs, tx.isCoinbase = false → ∀ p ∈ tx.prevouts, p ∈ n := by
    intro tx htx hc p hp
    obtain ⟨out, hl⟩ := Finmap.mem_iff.mp (mem_of_fee_nonneg (hfees tx htx hc) p hp)
    exact Finmap.mem_iff.mpr ⟨out, hsub p out hl⟩
  constructor
  · intro hadm
    refine ⟨fun tx htx ↦ ?_, fun pre t mid u post heq ht hu p hpt hpu ↦ ?_⟩
    · obtain ⟨pre, post, heq⟩ := List.append_of_mem htx
      exact (admitsAll_iff.mp hadm pre tx post heq).outputs
    · have hadmu := admitsAll_iff.mp hadm (pre ++ t :: mid) u post (by simp [heq])
      have hpin := mem_of_fee_nonneg (hadmu.fee hu) p hpu
      have hkept := (mem_replay_iff_kept (hheld u (by simp [heq]) hu p hpu)).mp hpin
      refine kept_journal_iff.mp hkept pre t mid rfl ?_
      rwa [spends_of_not_isCoinbase ht]
  · intro hapart
    refine admitsAll_iff.mpr fun pre tx post heq ↦ ?_
    have htx : tx ∈ txs := by simp [heq]
    refine ⟨hapart.sized tx htx, fun hc ↦ ?_⟩
    have hback : ∀ p ∈ tx.prevouts, p ∈ replay n (journal pre) := by
      intro p hp
      rw [mem_replay_iff_kept (hheld tx htx hc p hp), kept_journal_iff]
      intro pre' t mid hpre hs
      cases ht : t.isCoinbase with
      | true => simp [spends, ht] at hs
      | false =>
        rw [spends_of_not_isCoinbase ht] at hs
        exact hapart.renewed pre' t mid tx post (by simp [heq, hpre]) ht hc p hs hp
    rw [fee_replay hid hin hm hn hfees hapart.sized heq hc hback]
    exact hfees tx htx hc

omit hsub in
/-- Where both checks pass, they find the same fees. -/
theorem feesOf_eq_sum (hadm : AdmitsAll n txs) : feesOf n txs = (txs.map (feeOf m)).sum := by
  have hsized : ∀ tx ∈ txs, tx.vout.length < 2 ^ 32 := fun tx htx ↦ by
    obtain ⟨pre, post, heq⟩ := List.append_of_mem htx
    exact (admitsAll_iff.mp hadm pre tx post heq).outputs
  have hone : ∀ pre tx post, txs = pre ++ tx :: post →
      feeOf (replay n (journal pre)) tx = feeOf m tx := by
    intro pre tx post heq
    unfold feeOf
    cases hc : tx.isCoinbase with
    | true => rfl
    | false =>
      have hfee := (admitsAll_iff.mp hadm pre tx post heq).fee hc
      exact fee_replay hid hin hm hn hfees hsized heq hc (mem_of_fee_nonneg hfee)
  clear hid hin hm hn hfees hadm hsized
  induction txs generalizing n with
  | nil => rfl
  | cons tx rest ih =>
    obtain ⟨hhead, htail⟩ := forall_split_cons.mp hone
    rw [feesOf, List.map_cons, List.sum_cons, ih htail]
    exact congrArg (· + _) hhead

end Compare

variable {c : List CBlock}

private theorem identified_extended (h : validateFullChain c = true) {b : CBlock}
    (hcol : Collisionless (transactions (c ++ [b])))
    (hsized : ∀ tx ∈ b.vtx, tx.vout.length < 2 ^ 32) :
    Identified (transactions c ++ b.vtx) := by
  rw [transactions_append, transactions_singleton] at hcol
  refine ⟨fun tx htx ↦ ?_, hcol⟩
  exact (List.mem_append.mp htx).elim (outputs_of_accepted h) (hsized tx)

/-- A block the fast path takes passes full validation exactly when it spends apart. -/
theorem blockFits_iff_spendsApart (h : validateFullChain c = true) {b : CBlock}
    (hcol : Collisionless (transactions (c ++ [b]))) (hfast : FastFits c b) :
    BlockFits c b ↔ SpendsApart b.vtx := by
  have hid := identified_extended h hcol
  have hin : b.vtx ⊆ transactions c ++ b.vtx := List.subset_append_right _ _
  have hbase : transactions c ⊆ transactions c ++ b.vtx := List.subset_append_left _ _
  have hm := (sourced_buildUtxoSet c).subset hbase
  have hn := (sourced_utxosAfter (transactions c)).subset hbase
  have hadm := admitsAll_iff_spendsApart hid hin (buildUtxoSet_sub c) hm hn hfast.fees
  constructor
  · intro hfit
    exact hadm.mp hfit.admits
  · intro hapart
    obtain ⟨front, rest, hv, hcb, htot⟩ := hfast.coinbase
    have hall := hadm.mpr hapart
    refine ⟨hfast.toHeaderFits, hall, front, rest, hv, hcb, ?_⟩
    rw [htot, feesOf_eq_sum hid hin hm hn hfast.fees hall]

/-- The chain after `try_extend_chain` was called with each of some blocks in turn. -/
def extendAll (chain blocks : List CBlock) : List CBlock :=
  blocks.foldl (fun chain blk ↦ (tryExtendChain chain blk).2) chain

/-- From an accepted chain: a block the fast path takes leaves an accepted chain exactly when
it spends apart, and a chain grown by the fast path alone stays accepted as long as every
block it took spends apart. -/
theorem fastPath_sound_iff (h : validateFullChain c = true) :
    (∀ b, Collisionless (transactions (c ++ [b])) → (tryExtendChain c b).1 = true →
      (validateFullChain (tryExtendChain c b).2 = true ↔ SpendsApart b.vtx)) ∧
    ∀ bs, Collisionless (transactions (c ++ bs)) →
      (∀ pre b post, bs = pre ++ b :: post → (tryExtendChain (extendAll c pre) b).1 = true →
        SpendsApart b.vtx) →
      validateFullChain (extendAll c bs) = true := by
  have hone : ∀ c b, validateFullChain c = true → Collisionless (transactions (c ++ [b])) →
      (tryExtendChain c b).1 = true →
      (validateFullChain (tryExtendChain c b).2 = true ↔ SpendsApart b.vtx) := by
    intro c b hc hcol hext
    have hne := (validateFullChain_iff.mp hc).1
    rw [tryExtendChain_snd hne, hext, if_pos rfl, validateFullChain_concat_iff hc]
    exact blockFits_iff_spendsApart hc hcol ((tryExtendChain_iff hne).mp hext)
  refine ⟨fun b ↦ hone c b h, fun bs hcol hapart ↦ ?_⟩
  have hgrow : validateFullChain (extendAll c bs) = true ∧
      transactions (extendAll c bs) ⊆ transactions (c ++ bs) := by
    induction bs using List.reverseRecOn with
    | nil => simpa [extendAll] using h
    | append_singleton bs b ih =>
      have hpart : transactions (c ++ bs) ⊆ transactions (c ++ (bs ++ [b])) := by
        rw [← List.append_assoc, transactions_append (c ++ bs)]
        exact List.subset_append_left _ _
      obtain ⟨hapart', hlast⟩ := forall_split_concat.mp hapart
      obtain ⟨hacc, hsubset⟩ := ih (hcol.subset hpart) hapart'
      have hnext : extendAll c (bs ++ [b]) = (tryExtendChain (extendAll c bs) b).2 := by
        simp [extendAll]
      have hsubset' : transactions (extendAll c bs ++ [b]) ⊆ transactions (c ++ (bs ++ [b])) := by
        rw [← List.append_assoc, transactions_append, transactions_append (c ++ bs)]
        exact List.append_subset.mpr ⟨List.Subset.trans hsubset (List.subset_append_left _ _),
          List.subset_append_right _ _⟩
      rw [hnext]
      cases hext : (tryExtendChain (extendAll c bs) b).1 with
      | true =>
        refine ⟨?_, ?_⟩
        · exact (hone _ b hacc (hcol.subset hsubset') hext).mpr (hlast hext)
        · rw [tryExtendChain_snd (validateFullChain_iff.mp hacc).1, hext]
          exact hsubset'
      | false =>
        rw [tryExtendChain_snd (validateFullChain_iff.mp hacc).1, hext]
        exact ⟨hacc, List.Subset.trans hsubset hpart⟩
  exact hgrow.1

end

/-! ## Two transactions of one block that spend one output -/

/-- Locks nothing: the program pushes a one. -/
def openScript : Bytes := [1, 1]

/-- The first reward, free for anyone to spend. -/
def openRewardTx : Transaction where
  nVersion := 1
  vin := [⟨COutPoint.null, [0, 0, 0, 0], 0xFFFFFFFF⟩]
  vout := [⟨5000000000, openScript⟩]
  nLockTime := 0
  txHash := .ofBigEndian 0x5c947ebf11766b0291a2c9313834fe6e19d96146bd1ea9bbe4963880727caf55

/-- A genesis block with nothing but `openRewardTx`. -/
def openGenesis : CBlock where
  nVersion := 1
  hashPrevBlock := Hash256.zero
  hashMerkleRoot := openRewardTx.txHash
  nTime := 1700000000
  nBits := INITIAL_BITS
  nNonce := 0
  vtx := [openRewardTx]

/-- Spends the output of `openRewardTx` without a fee. -/
def freeSpendTx : Transaction where
  nVersion := 1
  vin := [⟨⟨openRewardTx.txHash, 0⟩, [], 0xFFFFFFFF⟩]
  vout := [⟨5000000000, openScript⟩]
  nLockTime := 0
  txHash := .ofBigEndian 0x3ba70389ff17ba721c56e7ed88ae67af2d138db13ace21150ff071b177559a8f

/-- Spends the same output for a fee of 1000. -/
def payingSpendTx : Transaction where
  nVersion := 1
  vin := [⟨⟨openRewardTx.txHash, 0⟩, [], 0xFFFFFFFF⟩]
  vout := [⟨4999999000, openScript⟩]
  nLockTime := 0
  txHash := .ofBigEndian 0x600465480114d25da3eb26cffc4473a5e49d5f16e4db7e01a9f2cd5f3a4d700c

theorem txHash_openRewardTx :
    openRewardTx.txHash = @Transaction.getHash keylessCrypto openRewardTx := by
  decide +kernel

theorem txHash_freeSpendTx :
    freeSpendTx.txHash = @Transaction.getHash keylessCrypto freeSpendTx := by
  decide +kernel

theorem txHash_payingSpendTx :
    payingSpendTx.txHash = @Transaction.getHash keylessCrypto payingSpendTx := by
  decide +kernel

/-- Collects the second reward and the fee of 1000. -/
def collectTx : Transaction where
  nVersion := 1
  vin := [⟨COutPoint.null, [1, 0, 0, 0], 0xFFFFFFFF⟩]
  vout := [⟨5000001000, openScript⟩]
  nLockTime := 0
  txHash := .ofBigEndian 0x0f0a2ab323826b96da2d34ac69b294650627beb0ce4cd7c0308c1768603a3552

/-- A block on `openGenesis` with both spends. -/
def conflictBlock : CBlock where
  nVersion := 1
  hashPrevBlock :=
    .ofBigEndian 0x2477962e6252d54915bb84656a75a7fc211629eb6a2bf05c30fd489f2f694de0
  hashMerkleRoot :=
    .ofBigEndian 0xf7b588b1dce45f1a79cbc82d9a5ac1b8b1f103b58ca07f8c77b6bf61777e6cfb
  nTime := 1700000021
  nBits := INITIAL_BITS
  nNonce := 0
  vtx := [collectTx, freeSpendTx, payingSpendTx]

theorem validateFullChain_openGenesis :
    @validateFullChain keylessCrypto [openGenesis] = true := by
  decide +kernel

private theorem tryExtendChain_conflictBlock :
    (@tryExtendChain keylessCrypto [openGenesis] conflictBlock).1 = true := by
  decide +kernel

private theorem collisionless_conflictBlock :
    Collisionless (transactions ([openGenesis] ++ [conflictBlock])) := by
  decide +kernel

/-- The fast path takes `conflictBlock`, full validation of the result fails. -/
theorem fastPath_unsound_conflictBlock :
    @validateFullChain keylessCrypto [openGenesis] = true ∧
      (∀ tx ∈ transactions ([openGenesis] ++ [conflictBlock]),
        tx.txHash = @Transaction.getHash keylessCrypto tx) ∧
      Collisionless (transactions ([openGenesis] ++ [conflictBlock])) ∧
      (@tryExtendChain keylessCrypto [openGenesis] conflictBlock).1 = true ∧
      @validateFullChain keylessCrypto
        (@tryExtendChain keylessCrypto [openGenesis] conflictBlock).2 = false := by
  refine ⟨validateFullChain_openGenesis, ?_, collisionless_conflictBlock,
    tryExtendChain_conflictBlock, ?_⟩
  · have hcollect : collectTx.txHash = @Transaction.getHash keylessCrypto collectTx := by
      decide +kernel
    show ∀ tx ∈ [openRewardTx, collectTx, freeSpendTx, payingSpendTx], _
    simp only [List.forall_mem_cons]
    exact ⟨txHash_openRewardTx, hcollect, txHash_freeSpendTx, txHash_payingSpendTx, by simp⟩
  rw [@tryExtendChain_snd keylessCrypto [openGenesis] (by simp), tryExtendChain_conflictBlock,
    if_pos rfl]
  apply Bool.eq_false_of_not_eq_true
  intro hacc
  have hfits := ((@validateFullChain_iff keylessCrypto _).mp hacc).2 [openGenesis] conflictBlock []
    rfl
  -- the second spend comes after the output is gone
  obtain ⟨-, -, hspend, -⟩ := @BlockFits.admits keylessCrypto _ _ hfits
  exact absurd (@Admits.fee keylessCrypto _ _ hspend rfl) (by decide +kernel)

/-- The equivalence at the same block: nothing creates the output again between the two. -/
theorem fastPath_sound_iff_conflictBlock :
    @validateFullChain keylessCrypto
        (@tryExtendChain keylessCrypto [openGenesis] conflictBlock).2 = true ↔
      SpendsApart conflictBlock.vtx :=
  (@fastPath_sound_iff keylessCrypto _ validateFullChain_openGenesis).1 _
    collisionless_conflictBlock tryExtendChain_conflictBlock

end Siliqua.Ledger
