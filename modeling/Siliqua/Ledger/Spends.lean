import Siliqua.Ledger.Sources
import Siliqua.Ledger.UtxoAgreement

/-!
# Authorised, single spends

What an accepted chain says about each of its inputs. The validator looks at the inputs of a
transaction only when the first one is not null, and looks them up before it erases any.
-/

namespace Siliqua.Ledger

open Siliqua.Core Siliqua.Wallet Siliqua.Network KeyedStore Journal

section

variable [Crypto]

/-- The input at place `j` of `tx` spends an output of an earlier transaction that its script
unlocks, and no other input of the chain names that output. -/
structure SpendsOnce (pre : List Transaction) (tx : Transaction) (post : List Transaction)
    (j : Nat) (txin : CTxIn) : Prop where
  authorised : ∃ tx' ∈ pre, ∃ out, (txin.prevout, out) ∈ tx'.outpoints ∧
    evaluate txin.scriptSig out.scriptPubKey (sighash tx) = true
  earlier : ∀ tx' ∈ pre, txin.prevout ∉ tx'.prevouts
  later : ∀ tx' ∈ post, txin.prevout ∉ tx'.prevouts
  same : ∀ (j' : Nat) (txin' : CTxIn), tx.vin[j']? = some txin' → txin'.prevout = txin.prevout →
    j' = j

/-- Every input of every transaction, a null one apart, spends once. -/
def AllSpendOnce (txs : List Transaction) : Prop :=
  ∀ pre tx post, txs = pre ++ tx :: post → ∀ (j : Nat) (txin : CTxIn), tx.vin[j]? = some txin →
    txin.prevout.isNull = false → SpendsOnce pre tx post j txin

/-- No two inputs of the transaction name one outpoint, the null one apart. -/
def NoRepeats (tx : Transaction) : Prop :=
  ∀ (j j' : Nat) (txin txin' : CTxIn), tx.vin[j]? = some txin → tx.vin[j']? = some txin' →
    txin.prevout.isNull = false → txin'.prevout = txin.prevout → j' = j

/-- The inputs that the coinbase test lets through unchecked would have passed the check, and
no later transaction names what they name. -/
def SkippedInputsFit (txs : List Transaction) : Prop :=
  ∀ pre tx post, txs = pre ++ tx :: post → tx.isCoinbase = true →
    ∀ (j : Nat) (txin : CTxIn), tx.vin[j]? = some txin → txin.prevout.isNull = false →
      Unlocks tx (utxosAfter pre) (txin, j) ∧ ∀ tx' ∈ post, txin.prevout ∉ tx'.prevouts

variable {txs : List Transaction}

private theorem identified_of_nodup (hadm : AdmitsAll ∅ txs)
    (hd : (txs.map Transaction.txHash).Nodup) : Identified txs := by
  refine ⟨fun tx htx ↦ ?_, fun tx htx tx' htx' heq ↦ List.inj_on_of_nodup_map hd htx htx' heq⟩
  obtain ⟨pre, post, heq⟩ := List.append_of_mem htx
  exact (admitsAll_iff.mp hadm pre tx post heq).outputs

private theorem unlocks_of_checked {pre : List Transaction} {tx : Transaction} {j : Nat}
    {txin : CTxIn} (h : Admits (utxosAfter pre) tx) (hc : tx.isCoinbase = false)
    (hj : tx.vin[j]? = some txin) : Unlocks tx (utxosAfter pre) (txin, j) :=
  (fee_nonneg_iff.mp (h.fee hc)).2.1 _ (List.mem_zipIdx_iff_getElem?.mpr hj)

private theorem mem_of_unlocks {m : UtxoSet} {tx : Transaction} {j : Nat} {txin : CTxIn}
    (h : Unlocks tx m (txin, j)) : txin.prevout ∈ m :=
  Finmap.mem_iff.mpr ⟨h.choose, h.choose_spec.1⟩

omit [Crypto] in
private theorem mem_prevouts {tx : Transaction} {j : Nat} {txin : CTxIn}
    (hj : tx.vin[j]? = some txin) : txin.prevout ∈ tx.prevouts :=
  List.mem_map_of_mem (List.mem_of_getElem? hj)

omit [Crypto] in
private theorem exists_input {tx : Transaction} {p : COutPoint} (h : p ∈ tx.prevouts) :
    ∃ (j : Nat) (txin : CTxIn), tx.vin[j]? = some txin ∧ txin.prevout = p := by
  obtain ⟨txin, hin, rfl⟩ := List.mem_map.mp h
  obtain ⟨j, hj⟩ := List.mem_iff_getElem?.mp hin
  exact ⟨j, txin, hj, rfl⟩

omit [Crypto] in
/-- A spent outpoint does not come back while hashes do not repeat. -/
theorem notMem_utxosAfter_of_spent (hd : (txs.map Transaction.txHash).Nodup)
    {pre mid post : List Transaction} {tx : Transaction}
    (heq : txs = pre ++ tx :: (mid ++ post)) {p : COutPoint} (hm : p ∈ utxosAfter pre)
    (hs : p ∈ spends tx) : p ∉ utxosAfter (pre ++ tx :: mid) := by
  intro hback
  rw [utxosAfter_append] at hback
  change p ∈ replay (play (utxosAfter pre) (entry tx)) (journal mid) at hback
  obtain ⟨u, hu, hpu⟩ : ∃ u ∈ tx :: mid, p ∈ u.outpoints.map Prod.fst := by
    by_cases hplay : p ∈ play (utxosAfter pre) (entry tx)
    · refine ⟨tx, List.mem_cons_self, ?_⟩
      exact (mem_play.mp hplay).resolve_left fun h ↦ h.2 hs
    · obtain ⟨e, he, hmk⟩ := makes_of_mem_replay hback hplay
      obtain ⟨u, hu, rfl⟩ := List.mem_map.mp he
      exact ⟨u, List.mem_cons_of_mem _ hu, hmk⟩
  obtain ⟨out, hl⟩ := Finmap.mem_iff.mp hm
  obtain ⟨u', hu', hpu'⟩ := sourced_utxosAfter pre p out hl
  have hhash : u'.txHash = u.txHash :=
    Transaction.txHash_eq_of_outpoint (List.mem_map_of_mem hpu') hpu
  have huin : u ∈ tx :: (mid ++ post) := by
    rw [← List.cons_append]
    exact List.mem_append_left _ hu
  rw [heq, List.map_append] at hd
  exact (List.nodup_append.mp hd).2.2 _ (List.mem_map_of_mem hu') _ (List.mem_map_of_mem huin)
    hhash

/-- What a transaction names, and the set before a later one still holds, was not named before:
checked inputs erase it, skipped ones are never followed by another. -/
private theorem not_named_before (hadm : AdmitsAll ∅ txs)
    (hd : (txs.map Transaction.txHash).Nodup) (hskip : SkippedInputsFit txs)
    {pre mid post : List Transaction} {t tx : Transaction}
    (heq : txs = pre ++ t :: (mid ++ tx :: post)) {p : COutPoint} (hnull : p.isNull = false)
    (hp : p ∈ tx.prevouts) (hm : p ∈ utxosAfter (pre ++ t :: mid)) : p ∉ t.prevouts := by
  intro ht
  obtain ⟨j, txin, hj, rfl⟩ := exists_input ht
  cases hc : t.isCoinbase with
  | true => exact (hskip pre t _ heq hc j txin hj hnull).2 tx (by simp) hp
  | false =>
    have hun := unlocks_of_checked (admitsAll_iff.mp hadm pre t _ heq) hc hj
    have hs : txin.prevout ∈ spends t := by rwa [spends_of_not_isCoinbase hc]
    exact notMem_utxosAfter_of_spent hd heq (mem_of_unlocks hun) hs hm

private theorem unlocks_of_fits (hadm : AdmitsAll ∅ txs) (hskip : SkippedInputsFit txs)
    {pre post : List Transaction} {tx : Transaction} (heq : txs = pre ++ tx :: post) {j : Nat}
    {txin : CTxIn} (hj : tx.vin[j]? = some txin) (hnull : txin.prevout.isNull = false) :
    Unlocks tx (utxosAfter pre) (txin, j) := by
  cases hc : tx.isCoinbase with
  | true => exact (hskip pre tx post heq hc j txin hj hnull).1
  | false => exact unlocks_of_checked (admitsAll_iff.mp hadm pre tx post heq) hc hj

/-- Checked or fitting inputs spend once. -/
theorem allSpendOnce_of_fits (hadm : AdmitsAll ∅ txs) (hd : (txs.map Transaction.txHash).Nodup)
    (hrep : ∀ tx ∈ txs, NoRepeats tx) (hskip : SkippedInputsFit txs) : AllSpendOnce txs := by
  intro pre tx post heq j txin hj hnull
  have hun := unlocks_of_fits hadm hskip heq hj hnull
  have hm := mem_of_unlocks hun
  refine ⟨?_, fun t ht hp ↦ ?_, fun t ht hp ↦ ?_, fun j' txin' hj' hsame ↦ ?_⟩
  · obtain ⟨out, hl, hv⟩ := hun
    obtain ⟨tx', htx', hout⟩ := sourced_utxosAfter pre _ out hl
    refine ⟨tx', htx', out, hout, ?_⟩
    simpa only [verifyTransactionSignature, hj] using hv
  · obtain ⟨pre', mid, rfl⟩ := List.append_of_mem ht
    have hsplit : txs = pre' ++ t :: (mid ++ tx :: post) := by simpa using heq
    exact not_named_before hadm hd hskip hsplit hnull (mem_prevouts hj) hm hp
  · obtain ⟨mid, post', rfl⟩ := List.append_of_mem ht
    obtain ⟨i, tin, hi, heqp⟩ := exists_input hp
    have hnull' : tin.prevout.isNull = false := by rwa [heqp]
    have hsplit : txs = (pre ++ tx :: mid) ++ t :: post' := by simpa using heq
    have hm' := mem_of_unlocks (unlocks_of_fits hadm hskip hsplit hi hnull')
    have hp' : tin.prevout ∈ tx.prevouts := by
      rw [heqp]
      exact mem_prevouts hj
    exact not_named_before hadm hd hskip heq hnull' (mem_prevouts hi) hm' hp'
  · exact hrep tx (by simp [heq]) j j' txin txin' hj hj' hnull hsame

/-- Where every input spends once, the skipped ones would have passed the check. -/
theorem fits_of_allSpendOnce (hadm : AdmitsAll ∅ txs) (hd : (txs.map Transaction.txHash).Nodup)
    (h : AllSpendOnce txs) : (∀ tx ∈ txs, NoRepeats tx) ∧ SkippedInputsFit txs := by
  have hid := identified_of_nodup hadm hd
  constructor
  · intro tx htx j j' txin txin' hj hj' hnull hsame
    obtain ⟨pre, post, heq⟩ := List.append_of_mem htx
    exact (h pre tx post heq j txin hj hnull).same j' txin' hj' hsame
  · intro pre tx post heq _ j txin hj hnull
    have hsp := h pre tx post heq j txin hj hnull
    refine ⟨?_, hsp.later⟩
    obtain ⟨tx', htx', out, hout, hev⟩ := hsp.authorised
    have hpre : pre ⊆ txs := heq ▸ List.subset_append_left _ _
    have hmem : txin.prevout ∈ utxosAfter pre := by
      by_contra hno
      have hgone := gone_journal_iff.mp (notMem_replay_iff.mp hno)
      obtain ⟨a, b, hab⟩ := List.append_of_mem htx'
      obtain ⟨t, ht, -, hnamed⟩ := hgone a tx' b hab (List.mem_map.mpr ⟨_, hout, rfl⟩)
      refine hsp.earlier t ?_ hnamed
      rw [hab]
      exact List.mem_append_right _ (List.mem_cons_of_mem _ ht)
    obtain ⟨out', hl⟩ := Finmap.mem_iff.mp hmem
    obtain ⟨u, hu, hout'⟩ := sourced_utxosAfter pre _ out' hl
    obtain rfl := hid.output_eq (hpre htx') (hpre hu) hout hout'
    refine ⟨out, hl, ?_⟩
    simpa only [verifyTransactionSignature, hj] using hev

/-- In an accepted chain whose hashes do not repeat, every input spends once exactly when no
transaction repeats an outpoint and the inputs the coinbase test skips would have passed. -/
theorem allSpendOnce_iff {chain : List CBlock} (h : validateFullChain chain = true)
    (hd : ((transactions chain).map Transaction.txHash).Nodup) :
    AllSpendOnce (transactions chain) ↔
      (∀ tx ∈ transactions chain, NoRepeats tx) ∧ SkippedInputsFit (transactions chain) :=
  ⟨fits_of_allSpendOnce (admitsAll_of_accepted h) hd,
    fun hfit ↦ allSpendOnce_of_fits (admitsAll_of_accepted h) hd hfit.1 hfit.2⟩

end

/-! ## An input that nothing checks -/

/-- `disguisedTx` names the reward of an address nobody has signed for. -/
theorem not_allSpendOnce_disguisedBlock :
    @validateFullChain keylessCrypto [disguisedBlock] = true ∧
      (∀ tx ∈ transactions [disguisedBlock], tx.txHash = @Transaction.getHash keylessCrypto tx) ∧
      ((transactions [disguisedBlock]).map Transaction.txHash).Nodup ∧
      ¬ @AllSpendOnce keylessCrypto (transactions [disguisedBlock]) := by
  let _ : Crypto := keylessCrypto
  refine ⟨validateFullChain_disguisedBlock, txHash_disguisedBlock, by decide +kernel, fun h ↦ ?_⟩
  have hspend := h [rewardTx] disguisedTx [] rfl 1 ⟨⟨rewardTx.txHash, 0⟩, [], 0xFFFFFFFF⟩ rfl
    (by decide +kernel)
  obtain ⟨tx', htx', out, hout, hev⟩ := hspend.authorised
  obtain rfl := List.mem_singleton.mp htx'
  have hscript : ∀ kv ∈ rewardTx.outpoints,
      @evaluate keylessCrypto [] kv.2.scriptPubKey (@sighash keylessCrypto disguisedTx) =
        false := by
    decide +kernel
  exact absurd hev (by simp [hscript _ hout])

/-- The equivalence at the same block. -/
theorem allSpendOnce_iff_disguisedBlock :
    @AllSpendOnce keylessCrypto (transactions [disguisedBlock]) ↔
      (∀ tx ∈ transactions [disguisedBlock], NoRepeats tx) ∧
        @SkippedInputsFit keylessCrypto (transactions [disguisedBlock]) :=
  @allSpendOnce_iff keylessCrypto _ validateFullChain_disguisedBlock (by decide +kernel)

end Siliqua.Ledger
