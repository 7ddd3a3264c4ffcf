import Siliqua.Ledger.Integrity

/-!
# Fork choice over a sequence of offers

`try_reorg` applied to one offered chain after the other keeps the earliest heaviest of the
chains it may take, so the work a node ends with does not depend on the order of the offers.
-/

namespace Siliqua.Ledger

open Siliqua.Core Siliqua.Consensus Siliqua.Network

section

variable [Crypto]

/-- The chain after one call of `try_reorg` for each offer in turn. -/
def forkChoice (chain : List CBlock) (offers : List (List CBlock)) : List CBlock :=
  offers.foldl (fun kept offer ↦ (tryReorg kept offer).2) chain

/-- The checks of `try_reorg` that do not compare work: same genesis, and valid. -/
def eligible (chain offer : List CBlock) : Bool :=
  decide (genesisHash offer = genesisHash chain) && validateFullChain offer

/-- Only the genesis of the own chain decides which offers are eligible. -/
theorem eligible_congr {chain chain' : List CBlock} (h : genesisHash chain' = genesisHash chain) :
    eligible chain' = eligible chain := by
  funext offer
  rw [eligible, eligible, h]

/-- The two checks on chains that are not empty. -/
theorem eligible_cons (front peerFront : CBlock) (rest peerRest : List CBlock) :
    eligible (front :: rest) (peerFront :: peerRest) =
      (peerFront.getHash == front.getHash && validateFullChain (peerFront :: peerRest)) := by
  simp [eligible, genesisHash, beq_eq_decide]

/-- `try_reorg` takes an eligible heavier chain and no other. -/
theorem tryReorg_eq {chain : List CBlock} (hne : chain ≠ []) (offer : List CBlock) :
    tryReorg chain offer =
      if eligible chain offer = true ∧ work chain < work offer then (true, offer)
      else (false, chain) := by
  obtain ⟨front, rest, rfl⟩ := List.exists_cons_of_ne_nil hne
  cases offer with
  | nil => simp [tryReorg, eligible, genesisHash]
  | cons peerFront peerRest =>
    have helig := eligible_cons front peerFront rest peerRest
    simp only [tryReorg, ← Bool.not_and, ← helig, work]
    cases eligible (front :: rest) (peerFront :: peerRest) with
    | false => simp
    | true => simp

/-- One more offer. -/
theorem forkChoice_concat (chain : List CBlock) (offers : List (List CBlock))
    (offer : List CBlock) :
    forkChoice chain (offers ++ [offer]) = (tryReorg (forkChoice chain offers) offer).2 := by
  rw [forkChoice, List.foldl_append]
  rfl

/-- The kept chain stays non-empty and keeps its genesis. -/
theorem genesisHash_forkChoice {chain : List CBlock} (hne : chain ≠ [])
    (offers : List (List CBlock)) :
    forkChoice chain offers ≠ [] ∧ genesisHash (forkChoice chain offers) = genesisHash chain := by
  induction offers using List.reverseRecOn with
  | nil => exact ⟨hne, rfl⟩
  | append_singleton offers offer ih =>
    rw [forkChoice_concat, tryReorg_eq ih.1]
    split
    · next h =>
      rw [eligible, Bool.and_eq_true, decide_eq_true_eq] at h
      exact ⟨(validateFullChain_iff.mp h.1.2).1, h.1.1.trans ih.2⟩
    · exact ih

/-- The kept chain is the earliest heaviest candidate. -/
theorem argmax_work {chain : List CBlock} (hne : chain ≠ []) (offers : List (List CBlock)) :
    (chain :: offers.filter (eligible chain)).argmax work = some (forkChoice chain offers) := by
  induction offers using List.reverseRecOn with
  | nil => rfl
  | append_singleton offers offer ih =>
    obtain ⟨hkept, hgenesis⟩ := genesisHash_forkChoice hne offers
    rw [forkChoice_concat, tryReorg_eq hkept, eligible_congr hgenesis, List.filter_append,
      ← List.cons_append, List.filter_singleton]
    cases eligible chain offer with
    | false => simpa using ih
    | true =>
      rw [cond_true, List.argmax_concat, ih]
      dsimp only
      split
      · next hwork => rw [if_pos ⟨rfl, hwork⟩]
      · next hwork => rw [if_neg fun h ↦ hwork h.2]

/-- The chain a sequence of offers leaves has the most work of all candidates, and is the
earliest of those; another order of the offers ends with the same work; and an offer that is
not eligible or not heavier changes nothing. -/
theorem forkChoice_spec {chain : List CBlock} (hne : chain ≠ []) (offers : List (List CBlock)) :
    (∃ pre post, chain :: offers.filter (eligible chain) =
        pre ++ forkChoice chain offers :: post ∧
      (∀ c ∈ pre, work c < work (forkChoice chain offers)) ∧
      ∀ c ∈ post, work c ≤ work (forkChoice chain offers)) ∧
    (∀ offers' : List (List CBlock), offers.Perm offers' →
      work (forkChoice chain offers') = work (forkChoice chain offers)) ∧
    ∀ offer, eligible chain offer = false ∨ work offer ≤ work (forkChoice chain offers) →
      tryReorg (forkChoice chain offers) offer = (false, forkChoice chain offers) := by
  have hargmax := argmax_work hne offers
  refine ⟨Splits.split_of_argmax hargmax, fun offers' hperm ↦ ?_, fun offer h ↦ ?_⟩
  · have hargmax' := argmax_work hne offers'
    have hcands := (hperm.filter (eligible chain)).cons chain
    apply le_antisymm
    · exact List.le_of_mem_argmax (hcands.mem_iff.mpr (List.argmax_mem hargmax')) hargmax
    · exact List.le_of_mem_argmax (hcands.mem_iff.mp (List.argmax_mem hargmax)) hargmax'
  · obtain ⟨hkept, hgenesis⟩ := genesisHash_forkChoice hne offers
    rw [tryReorg_eq hkept, eligible_congr hgenesis]
    apply if_neg
    rintro ⟨helig, hlt⟩
    rcases h with hnot | hle
    · rw [hnot] at helig
      cases helig
    · exact absurd hlt (not_lt.mpr hle)

end

/-- An empty offer and a longer chain may come in either order. -/
theorem forkChoice_spec_openGenesis :
    work (@forkChoice keylessCrypto [openGenesis] [[openGenesis, minedBlock], []]) =
      work (@forkChoice keylessCrypto [openGenesis] [[], [openGenesis, minedBlock]]) :=
  (@forkChoice_spec keylessCrypto [openGenesis] (by simp) [[], [openGenesis, minedBlock]]).2.1 _
    (List.Perm.swap _ _ _)

end Siliqua.Ledger
