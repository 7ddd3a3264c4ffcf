import Siliqua.Base.Search
import Siliqua.Consensus.Pow

/-!
# The attempts of `mine_block`

The search for a nonce goes through the nonces of one time after the other, all `2^64` pairs in
turn. It ends if one of them meets the target, with the first one that does.
-/

namespace Siliqua.Consensus

open Siliqua.Core Search

/-- The header after `k` failed attempts. -/
def attempt (header : CBlockHeader) (k : Nat) : CBlockHeader :=
  { header with
    nNonce := UInt32.ofNat k
    nTime := header.nTime + UInt32.ofNat (k / 2 ^ 32) }

/-- The attempts come one after the other. -/
theorem nextAttempt_attempt (header : CBlockHeader) (k : Nat) :
    nextAttempt (attempt header k) = attempt header (k + 1) := by
  have hlast : UInt32.ofNat k = 0xFFFFFFFF ↔ k % 2 ^ 32 = 2 ^ 32 - 1 := by
    rw [← UInt32.toNat_inj, UInt32.toNat_ofNat']
    rfl
  rw [nextAttempt]
  split
  · next hmax =>
    have hk := hlast.mp hmax
    have hnonce : UInt32.ofNat (k + 1) = 0 := by
      rw [← UInt32.toNat_inj, UInt32.toNat_ofNat']
      show (k + 1) % 2 ^ 32 = 0
      omega
    have htime : (k + 1) / 2 ^ 32 = k / 2 ^ 32 + 1 := by omega
    rw [attempt, attempt, hnonce, htime, UInt32.ofNat_add, UInt32.add_assoc]
    rfl
  · next hmax =>
    have hk := hlast.not.mp hmax
    have htime : (k + 1) / 2 ^ 32 = k / 2 ^ 32 := by omega
    rw [attempt, attempt, htime, UInt32.ofNat_add]
    rfl

theorem iterate_nextAttempt {header : CBlockHeader} (hnonce : header.nNonce = 0) (k : Nat) :
    nextAttempt^[k] header = attempt header k := by
  induction k with
  | zero =>
    rw [Function.iterate_zero_apply, attempt]
    cases header
    subst hnonce
    simp
  | succ k ih => rw [Function.iterate_succ_apply', ih, nextAttempt_attempt]

/-- After all pairs of a time and a nonce the attempts start again. -/
theorem isPeriodicPt_nextAttempt {header : CBlockHeader} (hnonce : header.nNonce = 0) :
    Function.IsPeriodicPt nextAttempt (2 ^ 64) header := by
  rw [Function.IsPeriodicPt, Function.IsFixedPt, iterate_nextAttempt hnonce]
  have hzero := iterate_nextAttempt hnonce 0
  rw [Function.iterate_zero_apply] at hzero
  conv_rhs => rw [hzero]
  rfl

/-- Every pair is tried. -/
theorem exists_attempt (header : CBlockHeader) (nTime nNonce : UInt32) :
    ∃ k < 2 ^ 64, attempt header k = { header with nTime, nNonce } := by
  have htime := (nTime - header.nTime).toNat_lt
  have hnonce := nNonce.toNat_lt
  refine ⟨(nTime - header.nTime).toNat * 2 ^ 32 + nNonce.toNat, by omega, ?_⟩
  have hdiv : ((nTime - header.nTime).toNat * 2 ^ 32 + nNonce.toNat) / 2 ^ 32 =
      (nTime - header.nTime).toNat := by omega
  have hlow : UInt32.ofNat ((nTime - header.nTime).toNat * 2 ^ 32 + nNonce.toNat) = nNonce := by
    rw [← UInt32.toNat_inj, UInt32.toNat_ofNat']
    omega
  rw [attempt, hdiv, hlow, UInt32.ofNat_toNat]
  congr 1
  rw [UInt32.add_comm, UInt32.sub_add_cancel]

variable [Crypto]

/-- The loop is a search. -/
theorem mineLoop_eq (target : Hash256) (fuel : Nat) (header : CBlockHeader) :
    mineLoop target fuel header =
      search nextAttempt (fun h ↦ h.getHash.toList ≤ target.toList) fuel header := by
  induction fuel generalizing header with
  | zero => rfl
  | succ fuel ih =>
    rw [mineLoop, search, ih]
    by_cases hle : header.getHash.toList ≤ target.toList
    · rw [if_neg (List.not_lt.mpr hle), if_pos hle]
    · rw [if_pos (List.not_le.mp hle), if_neg hle]

/-- `mine_block` returns if the header has a time and a nonce that meet the target, with the first
ones it comes to: the nonces of a time in turn, then the next time. A round of all pairs is
enough. -/
theorem mineBlock_attempts (header : CBlockHeader) (nBits : UInt32) :
    (∀ fuel found, mineBlock fuel header nBits = some found ↔
      ∃ k < fuel, attempt { header with nBits, nNonce := 0 } k = found ∧
        checkProofOfWork found = true ∧
        ∀ j < k, checkProofOfWork (attempt { header with nBits, nNonce := 0 } j) = false) ∧
      ((∃ fuel, (mineBlock fuel header nBits).isSome) ↔
        ∃ nTime nNonce, checkProofOfWork { header with nBits, nTime, nNonce } = true) ∧
      ∀ fuel, 2 ^ 64 ≤ fuel → mineBlock fuel header nBits = mineBlock (2 ^ 64) header nBits := by
  have hbits (k : Nat) : checkProofOfWork (attempt { header with nBits, nNonce := 0 } k) = true ↔
      (attempt { header with nBits, nNonce := 0 } k).getHash.toList ≤
        (bitsToTarget nBits).toList := decide_eq_true_iff
  have hsearch (fuel : Nat) :=
    mineLoop_eq (bitsToTarget nBits) fuel { header with nBits, nNonce := 0 }
  have hround := @isPeriodicPt_nextAttempt { header with nBits, nNonce := 0 } rfl
  have hiterate := @iterate_nextAttempt { header with nBits, nNonce := 0 } rfl
  refine ⟨fun fuel found ↦ ?_, ?_, fun fuel hle ↦ ?_⟩
  · rw [mineBlock, hsearch, search_eq_some_iff]
    apply exists_congr
    intro k
    rw [hiterate]
    apply and_congr_right
    intro _
    apply and_congr_right
    rintro rfl
    rw [hbits]
    apply and_congr_right
    intro _
    apply forall₂_congr
    intro j _
    rw [hiterate, ← hbits, Bool.not_eq_true]
  · constructor
    · rintro ⟨fuel, hsome⟩
      rw [mineBlock, hsearch, isSome_search_iff] at hsome
      obtain ⟨k, -, hk⟩ := hsome
      rw [hiterate, ← hbits] at hk
      exact ⟨_, _, hk⟩
    · rintro ⟨nTime, nNonce, hpass⟩
      obtain ⟨k, hk, heq⟩ := exists_attempt { header with nBits, nNonce := 0 } nTime nNonce
      refine ⟨2 ^ 64, ?_⟩
      rw [mineBlock, hsearch, isSome_search_iff]
      refine ⟨k, hk, ?_⟩
      rw [hiterate, ← hbits, heq]
      exact hpass
  · rw [mineBlock, hsearch, mineBlock, hsearch]
    exact search_of_isPeriodicPt (by decide) hround hle

end Siliqua.Consensus
