import Mathlib.Dynamics.PeriodicPts.Defs

/-!
# Searching through successors

General support: a loop that tries one candidate after the other until one passes. With fuel it
finds the first candidate that passes; where the candidates come round again, one round is enough.
-/

namespace Search

universe u

variable {α : Type u} {next : α → α} {p : α → Prop} [DecidablePred p] {fuel : ℕ} {s t : α}

/-- The first candidate that passes, from `s` on, given up when the fuel runs out. -/
def search (next : α → α) (p : α → Prop) [DecidablePred p] : ℕ → α → Option α
  | 0, _ => none
  | fuel + 1, s => if p s then some s else search next p fuel (next s)

/-- A search finds the first candidate that passes. -/
theorem search_eq_some_iff :
    search next p fuel s = some t ↔
      ∃ k < fuel, next^[k] s = t ∧ p t ∧ ∀ j < k, ¬ p (next^[j] s) := by
  induction fuel generalizing s with
  | zero =>
    constructor
    · intro h
      cases h
    · rintro ⟨k, hk, -⟩
      exact absurd hk (Nat.not_lt_zero k)
  | succ fuel ih =>
    rw [search]
    split
    · next hs =>
      constructor
      · intro h
        cases h
        exact ⟨0, Nat.succ_pos fuel, rfl, hs, fun j hj ↦ absurd hj (Nat.not_lt_zero j)⟩
      · rintro ⟨k, -, rfl, -, hfirst⟩
        cases k with
        | zero => rfl
        | succ k => exact absurd hs (hfirst 0 (Nat.succ_pos k))
    · next hs =>
      rw [ih]
      constructor
      · rintro ⟨k, hk, ht, hp, hfirst⟩
        refine ⟨k + 1, Nat.succ_lt_succ hk, ht, hp, fun j hj ↦ ?_⟩
        cases j with
        | zero => exact hs
        | succ j => exact hfirst j (Nat.lt_of_succ_lt_succ hj)
      · rintro ⟨k, hk, rfl, hp, hfirst⟩
        cases k with
        | zero => exact absurd hp hs
        | succ k =>
          exact ⟨k, Nat.lt_of_succ_lt_succ hk, rfl, hp,
            fun j hj ↦ hfirst (j + 1) (Nat.succ_lt_succ hj)⟩

/-- It finds one if there is one within the fuel. -/
theorem isSome_search_iff : (search next p fuel s).isSome ↔ ∃ k < fuel, p (next^[k] s) := by
  rw [Option.isSome_iff_exists]
  constructor
  · rintro ⟨t, h⟩
    obtain ⟨k, hk, rfl, hp, -⟩ := search_eq_some_iff.mp h
    exact ⟨k, hk, hp⟩
  · rintro ⟨k, hk, hp⟩
    have hex : ∃ k, p (next^[k] s) := ⟨k, hp⟩
    classical
    exact ⟨_, search_eq_some_iff.mpr ⟨Nat.find hex, (Nat.find_min' hex hp).trans_lt hk, rfl,
      Nat.find_spec hex, fun j hj ↦ Nat.find_min hex hj⟩⟩

/-- Where the candidates come round again, one round is enough. -/
theorem search_of_isPeriodicPt {round : ℕ} (hpos : 0 < round)
    (h : Function.IsPeriodicPt next round s) (hle : round ≤ fuel) :
    search next p fuel s = search next p round s := by
  ext t
  rw [search_eq_some_iff, search_eq_some_iff]
  constructor
  · rintro ⟨k, -, rfl, hp, hfirst⟩
    refine ⟨k, ?_, rfl, hp, hfirst⟩
    -- behind the round the candidate was tried before
    by_contra hround
    have hlt := Nat.mod_lt k hpos
    apply hfirst (k % round) (by omega)
    rwa [h.iterate_mod_apply]
  · rintro ⟨k, hk, hrest⟩
    exact ⟨k, hk.trans_le hle, hrest⟩

end Search
