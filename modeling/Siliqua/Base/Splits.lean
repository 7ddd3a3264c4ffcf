import Mathlib.Data.List.Induction
import Mathlib.Data.List.MinMax

/-!
# Splitting a list at one element

General support: the ways to read a list as `pre ++ x :: post`, for lists that grow at either
end. "What came before", "what comes after" and "at every element" are stated with them.
-/

namespace Splits

universe u

variable {α : Type u}

/-- A list that grew at the front splits at its new head or further on. -/
theorem cons_eq_split_iff {a x : α} {xs pre post : List α} :
    a :: xs = pre ++ x :: post ↔
      (pre = [] ∧ a = x ∧ xs = post) ∨ ∃ pre', pre = a :: pre' ∧ xs = pre' ++ x :: post := by
  cases pre with
  | nil => simp
  | cons b pre =>
    constructor
    · intro h
      obtain ⟨rfl, hxs⟩ := List.cons.inj h
      exact Or.inr ⟨pre, rfl, hxs⟩
    · rintro (⟨hnil, -⟩ | ⟨pre', hcons, rfl⟩)
      · cases hnil
      · obtain ⟨rfl, rfl⟩ := List.cons.inj hcons
        rfl

/-- A list that grew at the end splits at its new last element or further in. -/
theorem concat_eq_split_iff {a x : α} {xs pre post : List α} :
    xs ++ [a] = pre ++ x :: post ↔
      (post = [] ∧ xs = pre ∧ a = x) ∨ ∃ post', post = post' ++ [a] ∧ xs = pre ++ x :: post' := by
  constructor
  · intro h
    cases post using List.reverseRecOn with
    | nil =>
      obtain ⟨rfl, hlast⟩ := List.append_inj' h rfl
      exact Or.inl ⟨rfl, rfl, (List.cons.inj hlast).1⟩
    | append_singleton post' b =>
      rw [← List.cons_append, ← List.append_assoc] at h
      obtain ⟨rfl, hlast⟩ := List.append_inj' h rfl
      obtain ⟨rfl, -⟩ := List.cons.inj hlast
      exact Or.inr ⟨post', rfl, rfl⟩
  · rintro (⟨rfl, rfl, rfl⟩ | ⟨post', rfl, rfl⟩) <;> simp

variable {P : List α → α → List α → Prop}

/-- Every split of a list with one more head. -/
theorem forall_split_cons {a : α} {xs : List α} :
    (∀ pre x post, a :: xs = pre ++ x :: post → P pre x post) ↔
      P [] a xs ∧ ∀ pre x post, xs = pre ++ x :: post → P (a :: pre) x post := by
  constructor
  · intro h
    refine ⟨h [] a xs rfl, fun pre x post heq ↦ ?_⟩
    exact h (a :: pre) x post (cons_eq_split_iff.mpr (Or.inr ⟨pre, rfl, heq⟩))
  · rintro ⟨hhead, hrest⟩ pre x post heq
    rcases cons_eq_split_iff.mp heq with ⟨rfl, rfl, rfl⟩ | ⟨pre', rfl, hxs⟩
    · exact hhead
    · exact hrest pre' x post hxs

/-- Every split of a list with one more last element. -/
theorem forall_split_concat {a : α} {xs : List α} :
    (∀ pre x post, xs ++ [a] = pre ++ x :: post → P pre x post) ↔
      (∀ pre x post, xs = pre ++ x :: post → P pre x (post ++ [a])) ∧ P xs a [] := by
  constructor
  · intro h
    refine ⟨fun pre x post heq ↦ ?_, h xs a [] rfl⟩
    exact h pre x (post ++ [a]) (concat_eq_split_iff.mpr (Or.inr ⟨post, rfl, heq⟩))
  · rintro ⟨hinit, hlast⟩ pre x post heq
    rcases concat_eq_split_iff.mp heq with ⟨rfl, rfl, rfl⟩ | ⟨post', rfl, hxs⟩
    · exact hlast
    · exact hinit pre x post' hxs

/-- The one split of a list of one element. -/
theorem forall_split_singleton {a : α} :
    (∀ pre x post, [a] = pre ++ x :: post → P pre x post) ↔ P [] a [] := by
  rw [forall_split_cons]
  simp

/-- The list splits at its `argmax`: strictly smaller values before it, no larger ones behind. -/
theorem split_of_argmax {β : Type*} [LinearOrder β] {f : α → β} {xs : List α} {m : α}
    (h : xs.argmax f = some m) :
    ∃ pre post, xs = pre ++ m :: post ∧ (∀ x ∈ pre, f x < f m) ∧ ∀ x ∈ post, f x ≤ f m := by
  induction xs generalizing m with
  | nil => cases h
  | cons a xs ih =>
    rw [List.argmax_cons] at h
    cases hxs : xs.argmax f with
    | none =>
      rw [hxs] at h
      obtain rfl := Option.some.inj h
      obtain rfl := List.argmax_eq_none.mp hxs
      exact ⟨[], [], rfl, by simp, by simp⟩
    | some c =>
      rw [hxs] at h
      dsimp only at h
      split at h
      · next hlt =>
        obtain rfl := Option.some.inj h
        obtain ⟨pre, post, rfl, hpre, hpost⟩ := ih hxs
        exact ⟨a :: pre, post, rfl, List.forall_mem_cons.mpr ⟨hlt, hpre⟩, hpost⟩
      · next hlt =>
        obtain rfl := Option.some.inj h
        refine ⟨[], xs, rfl, by simp, fun x hx ↦ ?_⟩
        exact (List.le_of_mem_argmax hx hxs).trans (not_lt.mp hlt)

end Splits
