import Mathlib.Data.Set.Insert
import Mathlib.Logic.Function.Basic
import Mathlib.Logic.Relation
import Mathlib.Order.Defs.LinearOrder

/-!
# Pulling the better value

General support: parties that each hold a value, and pull from one another. A pull takes the other's
value if it has a greater key. Whoever has heard of a party, through any chain of pulls, holds a
value at least as good as that party did; and if that one was better than all others, the same.
-/

universe u v w

namespace Gossip

variable {ι : Type u}

/-! ## Who has heard -/

/-- Who knows after the first party has pulled from the second, of those who might have known. -/
def hear (known : Set ι) (e : ι × ι) : Set ι := {i | i ∈ known ∨ i = e.1 ∧ e.2 ∈ known}

/-- Who has heard of any of them after some pulls. -/
def heard (known : Set ι) (es : List (ι × ι)) : Set ι := es.foldl hear known

/-- Who knows more hears more. -/
theorem heard_mono {known known' : Set ι} (h : known ⊆ known') (es : List (ι × ι)) :
    heard known es ⊆ heard known' es := by
  induction es generalizing known known' with
  | nil => exact h
  | cons e es ih => exact ih fun i hi ↦ hi.imp (fun hk ↦ h hk) (And.imp_right fun hk ↦ h hk)

/-- What is known stays known. -/
theorem subset_heard (known : Set ι) (es : List (ι × ι)) : known ⊆ heard known es := by
  induction es generalizing known with
  | nil => exact subset_rfl
  | cons e es ih => exact fun i hi ↦ ih _ (Or.inl hi)

theorem heard_append (known : Set ι) (es es' : List (ι × ι)) :
    heard known (es ++ es') = heard (heard known es) es' := List.foldl_append

/-- Along a path of edges news can travel. -/
theorem exists_heard_of_path {E : ι → ι → Prop} {i best : ι} (h : Relation.ReflTransGen E i best) :
    ∃ es : List (ι × ι), (∀ e ∈ es, E e.1 e.2) ∧ i ∈ heard {best} es := by
  induction h using Relation.ReflTransGen.head_induction_on with
  | refl => exact ⟨[], by simp, rfl⟩
  | @head i k hik _ ih =>
    obtain ⟨es, hes, hk⟩ := ih
    refine ⟨es ++ [(i, k)], fun e he ↦ ?_, ?_⟩
    · rcases List.mem_append.mp he with hold | hnew
      · exact hes e hold
      · obtain rfl := List.mem_singleton.mp hnew
        exact hik
    · rw [heard_append]
      exact Or.inr ⟨rfl, hk⟩

/-- Some schedule informs any number of parties that have a path. -/
theorem exists_schedule {E : ι → ι → Prop} {best : ι} (parties : List ι)
    (h : ∀ i ∈ parties, Relation.ReflTransGen E i best) :
    ∃ es : List (ι × ι), (∀ e ∈ es, E e.1 e.2) ∧ ∀ i ∈ parties, i ∈ heard {best} es := by
  induction parties with
  | nil => exact ⟨[], by simp, by simp⟩
  | cons i parties ih =>
    obtain ⟨hi, hrest⟩ := List.forall_mem_cons.mp h
    obtain ⟨es, hes, hinformed⟩ := ih hrest
    obtain ⟨es', hes', hi'⟩ := exists_heard_of_path hi
    refine ⟨es ++ es', List.forall_mem_append.mpr ⟨hes, hes'⟩,
      List.forall_mem_cons.mpr ⟨?_, fun j hj ↦ ?_⟩⟩
    · rw [heard_append]
      exact heard_mono (subset_heard _ es) es' hi'
    · rw [heard_append]
      exact subset_heard _ es' (hinformed j hj)

/-! ## What they hold -/

variable {α : Type v} {β : Type w} [DecidableEq ι] [LinearOrder β] {key : α → β}

/-- The first party pulls from the second. -/
def pull (key : α → β) (held : ι → α) (e : ι × ι) : ι → α :=
  Function.update held e.1 (if key (held e.1) < key (held e.2) then held e.2 else held e.1)

/-- Any number of pulls. -/
def pulls (key : α → β) (held : ι → α) (es : List (ι × ι)) : ι → α := es.foldl (pull key) held

theorem pulls_cons (held : ι → α) (e : ι × ι) (es : List (ι × ι)) :
    pulls key held (e :: es) = pulls key (pull key held e) es := List.foldl_cons

/-- A pull never makes a value worse. -/
theorem le_pull (held : ι → α) (e : ι × ι) (i : ι) : key (held i) ≤ key (pull key held e i) := by
  unfold pull
  by_cases hi : i = e.1
  · subst hi
    rw [Function.update_self]
    split
    · next h => exact h.le
    · exact le_refl _
  · rw [Function.update_of_ne hi]

/-- Who pulls ends at least as good as the other was. -/
theorem le_pull_self (held : ι → α) (e : ι × ι) :
    key (held e.2) ≤ key (pull key held e e.1) := by
  unfold pull
  rw [Function.update_self]
  split
  · exact le_refl _
  · next h => exact not_lt.mp h

/-- Every value is one that somebody held. -/
theorem exists_pull_eq (held : ι → α) (e : ι × ι) (i : ι) : ∃ j, pull key held e i = held j := by
  unfold pull
  by_cases hi : i = e.1
  · subst hi
    rw [Function.update_self]
    split
    · exact ⟨e.2, rfl⟩
    · exact ⟨e.1, rfl⟩
  · rw [Function.update_of_ne hi]
    exact ⟨i, rfl⟩

/-- Values only spread. -/
theorem exists_pulls_eq (held : ι → α) (es : List (ι × ι)) (i : ι) :
    ∃ j, pulls key held es i = held j := by
  induction es generalizing held with
  | nil => exact ⟨i, rfl⟩
  | cons e es ih =>
    obtain ⟨k, hk⟩ := ih (pull key held e)
    obtain ⟨j, hj⟩ := @exists_pull_eq _ _ _ _ _ key held e k
    exact ⟨j, by rw [pulls_cons, hk, hj]⟩

/-- Whoever has heard of somebody at least as good as a bound is that good. -/
theorem le_pulls_of_heard {held : ι → α} {bound : β} {known : Set ι}
    (hknown : ∀ i ∈ known, bound ≤ key (held i)) (es : List (ι × ι)) :
    ∀ i ∈ heard known es, bound ≤ key (pulls key held es i) := by
  induction es generalizing held known with
  | nil => exact hknown
  | cons e es ih =>
    refine ih fun i hi ↦ ?_
    rcases hi with hi | ⟨rfl, hi⟩
    · exact (hknown i hi).trans (le_pull held e i)
    · exact (hknown _ hi).trans (le_pull_self held e)

/-- Whoever has heard of the best value, better than every other, holds it. -/
theorem pulls_eq_of_heard {held : ι → α} {best : ι}
    (hbest : ∀ k, held k = held best ∨ key (held k) < key (held best)) {es : List (ι × ι)} {i : ι}
    (hi : i ∈ heard {best} es) : pulls key held es i = held best := by
  have hknown : ∀ k ∈ ({best} : Set ι), key (held best) ≤ key (held k) := by
    rintro k rfl
    exact le_refl _
  have hle := le_pulls_of_heard hknown es i hi
  obtain ⟨j, hj⟩ := @exists_pulls_eq _ _ _ _ _ key held es i
  rcases hbest j with heq | hlt
  · rw [hj, heq]
  · rw [hj] at hle
    exact absurd hlt (not_lt.mpr hle)

end Gossip
