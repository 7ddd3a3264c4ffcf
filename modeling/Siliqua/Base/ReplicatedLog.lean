import Mathlib.Data.List.Basic
import Mathlib.Logic.Function.Basic
import Mathlib.Logic.Relation

/-!
# One log and its replicas

General support: a log that only grows at its end, and replicas that each hold a prefix of it and
only ever move to a longer one. Any two replicas agree as far as both of them go, and an entry a
replica has once held keeps its place in all of them.
-/

universe u v

/-- A log, and what each replica holds of it. -/
structure ReplicatedLog (ι : Type u) (α : Type v) where
  log : List α
  view : ι → List α
  view_prefix : ∀ i, view i <+: log

namespace ReplicatedLog

variable {ι : Type u} {α : Type v}

/-- Another entry at the end of the log. -/
def append (r : ReplicatedLog ι α) (a : α) : ReplicatedLog ι α :=
  ⟨r.log ++ [a], r.view, fun i ↦ (r.view_prefix i).trans (List.prefix_append _ _)⟩

section Advance

variable [DecidableEq ι]

/-- One replica moves to another prefix of the log. -/
def advance (r : ReplicatedLog ι α) (i : ι) (next : List α) (known : next <+: r.log) :
    ReplicatedLog ι α where
  log := r.log
  view := Function.update r.view i next
  view_prefix j := by
    by_cases h : j = i
    · subst h
      rwa [Function.update_self]
    · rw [Function.update_of_ne h]
      exact r.view_prefix j

/-- The log grows, or a replica catches up with more of it. -/
inductive Step : ReplicatedLog ι α → ReplicatedLog ι α → Prop
  | append (r : ReplicatedLog ι α) (a : α) : Step r (r.append a)
  | advance (r : ReplicatedLog ι α) (i : ι) (next : List α) (known : next <+: r.log)
      (grows : r.view i <+: next) : Step r (r.advance i next known)

/-- Any number of steps. -/
def Run : ReplicatedLog ι α → ReplicatedLog ι α → Prop := Relation.ReflTransGen Step

/-! ## Growth -/

/-- One step only adds, to the log and to every replica. -/
theorem Step.grows {r r' : ReplicatedLog ι α} (h : Step r r') :
    r.log <+: r'.log ∧ ∀ i, r.view i <+: r'.view i := by
  cases h with
  | append a => exact ⟨List.prefix_append _ _, fun i ↦ List.prefix_rfl⟩
  | advance i next known grows =>
    refine ⟨List.prefix_rfl, fun j ↦ ?_⟩
    show r.view j <+: Function.update r.view i next j
    by_cases hj : j = i
    · subst hj
      rwa [Function.update_self]
    · have hsame := Function.update_of_ne hj next r.view
      exact hsame ▸ List.prefix_rfl

/-- So does a run. -/
theorem Run.grows {r r' : ReplicatedLog ι α} (h : Run r r') :
    r.log <+: r'.log ∧ ∀ i, r.view i <+: r'.view i := by
  induction h with
  | refl => exact ⟨List.prefix_rfl, fun i ↦ List.prefix_rfl⟩
  | tail _ step ih =>
    exact ⟨ih.1.trans step.grows.1, fun i ↦ (ih.2 i).trans (step.grows.2 i)⟩

end Advance

/-! ## Agreement -/

/-- Of two replicas, one holds a prefix of the other. -/
theorem view_prefix_or_prefix (r : ReplicatedLog ι α) (i j : ι) :
    r.view i <+: r.view j ∨ r.view j <+: r.view i :=
  List.prefix_or_prefix_of_prefix (r.view_prefix i) (r.view_prefix j)

/-- An entry of a prefix is an entry of the whole. -/
theorem getElem?_of_prefix {l l' : List α} (h : l <+: l') {k : ℕ} {a : α} (hk : l[k]? = some a) :
    l'[k]? = some a := by
  obtain ⟨hlt, rfl⟩ := List.getElem?_eq_some_iff.mp hk
  exact List.prefix_iff_getElem?.mp h k hlt

/-- What a replica holds at some place is what any other holds there, now or later, if it goes that
far. -/
theorem Run.getElem?_view [DecidableEq ι] {r r' : ReplicatedLog ι α} (h : Run r r') {i j : ι}
    {k : ℕ} {a : α} (hi : (r.view i)[k]? = some a) (hj : k < (r'.view j).length) :
    (r'.view j)[k]? = some a := by
  have hlog := getElem?_of_prefix ((r.view_prefix i).trans h.grows.1) hi
  have hview := getElem?_of_prefix (r'.view_prefix j) (List.getElem?_eq_getElem hj)
  rw [List.getElem?_eq_getElem hj, ← hview, hlog]

end ReplicatedLog
