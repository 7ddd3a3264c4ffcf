import Mathlib.Data.List.Induction

/-!
# First come, first served

General support: entries are served in order, and one that is in conflict with an entry served
before it is passed over.
-/

universe u

namespace FirstCome

variable {α : Type u} (Conflict : α → α → Prop) [DecidableRel Conflict]

/-- One turn: take the entry unless one taken earlier is in conflict with it. -/
def serve (taken : List α) (x : α) : List α :=
  if ∀ t ∈ taken, ¬ Conflict t x then taken ++ [x] else taken

/-- The entries that are served, in order. -/
def served (xs : List α) : List α := xs.foldl (serve Conflict) []

/-- The next entry is served exactly when none of the served ones is in conflict with it. -/
theorem served_concat (xs : List α) (x : α) :
    served Conflict (xs ++ [x]) =
      if ∀ t ∈ served Conflict xs, ¬ Conflict t x then served Conflict xs ++ [x]
      else served Conflict xs := by
  rw [served, List.foldl_append, List.foldl_cons, List.foldl_nil]
  rfl

/-- Served entries keep their order. -/
theorem served_sublist (xs : List α) : (served Conflict xs).Sublist xs := by
  induction xs using List.reverseRecOn with
  | nil => exact List.Sublist.refl []
  | append_singleton xs x ih =>
    rw [served_concat]
    split
    · exact ih.append (List.Sublist.refl [x])
    · exact ih.trans (List.sublist_append_left xs [x])

end FirstCome
