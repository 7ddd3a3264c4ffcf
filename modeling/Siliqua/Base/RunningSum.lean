import Mathlib.Algebra.BigOperators.Group.List.Basic
import Mathlib.Algebra.Order.Group.Int
import Mathlib.Algebra.Order.BigOperators.Group.List
import Mathlib.Algebra.Ring.Int.Defs

/-!
# Running sums within bounds

General support: additions of integers that are abandoned where a result leaves a range, and
loops of them. A loop comes to its end exactly when every prefix has a sum in the range.
-/

namespace RunningSum

variable (InRange : ℤ → Prop) [DecidablePred InRange]

/-- The sum, unless it leaves the range. -/
def add (x y : ℤ) : Option ℤ := if InRange (x + y) then some (x + y) else none

/-- The elements of a list added to a total one after the other. -/
def sum : ℤ → List ℤ → Option ℤ
  | total, [] => some total
  | total, x :: xs => (add InRange total x).bind fun total ↦ sum total xs

omit [DecidablePred InRange] in
/-- The total and every prefix added to it stay in the range. -/
def Within (total : ℤ) (xs : List ℤ) : Prop := ∀ pre, pre <+: xs → InRange (total + pre.sum)

variable {InRange}

theorem add_eq_some_iff {x y r : ℤ} : add InRange x y = some r ↔ InRange (x + y) ∧ r = x + y := by
  rw [add]
  split
  · next h => rw [Option.some.injEq, eq_comm]; exact (and_iff_right h).symm
  · next h => exact iff_of_false (by simp) fun hr ↦ h hr.1

omit [DecidablePred InRange] in
theorem within_nil_iff {total : ℤ} : Within InRange total [] ↔ InRange total := by
  constructor
  · intro h
    simpa using h [] List.prefix_rfl
  · intro h pre hpre
    rw [List.prefix_nil.mp hpre, List.sum_nil, Int.add_zero]
    exact h

omit [DecidablePred InRange] in
theorem Within.head {total : ℤ} {xs : List ℤ} (h : Within InRange total xs) : InRange total := by
  simpa using h [] List.nil_prefix

omit [DecidablePred InRange] in
theorem Within.whole {total : ℤ} {xs : List ℤ} (h : Within InRange total xs) :
    InRange (total + xs.sum) :=
  h xs List.prefix_rfl

omit [DecidablePred InRange] in
/-- One element: the total and what comes after. -/
theorem within_cons_iff {total x : ℤ} {xs : List ℤ} :
    Within InRange total (x :: xs) ↔ InRange total ∧ Within InRange (total + x) xs := by
  constructor
  · intro h
    refine ⟨h.head, fun pre hpre ↦ ?_⟩
    have hcons := h (x :: pre) (List.prefix_cons_inj x |>.mpr hpre)
    rwa [List.sum_cons, ← Int.add_assoc] at hcons
  · rintro ⟨htotal, h⟩ pre hpre
    cases pre with
    | nil => simpa using htotal
    | cons y pre =>
      obtain ⟨rfl, hpre'⟩ := List.cons_prefix_cons.mp hpre
      rw [List.sum_cons, ← Int.add_assoc]
      exact h pre hpre'

/-- From a total in the range the loop ends with the exact sum exactly when all prefixes stay in
the range. -/
theorem sum_eq_some_iff {total r : ℤ} (htotal : InRange total) {xs : List ℤ} :
    sum InRange total xs = some r ↔ Within InRange total xs ∧ r = total + xs.sum := by
  induction xs generalizing total with
  | nil =>
    rw [sum, within_nil_iff, Option.some.injEq, List.sum_nil, Int.add_zero, eq_comm]
    exact (and_iff_right htotal).symm
  | cons x xs ih =>
    rw [sum, Option.bind_eq_some_iff, within_cons_iff, List.sum_cons, ← Int.add_assoc]
    simp only [add_eq_some_iff]
    constructor
    · rintro ⟨mid, ⟨hmid, rfl⟩, hrest⟩
      obtain ⟨hwithin, hr⟩ := (ih hmid).mp hrest
      exact ⟨⟨htotal, hwithin⟩, hr⟩
    · rintro ⟨⟨-, hwithin⟩, hr⟩
      exact ⟨_, ⟨hwithin.head, rfl⟩, (ih hwithin.head).mpr ⟨hwithin, hr⟩⟩

/-- The loop is abandoned exactly when some prefix leaves the range. -/
theorem sum_ne_none_iff {total : ℤ} (htotal : InRange total) {xs : List ℤ} :
    sum InRange total xs ≠ none ↔ Within InRange total xs := by
  rw [Option.ne_none_iff_exists']
  simp only [sum_eq_some_iff htotal, exists_and_left, exists_eq, and_true]

/-- Elements between zero and a bound sum to at most the bound as often as there are elements. -/
theorem sum_bounds {bound : ℤ} {xs : List ℤ} (h : ∀ x ∈ xs, 0 ≤ x ∧ x ≤ bound) :
    0 ≤ xs.sum ∧ xs.sum ≤ xs.length * bound := by
  induction xs with
  | nil => simp
  | cons x xs ih =>
    obtain ⟨hx, hxs⟩ := List.forall_mem_cons.mp h
    have hrest := ih hxs
    rw [List.sum_cons, List.length_cons, Int.natCast_succ, Int.add_mul]
    omega

omit [DecidablePred InRange] in
/-- They stay in a range that holds the bound as often as there are elements. -/
theorem within_of_bounded {bound : ℤ} {xs : List ℤ} (hbound : 0 ≤ bound)
    (hrange : ∀ x, 0 ≤ x → x ≤ xs.length * bound → InRange x)
    (h : ∀ x ∈ xs, 0 ≤ x ∧ x ≤ bound) : Within InRange 0 xs := by
  intro pre hpre
  obtain ⟨hlow, hhigh⟩ := sum_bounds fun x hx ↦ h x (hpre.subset hx)
  have hlen : (pre.length : ℤ) * bound ≤ xs.length * bound :=
    Int.mul_le_mul_of_nonneg_right (Int.ofNat_le.mpr hpre.length_le) hbound
  rw [Int.zero_add]
  exact hrange _ hlow (hhigh.trans hlen)

end RunningSum
