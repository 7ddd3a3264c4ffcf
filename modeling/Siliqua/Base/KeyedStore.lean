import Mathlib.Data.Finmap
import Mathlib.Algebra.BigOperators.Group.Multiset.Basic
import Mathlib.Algebra.Order.BigOperators.Group.Multiset
import Mathlib.Algebra.Order.Group.Int
import Mathlib.Algebra.Ring.Int.Defs
import Mathlib.Data.List.Nodup

/-!
# Finite maps with insertion of absent keys

General support: a finite map whose insertion never overwrites, the way `emplace` of an
ordered or hashed container behaves, with bulk insertion, bulk erasure and the sum of a
measure over the stored values. Nothing here depends on what the keys and values are.
-/

namespace KeyedStore

universe u v

variable {K : Type u} {V : Type v}

/-- A finite map from `K` to `V`; equality is equality of the maps. -/
abbrev Store (K : Type u) (V : Type v) := Finmap (fun _ : K ↦ V)

/-- The bindings whose value satisfies a test. -/
def restrict (p : V → Bool) (m : Store K V) : Store K V :=
  ⟨m.entries.filter fun e ↦ p e.2,
    Multiset.nodup_keys.mp <|
      Multiset.nodup_of_le (Multiset.map_le_map (Multiset.filter_le _ _))
        (Multiset.nodup_keys.mpr m.nodupKeys)⟩

variable [DecidableEq K]

/-- Insert a value at an absent key; a present key keeps its value. -/
def emplace (m : Store K V) (k : K) (v : V) : Store K V :=
  if k ∈ m then m else m.insert k v

/-- Insert a list of keyed values from left to right, each only at an absent key. -/
def emplaceAll (m : Store K V) (kvs : List (K × V)) : Store K V :=
  kvs.foldl (fun m kv ↦ emplace m kv.1 kv.2) m

/-- Erase every key of a list; absent keys are ignored. -/
def eraseAll (m : Store K V) (ks : List K) : Store K V :=
  ks.foldl (fun m k ↦ m.erase k) m

/-- Sum of a measure over all stored values. -/
def total (f : V → ℤ) (m : Store K V) : ℤ := (m.entries.map (fun e ↦ f e.2)).sum

/-! ## Lookup after an update -/

/-- A present key keeps its value, the new key gets the new one. -/
theorem lookup_emplace (m : Store K V) (k a : K) (v : V) :
    (emplace m k v).lookup a = (m.lookup a).or (if a = k then some v else none) := by
  unfold emplace
  split
  · next h =>
    by_cases ha : a = k
    · subst ha
      obtain ⟨w, hw⟩ := Finmap.mem_iff.mp h
      simp [hw]
    · simp [ha]
  · next h =>
    by_cases ha : a = k
    · subst ha
      simp [Finmap.lookup_insert, Finmap.lookup_eq_none.mpr h]
    · simp [Finmap.lookup_insert_of_ne _ ha, ha]

/-- Bulk insertion keeps what was there, then takes the first listed value. -/
theorem lookup_emplaceAll (m : Store K V) (kvs : List (K × V)) (a : K) :
    (emplaceAll m kvs).lookup a = (m.lookup a).or (kvs.lookup a) := by
  induction kvs generalizing m with
  | nil => simp [emplaceAll]
  | cons kv rest ih =>
    change (emplaceAll (emplace m kv.1 kv.2) rest).lookup a = _
    rw [ih, lookup_emplace, List.lookup_cons]
    by_cases ha : a = kv.1
    · cases m.lookup a <;> simp [ha]
    · have hb : (a == kv.1) = false := beq_eq_false_iff_ne.mpr ha
      cases m.lookup a <;> simp [ha, hb]

/-- Bulk erasure removes exactly the listed keys. -/
theorem lookup_eraseAll (m : Store K V) (ks : List K) (a : K) :
    (eraseAll m ks).lookup a = if a ∈ ks then none else m.lookup a := by
  induction ks generalizing m with
  | nil => simp [eraseAll]
  | cons k rest ih =>
    change (eraseAll (m.erase k) rest).lookup a = _
    rw [ih]
    by_cases hr : a ∈ rest
    · simp [hr]
    · by_cases ha : a = k
      · subst ha
        simp [hr, Finmap.lookup_erase]
      · simp [hr, ha, Finmap.lookup_erase_ne ha]

/-- Keys after bulk insertion: the old ones and the listed ones. -/
theorem mem_emplaceAll {m : Store K V} {kvs : List (K × V)} {a : K} :
    a ∈ emplaceAll m kvs ↔ a ∈ m ∨ a ∈ kvs.map Prod.fst := by
  induction kvs generalizing m with
  | nil => simp [emplaceAll]
  | cons kv rest ih =>
    change a ∈ emplaceAll (emplace m kv.1 kv.2) rest ↔ _
    rw [ih, ← Finmap.lookup_isSome, lookup_emplace, List.map_cons, List.mem_cons,
      ← Finmap.lookup_isSome]
    by_cases ha : a = kv.1
    · simp [ha]
    · simp [ha]

/-- Keys after bulk erasure: the old ones without the listed ones. -/
theorem mem_eraseAll {m : Store K V} {ks : List K} {a : K} :
    a ∈ eraseAll m ks ↔ a ∈ m ∧ a ∉ ks := by
  rw [← Finmap.lookup_isSome, lookup_eraseAll, ← Finmap.lookup_isSome]
  by_cases h : a ∈ ks <;> simp [h]

/-- A listed pair whose key is looked up in an association list is one of its entries. -/
theorem mem_of_lookup_eq_some {kvs : List (K × V)} {a : K} {v : V}
    (h : kvs.lookup a = some v) : (a, v) ∈ kvs := by
  induction kvs with
  | nil => simp at h
  | cons kv rest ih =>
    rw [List.lookup_cons] at h
    by_cases ha : a = kv.1
    · have hb : (a == kv.1) = true := beq_iff_eq.mpr ha
      simp only [hb, Option.some.injEq] at h
      subst h ha
      exact List.mem_cons_self
    · have hb : (a == kv.1) = false := beq_eq_false_iff_ne.mpr ha
      simp only [hb] at h
      exact List.mem_cons_of_mem _ (ih h)

/-! ## Restricting a store -/

/-- The restriction keeps the bindings whose value passes the test. -/
theorem lookup_restrict_eq_some {p : V → Bool} {m : Store K V} {k : K} {v : V} :
    (restrict p m).lookup k = some v ↔ m.lookup k = some v ∧ p v = true := by
  rw [Finmap.lookup_eq_some_iff, Finmap.lookup_eq_some_iff, restrict, Multiset.mem_filter]

/-! ## Iteration orders -/

/-- The list walks over the store: every binding once, in some order. -/
def Enumerates (m : Store K V) (kvs : List (K × V)) : Prop :=
  (kvs.map Prod.fst).Nodup ∧ ∀ k v, (k, v) ∈ kvs ↔ m.lookup k = some v

/-- In a list without repeated keys the lookup finds every entry. -/
theorem lookup_eq_some_iff_mem {kvs : List (K × V)} (hd : (kvs.map Prod.fst).Nodup) {k : K}
    {v : V} : kvs.lookup k = some v ↔ (k, v) ∈ kvs := by
  refine ⟨mem_of_lookup_eq_some, fun hm ↦ ?_⟩
  induction kvs with
  | nil => cases hm
  | cons kv rest ih =>
    rw [List.map_cons, List.nodup_cons] at hd
    rw [List.lookup_cons]
    rcases List.mem_cons.mp hm with rfl | hrest
    · rw [beq_self_eq_true]
    · have hne : k ≠ kv.1 := by
        rintro rfl
        exact hd.1 (List.mem_map.mpr ⟨(kv.1, v), hrest, rfl⟩)
      rw [beq_eq_false_iff_ne.mpr hne]
      exact ih hd.2 hrest

/-- Inserting the entries of a walk into an empty store rebuilds it. -/
theorem Enumerates.emplaceAll_empty {m : Store K V} {kvs : List (K × V)} (h : Enumerates m kvs) :
    emplaceAll ∅ kvs = m := by
  apply Finmap.ext_lookup
  intro k
  rw [lookup_emplaceAll, Finmap.lookup_empty, Option.none_or]
  ext v
  rw [lookup_eq_some_iff_mem h.1, h.2]

/-- A list without repeated keys walks over the store it builds. -/
theorem enumerates_emplaceAll {kvs : List (K × V)} (hd : (kvs.map Prod.fst).Nodup) :
    Enumerates (emplaceAll ∅ kvs) kvs := by
  refine ⟨hd, fun k v ↦ ?_⟩
  rw [lookup_emplaceAll, Finmap.lookup_empty, Option.none_or, lookup_eq_some_iff_mem hd]

/-! ## Insertions that take effect -/

/-- Each emplacement, in turn, finds its key absent. -/
def AllInserted (m : Store K V) : List (K × V) → Prop
  | [] => True
  | kv :: rest => kv.1 ∉ m ∧ AllInserted (emplace m kv.1 kv.2) rest

/-- Emplacements all insert when their keys are new and differ. -/
theorem allInserted_of_nodup {m : Store K V} {kvs : List (K × V)}
    (hd : (kvs.map Prod.fst).Nodup) (hnew : ∀ kv ∈ kvs, kv.1 ∉ m) : AllInserted m kvs := by
  induction kvs generalizing m with
  | nil => trivial
  | cons kv rest ih =>
    rw [List.map_cons, List.nodup_cons] at hd
    obtain ⟨hkv, hrest⟩ := List.forall_mem_cons.mp hnew
    refine ⟨hkv, ih hd.2 fun e he hm ↦ ?_⟩
    have hne : e.1 ≠ kv.1 := fun heq ↦ hd.1 (heq ▸ List.mem_map_of_mem he)
    rw [← Finmap.lookup_isSome, lookup_emplace, if_neg hne, Option.or_none,
      Finmap.lookup_isSome] at hm
    exact hrest e he hm

/-! ## Restriction of one store to another -/

/-- Every binding of the first store is a binding of the second. -/
def Sub (m n : Store K V) : Prop := ∀ k v, m.lookup k = some v → n.lookup k = some v

theorem Sub.trans {l m n : Store K V} (h : Sub l m) (h' : Sub m n) : Sub l n :=
  fun k v hl ↦ h' k v (h k v hl)

/-- The two stores differ at most at keys in the set. -/
def AgreeOff (S : Set K) (m n : Store K V) : Prop := ∀ k, k ∉ S → m.lookup k = n.lookup k

/-! ## Sums over a store -/

/-- A measure that is not negative on the stored values has no negative sum. -/
theorem total_nonneg (f : V → ℤ) {m : Store K V} (h : ∀ k v, m.lookup k = some v → 0 ≤ f v) :
    0 ≤ total f m := by
  apply Multiset.sum_nonneg
  intro x hx
  obtain ⟨⟨k, v⟩, he, rfl⟩ := Multiset.mem_map.mp hx
  exact h k v (Finmap.mem_lookup_iff.mpr he)

/-- Inserting at an absent key adds the measure of the value. -/
theorem total_insert (f : V → ℤ) {m : Store K V} {k : K} (v : V) (h : k ∉ m) :
    total f (m.insert k v) = f v + total f m := by
  rw [total, total, Finmap.entries_insert_of_notMem h, Multiset.map_cons, Multiset.sum_cons]

/-- Erasing a present key takes away the measure of its value. -/
theorem total_erase (f : V → ℤ) {m : Store K V} {k : K} {v : V} (h : m.lookup k = some v) :
    total f (m.erase k) = total f m - f v := by
  have hback : (m.erase k).insert k v = m := by
    apply Finmap.ext_lookup
    intro a
    by_cases ha : a = k
    · subst ha
      rw [Finmap.lookup_insert, h]
    · rw [Finmap.lookup_insert_of_ne _ ha, Finmap.lookup_erase_ne ha]
  have hins := total_insert f v (Finmap.notMem_erase_self (a := k) (s := m))
  rw [hback] at hins
  omega

/-- Measure of the value at a key, zero where the key is absent. -/
def valueAt (f : V → ℤ) (m : Store K V) (k : K) : ℤ := ((m.lookup k).map f).getD 0

/-- Erasing one key leaves the measure at every other key. -/
theorem valueAt_erase_ne (f : V → ℤ) {m : Store K V} {k a : K} (h : a ≠ k) :
    valueAt f (m.erase k) a = valueAt f m a := by
  rw [valueAt, valueAt, Finmap.lookup_erase_ne h]

/-- Erasing a key takes away the measure held there. -/
theorem total_erase_eq (f : V → ℤ) (m : Store K V) (k : K) :
    total f (m.erase k) = total f m - valueAt f m k := by
  cases hl : m.lookup k with
  | some v => simpa [valueAt, hl] using total_erase f hl
  | none =>
    have hsame : m.erase k = m := by
      apply Finmap.ext_lookup
      intro a
      by_cases ha : a = k
      · rw [ha, Finmap.lookup_erase, hl]
      · exact Finmap.lookup_erase_ne ha
    simp [valueAt, hl, hsame]

/-- The keys of a list that are listed again further on. -/
def repeated : List K → List K
  | [] => []
  | k :: rest => if k ∈ rest then k :: repeated rest else repeated rest

theorem repeated_sublist : ∀ ks : List K, (repeated ks).Sublist ks
  | [] => List.Sublist.refl []
  | k :: rest => by
    rw [repeated]
    split
    · exact (repeated_sublist rest).cons_cons k
    · exact (repeated_sublist rest).cons k

theorem repeated_eq_nil {ks : List K} (h : ks.Nodup) : repeated ks = [] := by
  induction ks with
  | nil => rfl
  | cons k rest ih =>
    obtain ⟨hk, hrest⟩ := List.nodup_cons.mp h
    rw [repeated, if_neg hk, ih hrest]

/-- Erasing a list takes away the sum of the measures held at its keys, each of them once. -/
theorem total_eraseAll_add_repeated (f : V → ℤ) (m : Store K V) (ks : List K) :
    total f (eraseAll m ks) + (ks.map (valueAt f m)).sum =
      total f m + ((repeated ks).map (valueAt f m)).sum := by
  induction ks generalizing m with
  | nil => rfl
  | cons k rest ih =>
    rw [repeated, List.map_cons, List.sum_cons]
    split
    · next hk =>
      have hsame : eraseAll m (k :: rest) = eraseAll m rest := by
        apply Finmap.ext_lookup
        intro a
        rw [lookup_eraseAll, lookup_eraseAll]
        by_cases ha : a ∈ rest
        · rw [if_pos (List.mem_cons_of_mem k ha), if_pos ha]
        · have hne : a ≠ k := fun heq ↦ ha (heq ▸ hk)
          rw [if_neg (by simp [ha, hne]), if_neg ha]
      have hrest := ih m
      rw [hsame, List.map_cons, List.sum_cons]
      omega
    · next hk =>
      have hkeep : ∀ ks : List K, k ∉ ks → ks.map (valueAt f (m.erase k)) = ks.map (valueAt f m) :=
        fun ks hks ↦ List.map_congr_left fun a ha ↦ valueAt_erase_ne f fun heq ↦ hks (heq ▸ ha)
      have hrest := ih (m.erase k)
      rw [hkeep rest hk, hkeep _ fun hmem ↦ hk ((repeated_sublist rest).subset hmem),
        total_erase_eq] at hrest
      change total f (eraseAll (m.erase k) rest) + _ = _
      omega

/-- Erasing distinct keys takes away the sum of the measures held there. -/
theorem total_eraseAll (f : V → ℤ) {m : Store K V} {ks : List K} (hd : ks.Nodup) :
    total f (eraseAll m ks) = total f m - (ks.map (valueAt f m)).sum := by
  have h := total_eraseAll_add_repeated f m ks
  rw [repeated_eq_nil hd, List.map_nil, List.sum_nil] at h
  omega

/-- Inserting at distinct keys adds at most the sum of the measures: a value that is dropped
because its key is present must not have a negative measure. -/
theorem total_emplaceAll_le (f : V → ℤ) {m : Store K V} {kvs : List (K × V)}
    (hd : (kvs.map Prod.fst).Nodup) (hn : ∀ kv ∈ kvs, f kv.2 < 0 → kv.1 ∉ m) :
    total f (emplaceAll m kvs) ≤ total f m + (kvs.map (fun kv ↦ f kv.2)).sum := by
  induction kvs generalizing m with
  | nil => simp [emplaceAll]
  | cons kv rest ih =>
    rw [List.map_cons, List.nodup_cons] at hd
    have hkv : f kv.2 < 0 → kv.1 ∉ m := hn kv List.mem_cons_self
    have hstep : total f (emplace m kv.1 kv.2) ≤ total f m + f kv.2 := by
      unfold emplace
      split
      · next hk =>
        have hpos : ¬ f kv.2 < 0 := fun hneg ↦ hkv hneg hk
        omega
      · next hk => rw [total_insert f kv.2 hk]; omega
    have hrest : ∀ e ∈ rest, f e.2 < 0 → e.1 ∉ emplace m kv.1 kv.2 := by
      intro e he hneg hm
      rw [← Finmap.lookup_isSome, lookup_emplace] at hm
      have hne : e.1 ≠ kv.1 := fun heq ↦ hd.1 (heq ▸ List.mem_map_of_mem he)
      have hold := hn e (List.mem_cons_of_mem _ he) hneg
      simp [hne, Finmap.lookup_eq_none.mpr hold] at hm
    have hrec := ih hd.2 hrest
    change total f (emplaceAll (emplace m kv.1 kv.2) rest) ≤ _
    rw [List.map_cons, List.sum_cons]
    omega

/-- Insertions that all take effect add the sum of their measures. -/
theorem total_emplaceAll (f : V → ℤ) {m : Store K V} {kvs : List (K × V)}
    (h : AllInserted m kvs) :
    total f (emplaceAll m kvs) = total f m + (kvs.map (fun kv ↦ f kv.2)).sum := by
  induction kvs generalizing m with
  | nil => simp [emplaceAll]
  | cons kv rest ih =>
    obtain ⟨hkv, hrest⟩ := h
    have hone : total f (emplace m kv.1 kv.2) = f kv.2 + total f m := by
      rw [emplace, if_neg hkv, total_insert f kv.2 hkv]
    change total f (emplaceAll (emplace m kv.1 kv.2) rest) = _
    rw [ih hrest, hone, List.map_cons, List.sum_cons]
    omega

omit [DecidableEq K] in
/-- Summing over a restriction counts the other values as zero. -/
theorem total_restrict (f : V → ℤ) (p : V → Bool) (m : Store K V) :
    total f (restrict p m) = total (fun v ↦ if p v then f v else 0) m := by
  change ((m.entries.filter fun e ↦ p e.2).map fun e ↦ f e.2).sum = _
  rw [total]
  induction m.entries using Multiset.induction_on with
  | empty => rfl
  | cons e rest ih =>
    rw [Multiset.map_cons, Multiset.sum_cons, ← ih]
    by_cases he : p e.2 = true
    · rw [Multiset.filter_cons_of_pos rest (p := fun e ↦ p e.2 = true) he, Multiset.map_cons,
        Multiset.sum_cons, if_pos he]
    · rw [Multiset.filter_cons_of_neg rest (p := fun e ↦ p e.2 = true) he, if_neg he, zero_add]

end KeyedStore
