import Mathlib.Algebra.Order.Group.Nat
import Mathlib.Data.List.Basic

/-!
# Hash trees

General support: binary trees whose root digest commits to their leaves, and the tree that a list
grows into when neighbours are paired layer by layer and an odd last one is paired with itself.
Equal roots mean equal trees, up to the four ways in which hashing can be fooled.
-/

universe u v w

/-- A binary tree with values at its leaves. -/
inductive HashTree (α : Type u) where
  | leaf (a : α)
  | node (left right : HashTree α)
  deriving DecidableEq

namespace HashTree

variable {α : Type u} {β : Type v} {δ : Type w}

/-- The values at the leaves, from left to right. -/
def leaves : HashTree α → List α
  | leaf a => [a]
  | node left right => left.leaves ++ right.leaves

/-! ## Digests -/

section Digest

variable (hash : β → δ) (encode : α → β) (join : δ → δ → β)

/-- Hash of a leaf's encoding, or of the joined digests of the two children. -/
def digest : HashTree α → δ
  | leaf a => hash (encode a)
  | node left right => hash (join left.digest right.digest)

/-- What is hashed at the inner nodes. -/
def joins : HashTree α → List β
  | leaf _ => []
  | node left right =>
    join (left.digest hash encode join) (right.digest hash encode join) ::
      (left.joins ++ right.joins)

/-- Two of the values differ and have the same hash. -/
def Collision (hashed : List β) : Prop := ∃ x ∈ hashed, ∃ y ∈ hashed, x ≠ y ∧ hash x = hash y

/-- Why the hashes of two families of leaves and inner nodes need not tell them apart. -/
inductive Confusion (as bs : List α) (js ks : List β) : Prop
  | collision (h : Collision hash (as.map encode ++ js ++ (bs.map encode ++ ks)))
  | leafAsNode {a : α} (ha : a ∈ as) (h : encode a ∈ ks)
  | nodeAsLeaf {b : α} (hb : b ∈ bs) (h : encode b ∈ js)
  | alike {a b : α} (ha : a ∈ as) (hb : b ∈ bs) (hne : a ≠ b) (h : encode a = encode b)

variable {hash encode join}

theorem Collision.subset {hashed hashed' : List β} (h : Collision hash hashed)
    (hsub : hashed ⊆ hashed') : Collision hash hashed' := by
  obtain ⟨x, hx, y, hy, hne, heq⟩ := h
  exact ⟨x, hsub hx, y, hsub hy, hne, heq⟩

/-- Larger families are confused as well. -/
theorem Confusion.subset {as as' bs bs' : List α} {js js' ks ks' : List β}
    (h : Confusion hash encode as bs js ks) (has : as ⊆ as') (hbs : bs ⊆ bs') (hjs : js ⊆ js')
    (hks : ks ⊆ ks') : Confusion hash encode as' bs' js' ks' := by
  cases h with
  | collision h =>
    refine .collision (h.subset (List.append_subset.mpr ⟨?_, ?_⟩))
    · exact List.Subset.trans (List.append_subset.mpr
        ⟨fun x hx ↦ List.mem_append_left _ (List.map_subset _ has hx),
          fun x hx ↦ List.mem_append_right _ (hjs hx)⟩) (List.subset_append_left _ _)
    · exact List.Subset.trans (List.append_subset.mpr
        ⟨fun x hx ↦ List.mem_append_left _ (List.map_subset _ hbs hx),
          fun x hx ↦ List.mem_append_right _ (hks hx)⟩) (List.subset_append_right _ _)
  | leafAsNode ha h => exact .leafAsNode (has ha) (hks h)
  | nodeAsLeaf hb h => exact .nodeAsLeaf (hbs hb) (hjs h)
  | alike ha hb hne h => exact .alike (has ha) (hbs hb) hne h

/-- Trees with equal digests are equal, or the hashes are fooled somewhere in them. -/
theorem eq_or_confusion_of_digest_eq
    (hjoin : ∀ {a b c d : δ}, join a b = join c d → a = c ∧ b = d) {s t : HashTree α}
    (h : s.digest hash encode join = t.digest hash encode join) :
    s = t ∨ Confusion hash encode s.leaves t.leaves (s.joins hash encode join)
      (t.joins hash encode join) := by
  induction s generalizing t with
  | leaf a =>
    cases t with
    | leaf b =>
      by_cases hvalue : a = b
      · exact .inl (congrArg leaf hvalue)
      by_cases heq : encode a = encode b
      · exact .inr (.alike (List.mem_singleton_self a) (List.mem_singleton_self b) hvalue heq)
      · exact .inr (.collision ⟨encode a, by simp [leaves], encode b, by simp [leaves], heq, h⟩)
    | node left right =>
      by_cases heq : encode a = join (left.digest hash encode join) (right.digest hash encode join)
      · exact .inr (.leafAsNode (List.mem_singleton_self a) (by simp [joins, heq]))
      · exact .inr (.collision ⟨encode a, by simp [leaves], _, by simp [joins], heq, h⟩)
  | node left right ihl ihr =>
    cases t with
    | leaf b =>
      by_cases heq : join (left.digest hash encode join) (right.digest hash encode join) = encode b
      · exact .inr (.nodeAsLeaf (List.mem_singleton_self b) (by simp [joins, heq]))
      · exact .inr (.collision ⟨_, by simp [joins], encode b, by simp [leaves], heq, h⟩)
    | node left' right' =>
      by_cases heq : join (left.digest hash encode join) (right.digest hash encode join) =
        join (left'.digest hash encode join) (right'.digest hash encode join)
      · obtain ⟨hleft, hright⟩ := hjoin heq
        rcases ihl hleft with rfl | hconf
        · rcases ihr hright with rfl | hconf
          · exact .inl rfl
          · refine .inr (hconf.subset (List.subset_append_right _ _)
              (List.subset_append_right _ _) ?_ ?_)
            · exact List.subset_cons_of_subset _ (List.subset_append_right _ _)
            · exact List.subset_cons_of_subset _ (List.subset_append_right _ _)
        · refine .inr (hconf.subset (List.subset_append_left _ _)
            (List.subset_append_left _ _) ?_ ?_)
          · exact List.subset_cons_of_subset _ (List.subset_append_left _ _)
          · exact List.subset_cons_of_subset _ (List.subset_append_left _ _)
      · exact .inr (.collision ⟨_, by simp [joins], _, by simp [joins], heq, h⟩)

end Digest

/-! ## The tree of a list -/

/-- One layer up: neighbours under one node, an odd last one under a node with itself. -/
def pairUp : List (HashTree α) → List (HashTree α)
  | [] => []
  | [t] => [node t t]
  | left :: right :: rest => node left right :: pairUp rest

/-- Layer by layer until one tree is left. -/
def pairLoop : Nat → List (HashTree α) → List (HashTree α)
  | 0, layer => layer
  | fuel + 1, layer => if layer.length > 1 then pairLoop fuel (pairUp layer) else layer

/-- The tree over a list, alone in its layer. -/
def paired (xs : List α) : List (HashTree α) := pairLoop xs.length (xs.map leaf)

/-- The leaves of the tree over a list: the list, completed by what the odd layers repeat. -/
def completed (xs : List α) : List α := (paired xs).flatMap leaves

example : completed [1, 2, 3, 4, 5] = [1, 2, 3, 4, 5, 5, 5, 5] := by decide

theorem length_pairUp : ∀ layer : List (HashTree α),
    (pairUp layer).length = (layer.length + 1) / 2
  | [] => by simp [pairUp]
  | [_] => by simp [pairUp]
  | _ :: _ :: rest => by
    simp only [pairUp, List.length_cons, length_pairUp rest]
    omega

theorem pairLoop_eq_singleton {fuel : Nat} {layer : List (HashTree α)} (hne : layer ≠ [])
    (hle : layer.length ≤ fuel) : ∃ t, pairLoop fuel layer = [t] := by
  have hpos := List.length_pos_iff.mpr hne
  induction fuel generalizing layer with
  | zero => omega
  | succ fuel ih =>
    rw [pairLoop]
    have hlen := length_pairUp layer
    split
    · next hlong =>
      have hup : 0 < (pairUp layer).length := by omega
      exact ih (List.length_pos_iff.mp hup) (by omega) hup
    · next hshort => exact List.length_eq_one_iff.mp (by omega)

/-- A list that is not empty has one tree. -/
theorem paired_eq_singleton {xs : List α} (h : xs ≠ []) : ∃ t, paired xs = [t] :=
  pairLoop_eq_singleton (by simpa using h) (Nat.le_of_eq (List.length_map _))

theorem leaves_prefix_pairUp : ∀ layer : List (HashTree α),
    layer.flatMap leaves <+: (pairUp layer).flatMap leaves
  | [] => List.prefix_rfl
  | [t] => ⟨t.leaves, by simp [pairUp, leaves]⟩
  | left :: right :: rest => by
    obtain ⟨more, hmore⟩ := leaves_prefix_pairUp rest
    exact ⟨more, by simp [pairUp, leaves, ← hmore]⟩

theorem leaves_prefix_pairLoop (fuel : Nat) (layer : List (HashTree α)) :
    layer.flatMap leaves <+: (pairLoop fuel layer).flatMap leaves := by
  induction fuel generalizing layer with
  | zero => exact List.prefix_rfl
  | succ fuel ih =>
    rw [pairLoop]
    split
    · exact (leaves_prefix_pairUp layer).trans (ih (pairUp layer))
    · exact List.prefix_rfl

theorem flatMap_leaves_map_leaf (xs : List α) : (xs.map leaf).flatMap leaves = xs := by
  rw [List.flatMap_map]
  exact List.flatMap_singleton' xs

/-- The completed list starts with the list. -/
theorem prefix_completed (xs : List α) : xs <+: completed xs := by
  have h := leaves_prefix_pairLoop xs.length (xs.map leaf)
  rwa [flatMap_leaves_map_leaf] at h

theorem leaves_pairUp_subset : ∀ layer : List (HashTree α),
    (pairUp layer).flatMap leaves ⊆ layer.flatMap leaves
  | [] => List.Subset.refl _
  | [t] => by simp [pairUp, leaves]
  | left :: right :: rest => by
    have hrest := leaves_pairUp_subset rest
    intro a ha
    simp only [pairUp, leaves, List.flatMap_cons, List.append_assoc, List.mem_append] at ha ⊢
    rcases ha with hleft | hright | hmore
    · exact .inl hleft
    · exact .inr (.inl hright)
    · exact .inr (.inr (hrest hmore))

/-- Nothing is added to a list but repetitions. -/
theorem completed_subset (xs : List α) : completed xs ⊆ xs := by
  have hloop : ∀ fuel (layer : List (HashTree α)),
      (pairLoop fuel layer).flatMap leaves ⊆ layer.flatMap leaves := by
    intro fuel
    induction fuel with
    | zero => exact fun layer ↦ List.Subset.refl _
    | succ fuel ih =>
      intro layer
      rw [pairLoop]
      split
      · exact List.Subset.trans (ih (pairUp layer)) (leaves_pairUp_subset layer)
      · exact List.Subset.refl _
  have h := hloop xs.length (xs.map leaf)
  rwa [flatMap_leaves_map_leaf] at h

/-- Lists of one length are completed differently unless they are equal. -/
theorem eq_of_completed_eq {xs ys : List α} (h : completed xs = completed ys)
    (hlen : xs.length = ys.length) : xs = ys :=
  List.IsPrefix.eq_of_length
    (List.prefix_of_prefix_length_le (prefix_completed xs) (h ▸ prefix_completed ys)
      (Nat.le_of_eq hlen)) hlen

/-! ## Layers of full trees -/

/-- Every leaf is at this depth. -/
def Full : Nat → HashTree α → Prop
  | 0, leaf _ => True
  | depth + 1, node left right => left.Full depth ∧ right.Full depth
  | _, _ => False

theorem Full.length_leaves {depth : Nat} {t : HashTree α} (h : t.Full depth) :
    t.leaves.length = 2 ^ depth := by
  induction t generalizing depth with
  | leaf a =>
    cases depth with
    | zero => rfl
    | succ depth => exact h.elim
  | node left right ihl ihr =>
    cases depth with
    | zero => exact h.elim
    | succ depth =>
      rw [leaves, List.length_append, ihl h.1, ihr h.2, Nat.pow_succ]
      omega

/-- Full trees with the same leaves are equal. -/
theorem Full.eq_of_leaves_eq {depth depth' : Nat} {s t : HashTree α} (hs : s.Full depth)
    (ht : t.Full depth') (h : s.leaves = t.leaves) : s = t := by
  have hpow : 2 ^ depth = 2 ^ depth' := by rw [← hs.length_leaves, ← ht.length_leaves, h]
  obtain rfl := (Nat.pow_right_inj (by decide)).mp hpow
  clear hpow
  induction s generalizing depth t with
  | leaf a =>
    cases depth with
    | succ depth => exact hs.elim
    | zero =>
      cases t with
      | node left right => exact ht.elim
      | leaf b => exact congrArg leaf (List.singleton_inj.mp h)
  | node left right ihl ihr =>
    cases depth with
    | zero => exact hs.elim
    | succ depth =>
      cases t with
      | leaf b => exact ht.elim
      | node left' right' =>
        have hlen : left.leaves.length = left'.leaves.length := by
          rw [hs.1.length_leaves, ht.1.length_leaves]
        obtain ⟨hl, hr⟩ := List.append_inj h hlen
        rw [ihl hs.1 hl ht.1, ihr hs.2 hr ht.2]

theorem full_pairUp {depth : Nat} : ∀ {layer : List (HashTree α)}, (∀ t ∈ layer, t.Full depth) →
    ∀ t ∈ pairUp layer, t.Full (depth + 1)
  | [], _ => by simp [pairUp]
  | [t], h => by
    have ht := h t List.mem_cons_self
    exact List.forall_mem_singleton.mpr ⟨ht, ht⟩
  | left :: right :: rest, h => by
    obtain ⟨hleft, hright, hrest⟩ := by simpa only [List.forall_mem_cons] using h
    exact List.forall_mem_cons.mpr ⟨⟨hleft, hright⟩, full_pairUp hrest⟩

theorem full_pairLoop {fuel depth : Nat} {layer : List (HashTree α)}
    (h : ∀ t ∈ layer, t.Full depth) : ∃ depth', ∀ t ∈ pairLoop fuel layer, t.Full depth' := by
  induction fuel generalizing depth layer with
  | zero => exact ⟨depth, h⟩
  | succ fuel ih =>
    rw [pairLoop]
    split
    · exact ih (full_pairUp h)
    · exact ⟨depth, h⟩

/-- Lists grow into the same tree exactly when they are completed to the same list. -/
theorem completed_eq_iff {xs ys : List α} (hx : xs ≠ []) (hy : ys ≠ []) :
    completed xs = completed ys ↔ paired xs = paired ys := by
  constructor
  · intro h
    obtain ⟨s, hs⟩ := paired_eq_singleton hx
    obtain ⟨t, ht⟩ := paired_eq_singleton hy
    obtain ⟨depth, hfull⟩ : ∃ depth, ∀ s ∈ paired xs, s.Full depth :=
      @full_pairLoop _ _ 0 _ (by simp [Full])
    obtain ⟨depth', hfull'⟩ : ∃ depth, ∀ t ∈ paired ys, t.Full depth :=
      @full_pairLoop _ _ 0 _ (by simp [Full])
    rw [completed, completed, hs, ht, List.flatMap_singleton, List.flatMap_singleton] at h
    rw [hs] at hfull
    rw [ht] at hfull'
    rw [hs, ht, (hfull s (List.mem_singleton_self s)).eq_of_leaves_eq
      (hfull' t (List.mem_singleton_self t)) h]
  · intro h
    rw [completed, completed, h]

end HashTree
