import Siliqua.Base.KeyedStore
import Siliqua.Base.Splits

/-!
# Journals of creations and removals

General support: a journal is a list of entries, each removing some keys and creating keyed
values. Playing it entry by entry and settling it in two passes (create everything, then
remove everything named) are compared: when they agree, and what survives in both.
-/

namespace Journal

open KeyedStore Splits

universe u v

/-- One journal entry: the keys it removes when played in order, all keys it names, and the
keyed values it creates. -/
structure Entry (K : Type u) (V : Type v) where
  spends : List K
  names : List K
  creates : List (K × V)

variable {K : Type u} {V : Type v}

/-- The key is created by the entry. -/
def Entry.Makes (e : Entry K V) (k : K) : Prop := k ∈ e.creates.map Prod.fst

/-- Every creation of the key is followed by a strictly later removal. -/
def Gone (es : List (Entry K V)) (k : K) : Prop :=
  ∀ pre e post, es = pre ++ e :: post → e.Makes k → ∃ e' ∈ post, k ∈ e'.spends

/-- A journal without entries has created nothing. -/
theorem gone_nil (k : K) : Gone ([] : List (Entry K V)) k := by
  intro pre e post h
  simp at h

variable [DecidableEq K]

/-- Play one entry: remove what it spends, then create at absent keys. -/
def play (m : Store K V) (e : Entry K V) : Store K V :=
  emplaceAll (eraseAll m e.spends) e.creates

/-- Play a journal from left to right. -/
def replay (m : Store K V) (es : List (Entry K V)) : Store K V := es.foldl play m

/-- Settle a journal in two passes: create everything, then remove every named key. -/
def settle (es : List (Entry K V)) : Store K V :=
  eraseAll (emplaceAll ∅ (es.flatMap Entry.creates)) (es.flatMap Entry.names)

/-! ## One entry -/

theorem replay_append (m : Store K V) (es fs : List (Entry K V)) :
    replay m (es ++ fs) = replay (replay m es) fs := List.foldl_append

theorem replay_concat (m : Store K V) (es : List (Entry K V)) (e : Entry K V) :
    replay m (es ++ [e]) = play (replay m es) e := by
  rw [replay_append]
  rfl

/-- A key is present after an entry when it is created there, or survives it. -/
theorem mem_play {m : Store K V} {e : Entry K V} {k : K} :
    k ∈ play m e ↔ (k ∈ m ∧ k ∉ e.spends) ∨ e.Makes k := by
  rw [play, mem_emplaceAll, mem_eraseAll, Entry.Makes]

/-- Lookup after an entry: a surviving value, else the first one created. -/
theorem lookup_play (m : Store K V) (e : Entry K V) (k : K) :
    (play m e).lookup k =
      (if k ∈ e.spends then none else m.lookup k).or (e.creates.lookup k) := by
  rw [play, lookup_emplaceAll, lookup_eraseAll]

/-- An entry that removes nothing only adds to a store. -/
theorem sub_play {m : Store K V} {e : Entry K V} (h : e.spends = []) : Sub m (play m e) := by
  intro k v hl
  rw [lookup_play, h, hl]
  rfl

/-- An entry keeps two stores in agreement off a set of keys. -/
theorem agreeOff_play {S : Set K} {m n : Store K V} (h : AgreeOff S m n) (e : Entry K V) :
    AgreeOff S (play m e) (play n e) := by
  intro k hk
  rw [lookup_play, lookup_play, h k hk]

/-! ## Whole journals -/

/-- One more entry keeps a key gone when it does not create it and removes it if needed. -/
theorem gone_concat {es : List (Entry K V)} {e : Entry K V} {k : K} :
    Gone (es ++ [e]) k ↔ ¬ e.Makes k ∧ (Gone es k ∨ k ∈ e.spends) := by
  rw [Gone, forall_split_concat]
  simp only [List.mem_append, List.mem_singleton, List.not_mem_nil, or_and_right, exists_or,
    exists_eq_left, false_and, exists_false, imp_false]
  by_cases hs : k ∈ e.spends
  · simp [hs]
  · simp only [hs, or_false]
    exact and_comm

/-- Playing a journal from nothing leaves a key absent exactly when it is gone. -/
theorem notMem_replay_iff {es : List (Entry K V)} {k : K} :
    k ∉ replay ∅ es ↔ Gone es k := by
  induction es using List.reverseRecOn with
  | nil => simp [replay, gone_nil, Finmap.notMem_empty]
  | append_singleton es e ih =>
    rw [replay_concat, mem_play, gone_concat, ← ih]
    tauto

/-- Keys that no entry spends keep their first value. -/
theorem lookup_replay_of_unspent {es : List (Entry K V)} {k : K}
    (h : ∀ e ∈ es, k ∉ e.spends) (m : Store K V) :
    (replay m es).lookup k = (m.lookup k).or ((es.flatMap Entry.creates).lookup k) := by
  induction es generalizing m with
  | nil => simp [replay]
  | cons e rest ih =>
    change (replay (play m e) rest).lookup k = _
    rw [ih (fun f hf ↦ h f (List.mem_cons_of_mem _ hf)), lookup_play, List.flatMap_cons,
      List.lookup_append]
    simp [h e List.mem_cons_self, Option.or_assoc]

/-- A key that was absent before a journal and is present after it was created in between. -/
theorem makes_of_mem_replay {es : List (Entry K V)} {m : Store K V} {k : K}
    (h : k ∈ replay m es) (hm : k ∉ m) : ∃ e ∈ es, e.Makes k := by
  induction es generalizing m with
  | nil => exact absurd h hm
  | cons e rest ih =>
    by_cases hk : e.Makes k
    · exact ⟨e, List.mem_cons_self, hk⟩
    · have hplay : k ∉ play m e := by
        rw [mem_play]
        tauto
      obtain ⟨e', he', hmk⟩ := ih h hplay
      exact ⟨e', List.mem_cons_of_mem _ he', hmk⟩

/-- Every removal of the key is followed by a creation, at the latest in the same entry. -/
def Kept (es : List (Entry K V)) (k : K) : Prop :=
  ∀ pre e post, es = pre ++ e :: post → k ∈ e.spends → ∃ e' ∈ e :: post, e'.Makes k

omit [DecidableEq K] in
/-- One more entry keeps a key when it creates it, or leaves it alone. -/
theorem kept_concat {es : List (Entry K V)} {e : Entry K V} {k : K} :
    Kept (es ++ [e]) k ↔ (Kept es k ∧ k ∉ e.spends) ∨ e.Makes k := by
  rw [Kept, forall_split_concat]
  simp only [← List.cons_append, List.mem_append, List.mem_singleton, or_and_right, exists_or,
    exists_eq_left]
  by_cases hm : e.Makes k
  · simp [hm]
  · simp only [hm, or_false]
    rfl

/-- A key that is present before a journal is present after it exactly when it is kept. -/
theorem mem_replay_iff_kept {es : List (Entry K V)} {m : Store K V} {k : K} (hm : k ∈ m) :
    k ∈ replay m es ↔ Kept es k := by
  induction es using List.reverseRecOn with
  | nil => exact iff_of_true hm fun pre e post h ↦ by simp at h
  | append_singleton es e ih => rw [replay_concat, mem_play, kept_concat, ih]

/-! ## Playing against settling -/

/-- Settling keeps the first value of every key that nothing names. -/
theorem lookup_settle (es : List (Entry K V)) (k : K) :
    (settle es).lookup k =
      if k ∈ es.flatMap Entry.names then none else (es.flatMap Entry.creates).lookup k := by
  rw [settle, lookup_eraseAll, lookup_emplaceAll, Finmap.lookup_empty, Option.none_or]

/-- Entries that create only keys no entry names can be played on the settled journal, removals
first. -/
theorem settle_append {es fs : List (Entry K V)}
    (hun : ∀ kv ∈ fs.flatMap Entry.creates, kv.1 ∉ (es ++ fs).flatMap Entry.names) :
    settle (es ++ fs) =
      emplaceAll (eraseAll (settle es) (fs.flatMap Entry.names)) (fs.flatMap Entry.creates) := by
  apply Finmap.ext_lookup
  intro k
  rw [lookup_settle, lookup_emplaceAll, lookup_eraseAll, lookup_settle]
  by_cases hk : k ∈ (es ++ fs).flatMap Entry.names
  · have hnew : (fs.flatMap Entry.creates).lookup k = none := by
      cases hl : (fs.flatMap Entry.creates).lookup k with
      | none => rfl
      | some v => exact absurd hk (hun _ (mem_of_lookup_eq_some hl))
    rw [if_pos hk, hnew]
    rw [List.flatMap_append, List.mem_append] at hk
    rcases hk with hk | hk
    · simp [hk]
    · simp [hk]
  · rw [if_neg hk]
    rw [List.flatMap_append, List.mem_append, not_or] at hk
    rw [if_neg hk.2, if_neg hk.1, List.flatMap_append, List.lookup_append]

variable {es : List (Entry K V)} (named : ∀ e ∈ es, ∀ k ∈ e.spends, k ∈ e.names)
include named

theorem lookup_replay_of_unnamed {k : K} (hk : k ∉ es.flatMap Entry.names) :
    (replay ∅ es).lookup k = (es.flatMap Entry.creates).lookup k := by
  have hun : ∀ e ∈ es, k ∉ e.spends := fun e he hs ↦
    hk (List.mem_flatMap.mpr ⟨e, he, named e he k hs⟩)
  rw [lookup_replay_of_unspent hun, Finmap.lookup_empty, Option.none_or]

/-- A settled journal never binds more than the played one. -/
theorem settle_sub_replay : Sub (settle es) (replay ∅ es) := by
  intro k v h
  rw [lookup_settle] at h
  split at h
  · exact absurd h (by simp)
  · next hk => rw [lookup_replay_of_unnamed named hk, h]

/-- Settling and playing give the same map exactly when every named key ends up gone. -/
theorem settle_eq_replay_iff :
    settle es = replay ∅ es ↔ ∀ k ∈ es.flatMap Entry.names, Gone es k := by
  constructor
  · intro heq k hk
    rw [← notMem_replay_iff, ← heq, ← Finmap.lookup_eq_none, lookup_settle]
    simp [hk]
  · intro hgone
    apply Finmap.ext_lookup
    intro k
    rw [lookup_settle]
    split
    · next hk => exact (Finmap.lookup_eq_none.mpr (notMem_replay_iff.mpr (hgone k hk))).symm
    · next hk => exact (lookup_replay_of_unnamed named hk).symm

end Journal
