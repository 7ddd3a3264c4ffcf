import Mathlib.Data.List.Basic

/-!
# Folding over blocks

General support: a list cut into blocks of one size, with what fills no block left over. Whoever
keeps the left over elements can be fed the list in any pieces and comes to the same blocks.
-/

namespace BlockFold

universe u v

variable {α : Type u} {σ : Type v} {size : ℕ}

/-- The whole blocks of a list, in order. -/
def wholeBlocks (size : ℕ) (xs : List α) : List (List α) :=
  (List.range (xs.length / size)).map fun i ↦ (xs.drop (size * i)).take size

/-- What fills no block. -/
def leftover (size : ℕ) (xs : List α) : List α := xs.drop (size * (xs.length / size))

/-- Fold the blocks that are filled by what was left over and the next piece. -/
def feed (size : ℕ) (f : σ → List α → σ) (s : σ × List α) (piece : List α) : σ × List α :=
  ((wholeBlocks size (s.2 ++ piece)).foldl f s.1, leftover size (s.2 ++ piece))

/-! ## Cutting -/

theorem length_leftover (xs : List α) : (leftover size xs).length = xs.length % size := by
  rw [leftover, List.length_drop]
  exact (Nat.mod_eq_sub_mul_div).symm

theorem length_leftover_lt (hsize : 0 < size) (xs : List α) :
    (leftover size xs).length < size := by
  rw [length_leftover]
  exact Nat.mod_lt _ hsize

/-- A list that is too short has no block. -/
theorem wholeBlocks_of_lt {xs : List α} (h : xs.length < size) : wholeBlocks size xs = [] := by
  rw [wholeBlocks, Nat.div_eq_of_lt h, List.range_zero, List.map_nil]

theorem leftover_of_lt {xs : List α} (h : xs.length < size) : leftover size xs = xs := by
  rw [leftover, Nat.div_eq_of_lt h, Nat.mul_zero, List.drop_zero]

private theorem length_block_append (hsize : 0 < size) {block : List α} (h : block.length = size)
    (xs : List α) : (block ++ xs).length / size = xs.length / size + 1 := by
  rw [List.length_append, h, Nat.add_div_left _ hsize]

/-- A block in front is the first one. -/
theorem wholeBlocks_block_append (hsize : 0 < size) {block : List α} (h : block.length = size)
    (xs : List α) : wholeBlocks size (block ++ xs) = block :: wholeBlocks size xs := by
  rw [wholeBlocks, length_block_append hsize h, List.range_succ_eq_map, List.map_cons, List.map_map,
    Nat.mul_zero, List.drop_zero, List.take_left' h, wholeBlocks]
  congr 1
  apply List.map_congr_left
  intro i _
  rw [Function.comp_apply, Nat.mul_succ, Nat.add_comm, ← List.drop_drop, List.drop_left' h]

theorem leftover_block_append (hsize : 0 < size) {block : List α} (h : block.length = size)
    (xs : List α) : leftover size (block ++ xs) = leftover size xs := by
  rw [leftover, length_block_append hsize h, Nat.mul_succ, Nat.add_comm, ← List.drop_drop,
    List.drop_left' h, leftover]

/-- A list is too short for a block, or a block and a list. -/
@[elab_as_elim]
theorem block_induction (hsize : 0 < size) {motive : List α → Prop}
    (short : ∀ xs, xs.length < size → motive xs)
    (block : ∀ block xs, block.length = size → motive xs → motive (block ++ xs))
    (xs : List α) : motive xs := by
  induction hlen : xs.length using Nat.strongRecOn generalizing xs with
  | ind n ih =>
    by_cases hlt : xs.length < size
    · exact short xs hlt
    · rw [← List.take_append_drop size xs]
      apply block
      · rw [List.length_take]
        omega
      · apply ih (xs.drop size).length _ _ rfl
        rw [List.length_drop]
        omega

/-- The blocks of a list are those of its first part and those that what is left of it fills. -/
theorem wholeBlocks_append (hsize : 0 < size) (xs ys : List α) :
    wholeBlocks size (xs ++ ys) =
      wholeBlocks size xs ++ wholeBlocks size (leftover size xs ++ ys) := by
  induction xs using block_induction hsize with
  | short xs h => rw [wholeBlocks_of_lt h, leftover_of_lt h, List.nil_append]
  | block block xs h ih =>
    rw [List.append_assoc, wholeBlocks_block_append hsize h, wholeBlocks_block_append hsize h,
      leftover_block_append hsize h, ih, List.cons_append]

theorem leftover_append (hsize : 0 < size) (xs ys : List α) :
    leftover size (xs ++ ys) = leftover size (leftover size xs ++ ys) := by
  induction xs using block_induction hsize with
  | short xs h => rw [leftover_of_lt h]
  | block block xs h ih =>
    rw [List.append_assoc, leftover_block_append hsize h, leftover_block_append hsize h, ih]

/-- Nothing gets lost. -/
theorem flatten_wholeBlocks_append (hsize : 0 < size) (xs : List α) :
    (wholeBlocks size xs).flatten ++ leftover size xs = xs := by
  induction xs using block_induction hsize with
  | short xs h => rw [wholeBlocks_of_lt h, leftover_of_lt h, List.flatten_nil, List.nil_append]
  | block block xs h ih =>
    rw [wholeBlocks_block_append hsize h, leftover_block_append hsize h, List.flatten_cons,
      List.append_assoc, ih]

/-- Whole blocks are all of one size. -/
theorem length_of_mem_wholeBlocks (hsize : 0 < size) {xs block : List α}
    (h : block ∈ wholeBlocks size xs) : block.length = size := by
  induction xs using block_induction hsize with
  | short xs hlt =>
    rw [wholeBlocks_of_lt hlt] at h
    cases h
  | block first xs hfirst ih =>
    rw [wholeBlocks_block_append hsize hfirst, List.mem_cons] at h
    rcases h with rfl | hmem
    · exact hfirst
    · exact ih hmem

/-- The blocks of whole blocks are these. -/
theorem wholeBlocks_flatten (hsize : 0 < size) {blocks : List (List α)}
    (h : ∀ block ∈ blocks, block.length = size) :
    wholeBlocks size blocks.flatten = blocks ∧ leftover size blocks.flatten = [] := by
  induction blocks with
  | nil => exact ⟨wholeBlocks_of_lt hsize, leftover_of_lt hsize⟩
  | cons block blocks ih =>
    rw [List.forall_mem_cons] at h
    rw [List.flatten_cons, wholeBlocks_block_append hsize h.1, leftover_block_append hsize h.1,
      (ih h.2).1]
    exact ⟨rfl, (ih h.2).2⟩

/-! ## Feeding -/

variable (f : σ → List α → σ)

theorem length_feed_lt (hsize : 0 < size) (s : σ × List α) (piece : List α) :
    (feed size f s piece).2.length < size :=
  length_leftover_lt hsize _

/-- One piece after the other is both at once. -/
theorem feed_feed (hsize : 0 < size) (s : σ × List α) (piece next : List α) :
    feed size f (feed size f s piece) next = feed size f s (piece ++ next) := by
  apply Prod.ext
  · dsimp only [feed]
    rw [← List.append_assoc, wholeBlocks_append hsize (s.2 ++ piece), List.foldl_append]
  · dsimp only [feed]
    rw [← List.append_assoc, ← leftover_append hsize]

/-- In any pieces, a list comes to what it comes to as a whole. -/
theorem foldl_feed (hsize : 0 < size) (pieces : List (List α)) {s : σ × List α}
    (hs : s.2.length < size) : pieces.foldl (feed size f) s = feed size f s pieces.flatten := by
  induction pieces generalizing s with
  | nil =>
    apply Prod.ext
    · rw [List.foldl_nil, feed, List.flatten_nil, List.append_nil, wholeBlocks_of_lt hs,
        List.foldl_nil]
    · rw [List.foldl_nil, feed, List.flatten_nil, List.append_nil, leftover_of_lt hs]
  | cons piece pieces ih =>
    rw [List.foldl_cons, ih (length_feed_lt f hsize s piece), feed_feed f hsize, List.flatten_cons]

end BlockFold
