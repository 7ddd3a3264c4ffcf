import Mathlib.Data.List.Basic

/-!
# Sequences that arrive in pieces

General support: a sequence cut into chunks, none of them empty, and a reader that takes at most
part of the first one at a time. What a reader gets in the end depends on the sequence only.
-/

universe u

/-- What is still to be delivered, chunk by chunk. -/
structure Delivery (α : Type u) where
  chunks : List (List α)
  nonempty : ∀ chunk ∈ chunks, chunk ≠ []

namespace Delivery

variable {α : Type u}

/-- The chunks put together. -/
def content (d : Delivery α) : List α := d.chunks.flatten

/-- One read of at most `want` items: none of them only at the end of the delivery. -/
def recv (want : Nat) : Delivery α → List α × Delivery α
  | ⟨[], h⟩ => ([], ⟨[], h⟩)
  | ⟨chunk :: chunks, h⟩ =>
    if hlt : want < chunk.length then
      (chunk.take want, ⟨chunk.drop want :: chunks,
        List.forall_mem_cons.mpr ⟨by simpa using hlt, (List.forall_mem_cons.mp h).2⟩⟩)
    else (chunk, ⟨chunks, (List.forall_mem_cons.mp h).2⟩)

/-- Nothing is left once the content is used up. -/
theorem content_eq_nil_iff {d : Delivery α} : d.content = [] ↔ d.chunks = [] := by
  rw [content, List.flatten_eq_nil_iff]
  constructor
  · intro h
    exact List.eq_nil_iff_forall_not_mem.mpr fun chunk hmem ↦ d.nonempty chunk hmem (h chunk hmem)
  · intro h
    rw [h]
    exact List.forall_mem_nil _

/-- A read takes a prefix of the content. -/
theorem recv_append (want : Nat) (d : Delivery α) :
    (d.recv want).1 ++ (d.recv want).2.content = d.content := by
  obtain ⟨_ | ⟨chunk, chunks⟩, h⟩ := d
  · rfl
  · rw [recv]
    split
    · simp only [content, List.flatten_cons, ← List.append_assoc, List.take_append_drop]
    · rfl

/-- A read takes no more than was asked for. -/
theorem length_recv_le (want : Nat) (d : Delivery α) : (d.recv want).1.length ≤ want := by
  obtain ⟨_ | ⟨chunk, chunks⟩, h⟩ := d
  · exact Nat.zero_le _
  · rw [recv]
    split
    · exact List.length_take_le _ _
    · next hge => exact Nat.le_of_not_lt hge

/-- A read comes back empty only at the end. -/
theorem recv_eq_nil_iff {want : Nat} (hpos : 0 < want) (d : Delivery α) :
    (d.recv want).1 = [] ↔ d.content = [] := by
  rw [content_eq_nil_iff]
  obtain ⟨_ | ⟨chunk, chunks⟩, h⟩ := d
  · exact ⟨fun _ ↦ rfl, fun _ ↦ rfl⟩
  · have hchunk : chunk ≠ [] := h chunk List.mem_cons_self
    refine iff_of_false ?_ (List.cons_ne_nil _ _)
    rw [recv]
    split
    · exact fun hnil ↦ (List.take_eq_nil_iff.mp hnil).elim (by omega) hchunk
    · exact hchunk

end Delivery
