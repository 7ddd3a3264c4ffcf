import Mathlib.Init

/-!
# Decoders over a byte buffer with a moving offset

General support: a decoder reads a buffer from an offset and returns a value together with
the offset after it, or fails because the buffer ends. Sequencing, counted repetition and
the laws that take a successful run apart.
-/

namespace ByteDecoder

/-- The one way a read fails: it asks for a byte past the end of the buffer. -/
inductive ReadError where
  | outOfRange
  deriving DecidableEq, Repr

/-- A decoder maps a buffer and an offset to a value and the offset after it. -/
def Decoder (α : Type) : Type := List UInt8 → Nat → Except ReadError (α × Nat)

namespace Decoder

/-- Sequencing passes the offset on and stops at the first failure. -/
instance : Monad Decoder where
  pure a := fun _ offset ↦ .ok (a, offset)
  bind d f := fun input offset ↦
    match d input offset with
    | .ok (a, next) => f a input next
    | .error e => .error e

/-- The byte `i` places after the offset, which stays where it is. -/
def peek (i : Nat) : Decoder UInt8 := fun input offset ↦
  match input[offset + i]? with
  | some b => .ok (b, offset)
  | none => .error .outOfRange

/-- Move the offset forward without reading. -/
def advance (n : Nat) : Decoder Unit := fun _ offset ↦ .ok ((), offset + n)

/-- The next `n` bytes, all of which must be there. -/
def take (n : Nat) : Decoder (List UInt8) := fun input offset ↦
  if offset + n ≤ input.length then .ok ((input.drop offset).take n, offset + n)
  else .error .outOfRange

/-- Run a decoder `n` times in a row. -/
def many {α : Type} (d : Decoder α) : Nat → Decoder (List α)
  | 0 => pure []
  | n + 1 => do
    let x ← d
    let xs ← many d n
    pure (x :: xs)

variable {α β : Type}

/-- A decoder that only returns a value leaves the offset alone. -/
theorem pure_eq_ok_iff {a b : α} {input : List UInt8} {offset next : Nat} :
    (pure a : Decoder α) input offset = .ok (b, next) ↔ a = b ∧ offset = next := by
  change Except.ok (a, offset) = .ok (b, next) ↔ _
  rw [Except.ok.injEq, Prod.mk.injEq]

/-- A sequence goes on where its first part ended. -/
theorem bind_of_ok {d : Decoder α} {f : α → Decoder β} {input : List UInt8} {offset : Nat}
    {p : α × Nat} (h : d input offset = .ok p) : (d >>= f) input offset = f p.1 input p.2 := by
  simp only [bind, h]

/-- A sequence stops where its first part fails. -/
theorem bind_of_error {d : Decoder α} {f : α → Decoder β} {input : List UInt8} {offset : Nat}
    {e : ReadError} (h : d input offset = .error e) : (d >>= f) input offset = .error e := by
  simp only [bind, h]

/-- A sequence succeeds exactly when both parts do, the second from where the first ended. -/
theorem bind_eq_ok_iff {d : Decoder α} {f : α → Decoder β} {input : List UInt8}
    {offset next : Nat} {b : β} :
    (d >>= f) input offset = .ok (b, next) ↔
      ∃ a mid, d input offset = .ok (a, mid) ∧ f a input mid = .ok (b, next) := by
  cases hd : d input offset with
  | error e => simp [bind_of_error hd]
  | ok p =>
    simp only [bind_of_ok hd, Except.ok.injEq]
    constructor
    · intro h
      exact ⟨p.1, p.2, rfl, h⟩
    · rintro ⟨a, mid, rfl, h⟩
      exact h

/-- Peeking finds the byte and stays. -/
theorem peek_eq_ok_iff {i : Nat} {b : UInt8} {input : List UInt8} {offset next : Nat} :
    peek i input offset = .ok (b, next) ↔ input[offset + i]? = some b ∧ next = offset := by
  unfold peek
  split
  · next c hc => simp [hc, eq_comm]
  · next hc => simp [hc]

/-- Advancing moves the offset and nothing else. -/
theorem advance_eq_ok_iff {n : Nat} {u : Unit} {input : List UInt8} {offset next : Nat} :
    advance n input offset = .ok (u, next) ↔ offset + n = next := by
  unfold advance
  rw [Except.ok.injEq, Prod.mk.injEq]
  exact ⟨fun h ↦ h.2, fun h ↦ ⟨rfl, h⟩⟩

/-- Counted repetition returns exactly the counted number of values. -/
theorem length_of_many_eq_ok {d : Decoder α} {n : Nat} {input : List UInt8}
    {offset next : Nat} {xs : List α} (h : many d n input offset = .ok (xs, next)) :
    xs.length = n := by
  induction n generalizing offset xs with
  | zero =>
    obtain ⟨rfl, _⟩ := pure_eq_ok_iff.mp h
    rfl
  | succ n ih =>
    obtain ⟨x, mid, _, hrest⟩ := bind_eq_ok_iff.mp h
    obtain ⟨tail, last, htail, hret⟩ := bind_eq_ok_iff.mp hrest
    obtain ⟨rfl, rfl⟩ := pure_eq_ok_iff.mp hret
    rw [List.length_cons, ih htail]

/-- Every value of a counted repetition came out of one run of the decoder. -/
theorem forall_of_many_eq_ok {d : Decoder α} {P : α → Prop} {input : List UInt8}
    (hd : ∀ offset x next, d input offset = .ok (x, next) → P x) {n : Nat}
    {offset next : Nat} {xs : List α} (h : many d n input offset = .ok (xs, next)) :
    ∀ x ∈ xs, P x := by
  induction n generalizing offset xs with
  | zero =>
    obtain ⟨rfl, _⟩ := pure_eq_ok_iff.mp h
    simp
  | succ n ih =>
    obtain ⟨x, mid, hx, hrest⟩ := bind_eq_ok_iff.mp h
    obtain ⟨tail, last, htail, hret⟩ := bind_eq_ok_iff.mp hrest
    obtain ⟨rfl, rfl⟩ := pure_eq_ok_iff.mp hret
    exact List.forall_mem_cons.mpr ⟨hd _ _ _ hx, ih htail⟩

end Decoder
end ByteDecoder
