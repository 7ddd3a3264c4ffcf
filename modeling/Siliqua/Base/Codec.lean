import Siliqua.Base.ByteDecoder
import Mathlib.Data.List.Basic

/-!
# Decoders that read exactly one format

General support: `Codec d encode Valid` says that a decoder returns a value exactly when the
value is valid and its encoding stands at the offset. The laws for sequences, repetition and
length prefixes build such decoders, and every codec round-trips, is canonical and does not
decode a proper prefix of an encoding.
-/

namespace ByteDecoder

/-- The bytes stand in the input at the offset and end at `next`. -/
def Reads (input : List UInt8) (offset : Nat) (bytes : List UInt8) (next : Nat) : Prop :=
  ∃ pre post, input = pre ++ bytes ++ post ∧ pre.length = offset ∧ next = offset + bytes.length

section Reads

variable {input bytes : List UInt8} {offset next : Nat}

/-- What is read lies inside the input. -/
theorem Reads.le_length (h : Reads input offset bytes next) :
    offset ≤ next ∧ next ≤ input.length := by
  obtain ⟨pre, post, rfl, hpre, rfl⟩ := h
  simp only [List.length_append]
  omega

/-- What is read is the window of the input between the two offsets. -/
theorem Reads.eq_window (h : Reads input offset bytes next) :
    bytes = (input.drop offset).take (next - offset) := by
  obtain ⟨pre, post, rfl, rfl, rfl⟩ := h
  rw [Nat.add_sub_cancel_left, List.append_assoc, List.drop_left, List.take_left]

/-- Longer inputs hold the same bytes at the same place. -/
theorem Reads.append (h : Reads input offset bytes next) (suffix : List UInt8) :
    Reads (input ++ suffix) offset bytes next := by
  obtain ⟨pre, post, rfl, hpre, hnext⟩ := h
  exact ⟨pre, post ++ suffix, by simp only [List.append_assoc], hpre, hnext⟩

/-- Bytes stand behind whatever precedes them. -/
theorem reads_of_append (pre bytes post : List UInt8) :
    Reads (pre ++ bytes ++ post) pre.length bytes (pre.length + bytes.length) :=
  ⟨pre, post, rfl, rfl, rfl⟩

/-- Reading nothing stays where it is. -/
theorem reads_nil_iff : Reads input offset [] next ↔ offset ≤ input.length ∧ next = offset := by
  constructor
  · rintro ⟨pre, post, rfl, rfl, rfl⟩
    simp
  · rintro ⟨hle, rfl⟩
    refine ⟨input.take next, input.drop next, ?_, List.length_take_of_le hle, rfl⟩
    rw [List.append_nil, List.take_append_drop]

/-- Reading a concatenation is reading its parts one after the other. -/
theorem reads_append_iff {left right : List UInt8} :
    Reads input offset (left ++ right) next ↔
      ∃ mid, Reads input offset left mid ∧ Reads input mid right next := by
  constructor
  · rintro ⟨pre, post, rfl, rfl, rfl⟩
    refine ⟨pre.length + left.length, ⟨pre, right ++ post, ?_, rfl, rfl⟩,
      ⟨pre ++ left, post, ?_, ?_, ?_⟩⟩
    · simp only [List.append_assoc]
    · simp only [List.append_assoc]
    · rw [List.length_append]
    · rw [List.length_append, Nat.add_assoc]
  · rintro ⟨mid, ⟨pre, post, rfl, hpre, rfl⟩, ⟨pre', post', heq, hpre', rfl⟩⟩
    have hlen : (pre ++ left).length = pre'.length := by rw [List.length_append, hpre, hpre']
    rw [List.append_assoc pre'] at heq
    obtain ⟨rfl, rfl⟩ := List.append_inj heq hlen
    refine ⟨pre, post', ?_, hpre, ?_⟩
    · simp only [List.append_assoc]
    · rw [List.length_append, Nat.add_assoc]

/-- Reading one byte. -/
theorem reads_singleton_iff {b : UInt8} :
    Reads input offset [b] next ↔ input[offset]? = some b ∧ next = offset + 1 := by
  constructor
  · rintro ⟨pre, post, rfl, rfl, rfl⟩
    simp
  · rintro ⟨hget, rfl⟩
    obtain ⟨hlt, rfl⟩ := List.getElem?_eq_some_iff.mp hget
    refine ⟨input.take offset, input.drop (offset + 1), ?_,
      List.length_take_of_le (Nat.le_of_lt hlt), rfl⟩
    rw [List.append_assoc, List.singleton_append, List.getElem_cons_drop,
      List.take_append_drop]

/-- Reading the first byte, then the others. -/
theorem reads_cons_iff {b : UInt8} :
    Reads input offset (b :: bytes) next ↔
      input[offset]? = some b ∧ Reads input (offset + 1) bytes next := by
  rw [← List.singleton_append, reads_append_iff]
  simp only [reads_singleton_iff]
  constructor
  · rintro ⟨_, ⟨hget, rfl⟩, hrest⟩
    exact ⟨hget, hrest⟩
  · rintro ⟨hget, hrest⟩
    exact ⟨_, ⟨hget, rfl⟩, hrest⟩

end Reads

namespace Decoder

variable {α β : Type}

/-- A successful run from an offset inside the input. -/
def Runs (d : Decoder α) (input : List UInt8) (offset : Nat) (a : α) (next : Nat) : Prop :=
  offset ≤ input.length ∧ d input offset = .ok (a, next)

/-- The decoder returns a value exactly when the value is valid and its encoding stands at
the offset. -/
def Codec (d : Decoder α) (encode : α → List UInt8) (Valid : α → Prop) : Prop :=
  ∀ input offset a next, d.Runs input offset a next ↔
    Valid a ∧ Reads input offset (encode a) next

/-! ## Building codecs -/

section Building

variable {input : List UInt8} {offset next : Nat}

/-- Returning a value reads nothing. -/
theorem runs_pure_iff {a b : α} :
    (pure a : Decoder α).Runs input offset b next ↔ a = b ∧ Reads input offset [] next := by
  rw [Runs, pure_eq_ok_iff, reads_nil_iff, eq_comm (a := next)]
  tauto

/-- A sequence reads the encoding of its first value, and goes on behind it. -/
theorem Codec.runs_bind_iff {d : Decoder α} {encode : α → List UInt8} {Valid : α → Prop}
    (hd : Codec d encode Valid) {f : α → Decoder β} {b : β} :
    (d >>= f).Runs input offset b next ↔
      ∃ a, Valid a ∧ ∃ mid, Reads input offset (encode a) mid ∧ (f a).Runs input mid b next := by
  rw [Runs, bind_eq_ok_iff]
  constructor
  · rintro ⟨hle, a, mid, hfirst, hrest⟩
    obtain ⟨hvalid, hreads⟩ := (hd _ _ _ _).mp ⟨hle, hfirst⟩
    exact ⟨a, hvalid, mid, hreads, hreads.le_length.2, hrest⟩
  · rintro ⟨a, hvalid, mid, hreads, -, hrest⟩
    obtain ⟨hle, hfirst⟩ := (hd _ _ _ _).mpr ⟨hvalid, hreads⟩
    exact ⟨hle, a, mid, hfirst, hrest⟩

/-- The last step of a sequence ends where the whole ends. -/
theorem Codec.runs_map_iff {d : Decoder α} {encode : α → List UInt8} {Valid : α → Prop}
    (hd : Codec d encode Valid) {f : α → β} {b : β} :
    (d >>= fun a ↦ pure (f a)).Runs input offset b next ↔
      ∃ a, Valid a ∧ Reads input offset (encode a) next ∧ f a = b := by
  simp only [hd.runs_bind_iff, runs_pure_iff, reads_nil_iff]
  constructor
  · rintro ⟨a, hvalid, mid, hreads, heq, -, rfl⟩
    exact ⟨a, hvalid, hreads, heq⟩
  · rintro ⟨a, hvalid, hreads, heq⟩
    exact ⟨a, hvalid, next, hreads, heq, hreads.le_length.2, rfl⟩

/-- Sequencing is associative. -/
theorem bind_assoc {γ : Type} (d : Decoder α) (f : α → Decoder β) (g : β → Decoder γ) :
    d >>= f >>= g = d >>= fun a ↦ f a >>= g := by
  funext input offset
  cases hd : d input offset with
  | error e => rw [bind_of_error (bind_of_error hd), bind_of_error hd]
  | ok p =>
    obtain ⟨a, mid⟩ := p
    rw [bind_of_ok hd]
    cases hf : f a input mid with
    | error e => rw [bind_of_error ((bind_of_ok hd).trans hf), bind_of_error hf]
    | ok q => rw [bind_of_ok ((bind_of_ok hd).trans hf), bind_of_ok hf]

/-- Raw bytes of a given length are their own encoding. -/
theorem codec_take (n : Nat) : Codec (take n) id fun bytes ↦ bytes.length = n := by
  intro input offset bytes next
  unfold Runs take
  constructor
  · rintro ⟨-, h⟩
    split at h
    · next hle =>
      obtain ⟨rfl, rfl⟩ := Prod.mk.inj (Except.ok.inj h)
      have hlen : ((input.drop offset).take n).length = n := by
        rw [List.length_take, List.length_drop]
        omega
      refine ⟨hlen, input.take offset, input.drop (offset + n), ?_,
        List.length_take_of_le (by omega), ?_⟩
      · rw [id, ← List.drop_drop, List.append_assoc, List.take_append_drop,
          List.take_append_drop]
      · rw [id, hlen]
    · cases h
  · rintro ⟨hlen, hreads⟩
    have hwindow := hreads.eq_window
    have hle := hreads.le_length
    obtain ⟨-, -, -, -, hnext⟩ := hreads
    rw [id, hlen] at hnext
    subst hnext
    rw [Nat.add_sub_cancel_left, id] at hwindow
    refine ⟨by omega, ?_⟩
    rw [if_pos hle.2, hwindow]

/-- A counted repetition reads the encodings of its values one after the other. -/
theorem Codec.many {d : Decoder α} {encode : α → List UInt8} {Valid : α → Prop}
    (hd : Codec d encode Valid) (n : Nat) :
    Codec (many d n) (List.flatMap encode) fun xs ↦ xs.length = n ∧ ∀ x ∈ xs, Valid x := by
  intro input offset xs next
  induction n generalizing offset xs with
  | zero =>
    rw [Decoder.many, runs_pure_iff]
    constructor
    · rintro ⟨rfl, hreads⟩
      exact ⟨⟨rfl, by simp⟩, hreads⟩
    · rintro ⟨⟨hlen, -⟩, hreads⟩
      obtain rfl := List.length_eq_zero_iff.mp hlen
      exact ⟨rfl, hreads⟩
  | succ n ih =>
    rw [Decoder.many, hd.runs_bind_iff]
    constructor
    · rintro ⟨x, hx, mid, hhead, hrest⟩
      rw [Runs, bind_eq_ok_iff] at hrest
      obtain ⟨hle, tail, last, htail, hret⟩ := hrest
      obtain ⟨rfl, rfl⟩ := pure_eq_ok_iff.mp hret
      obtain ⟨⟨hlen, hvalid⟩, hreads⟩ := (ih mid tail).mp ⟨hle, htail⟩
      refine ⟨⟨by rw [List.length_cons, hlen], List.forall_mem_cons.mpr ⟨hx, hvalid⟩⟩, ?_⟩
      rw [List.flatMap_cons, reads_append_iff]
      exact ⟨mid, hhead, hreads⟩
    · rintro ⟨⟨hlen, hvalid⟩, hreads⟩
      obtain ⟨x, tail, rfl⟩ := List.exists_cons_of_length_eq_add_one hlen
      obtain ⟨hx, hvalid⟩ := List.forall_mem_cons.mp hvalid
      rw [List.flatMap_cons, reads_append_iff] at hreads
      obtain ⟨mid, hhead, hreads⟩ := hreads
      obtain ⟨hle, htail⟩ :=
        (ih mid tail).mpr ⟨⟨Nat.succ.inj hlen, hvalid⟩, hreads⟩
      refine ⟨x, hx, mid, hhead, hle, ?_⟩
      rw [bind_eq_ok_iff]
      exact ⟨tail, next, htail, pure_eq_ok_iff.mpr ⟨rfl, rfl⟩⟩

end Building

/-! ## What every codec satisfies -/

section Laws

variable {d : Decoder α} {encode : α → List UInt8} {Valid : α → Prop} {input : List UInt8}
  {offset next : Nat} {a b : α}

/-- Round trip: behind anything and before anything, an encoding decodes to its value and is
consumed exactly. -/
theorem Codec.decode_encode (h : Codec d encode Valid) (hv : Valid a)
    (pre suffix : List UInt8) :
    d (pre ++ encode a ++ suffix) pre.length = .ok (a, pre.length + (encode a).length) :=
  ((h _ _ _ _).mpr ⟨hv, reads_of_append pre (encode a) suffix⟩).2

/-- Round trip at the start of a buffer. -/
theorem Codec.decode_append (h : Codec d encode Valid) (hv : Valid a) (suffix : List UInt8) :
    d (encode a ++ suffix) 0 = .ok (a, (encode a).length) := by
  have hd := h.decode_encode hv [] suffix
  rwa [List.nil_append, List.length_nil, Nat.zero_add] at hd

/-- Round trip of a whole buffer. -/
theorem Codec.decode_whole (h : Codec d encode Valid) (hv : Valid a) :
    d (encode a) 0 = .ok (a, (encode a).length) := by
  have hd := h.decode_append hv []
  rwa [List.append_nil] at hd

/-- Different valid values have different encodings. -/
theorem Codec.encode_inj (h : Codec d encode Valid) (ha : Valid a) (hb : Valid b) :
    encode a = encode b ↔ a = b := by
  constructor
  · intro heq
    have hd := h.decode_whole ha
    rw [heq, h.decode_whole hb] at hd
    exact (Prod.mk.inj (Except.ok.inj hd)).1.symm
  · exact fun heq ↦ congrArg encode heq

/-- Canonicity: what was decoded is valid, and its encoding is the bytes consumed. -/
theorem Codec.canonical (h : Codec d encode Valid) (hle : offset ≤ input.length)
    (hd : d input offset = .ok (a, next)) :
    Valid a ∧ offset ≤ next ∧ next ≤ input.length ∧
      encode a = (input.drop offset).take (next - offset) := by
  obtain ⟨hvalid, hreads⟩ := (h _ _ _ _).mp ⟨hle, hd⟩
  exact ⟨hvalid, hreads.le_length.1, hreads.le_length.2, hreads.eq_window⟩

/-- No proper prefix of an encoding decodes. -/
theorem Codec.eq_of_decode_part (h : Codec d encode Valid) (hv : Valid a) {bytes : List UInt8}
    (hpre : bytes <+: encode a) (hd : d bytes 0 = .ok (b, next)) : bytes = encode a := by
  obtain ⟨rest, hrest⟩ := hpre
  obtain ⟨hvalid, hreads⟩ := (h _ _ _ _).mp ⟨Nat.zero_le _, hd⟩
  have hlong := ((h _ _ _ _).mpr ⟨hvalid, hreads.append rest⟩).2
  have hwhole := h.decode_encode hv [] []
  rw [List.append_nil, List.nil_append, ← hrest, List.length_nil, Nat.zero_add, hlong] at hwhole
  obtain ⟨-, hnext⟩ := Prod.mk.inj (Except.ok.inj hwhole)
  have hle := hreads.le_length.2
  rw [hnext, List.length_append] at hle
  obtain rfl : rest = [] := List.length_eq_zero_iff.mp (by omega)
  rw [← hrest, List.append_nil]

end Laws

end Decoder
end ByteDecoder
