import Siliqua.Network.Node

/-!
# What a fee says about a transaction

`validate_and_get_fee` reads a UTXO set only at the outpoints the inputs name, and a fee that
is not negative means that all of them are there and unlock. Totals are the images in
`int64_t` of the exact sums.
-/

namespace Siliqua.Ledger

open Siliqua.Core Siliqua.Wallet Siliqua.Network KeyedStore

/-- Exact value of an output. -/
def worth (out : CTxOut) : ℤ := out.nValue.toInt

/-- Exact sum of the values of some outputs. -/
def outputWorth (vout : List CTxOut) : ℤ := (vout.map worth).sum

/-- Exact sum of the values the inputs of a transaction find in a UTXO set, each input counted. -/
def inputWorth (tx : Transaction) (utxoSet : UtxoSet) : ℤ :=
  (tx.prevouts.map (valueAt worth utxoSet)).sum

private theorem foldl_outputs (vout : List CTxOut) (total : Int64) :
    vout.foldl (fun total out ↦ total + out.nValue) total =
      total + Int64.ofInt (outputWorth vout) := by
  induction vout generalizing total with
  | nil => simp [outputWorth]
  | cons out rest ih =>
    rw [List.foldl_cons, ih, outputWorth, outputWorth, List.map_cons, List.sum_cons,
      Int64.ofInt_add, worth, Int64.ofInt_toInt, Int64.add_assoc]

/-- The wrapping sum of output values is the image of the exact one. -/
theorem outputTotal_eq (vout : List CTxOut) :
    outputTotal vout = Int64.ofInt (outputWorth vout) := by
  rw [outputTotal, foldl_outputs, Int64.zero_add]

variable [Crypto]

/-- The input is in the set and its script unlocks the output it spends. -/
def Unlocks (tx : Transaction) (utxoSet : UtxoSet) (input : CTxIn × Nat) : Prop :=
  ∃ out, utxoSet.lookup input.1.prevout = some out ∧
    verifyTransactionSignature tx input.2 out.scriptPubKey = true

variable {tx : Transaction} {m n : UtxoSet}

/-- One turn of the input loop goes on exactly for an input that unlocks. -/
theorem addInput_eq_some_iff {total r : Int64} {input : CTxIn × Nat} :
    addInput tx m total input = some r ↔
      Unlocks tx m input ∧ r = total + Int64.ofInt (valueAt worth m input.1.prevout) := by
  unfold addInput Unlocks valueAt
  cases hl : m.lookup input.1.prevout with
  | none => simp
  | some out =>
    by_cases hv : verifyTransactionSignature tx input.2 out.scriptPubKey = true
    · simp only [hv, ↓reduceIte, Option.some.injEq, exists_eq_left', true_and,
        Option.map_some, Option.getD_some, worth, Int64.ofInt_toInt]
      exact eq_comm
    · simp [hv]

/-- The input loop ends with the exact sum, wrapped, exactly when all inputs unlock. -/
theorem foldlM_addInput {inputs : List (CTxIn × Nat)} {total r : Int64} :
    inputs.foldlM (addInput tx m) total = some r ↔
      (∀ input ∈ inputs, Unlocks tx m input) ∧
        r = total + Int64.ofInt ((inputs.map fun i ↦ valueAt worth m i.1.prevout).sum) := by
  induction inputs generalizing total with
  | nil => simp [eq_comm]
  | cons input rest ih =>
    rw [List.foldlM_cons, Option.bind_eq_bind, Option.bind_eq_some_iff]
    simp only [addInput_eq_some_iff, ih, List.forall_mem_cons, List.map_cons, List.sum_cons,
      Int64.ofInt_add, ← Int64.add_assoc]
    constructor
    · rintro ⟨mid, ⟨hin, rfl⟩, hrest, hr⟩
      exact ⟨⟨hin, hrest⟩, hr⟩
    · rintro ⟨⟨hin, hrest⟩, hr⟩
      exact ⟨_, ⟨hin, rfl⟩, hrest, hr⟩

private theorem exists_foldlM_addInput (h : ∀ input ∈ tx.vin.zipIdx, Unlocks tx m input) :
    ∃ r, tx.vin.zipIdx.foldlM (addInput tx m) 0 = some r :=
  ⟨_, foldlM_addInput.mpr ⟨h, rfl⟩⟩

omit [Crypto] in
private theorem map_zipIdx_prevout (f : COutPoint → ℤ) :
    (tx.vin.zipIdx.map fun i ↦ f i.1.prevout) = tx.prevouts.map f := by
  have hfun : (fun i : CTxIn × Nat ↦ f i.1.prevout) = (f ∘ CTxIn.prevout) ∘ Prod.fst := rfl
  rw [hfun, ← List.map_map, List.zipIdx_map_fst, ← List.map_map, Transaction.prevouts]

/-- A fee that is not negative: there are inputs, they unlock, and the fee is the difference of
the two totals. -/
theorem fee_nonneg_iff :
    0 ≤ validateAndGetFee tx m ↔
      tx.vin ≠ [] ∧ (∀ input ∈ tx.vin.zipIdx, Unlocks tx m input) ∧
        Int64.ofInt (outputWorth tx.vout) ≤ Int64.ofInt (inputWorth tx m) ∧
        0 ≤ Int64.ofInt (inputWorth tx m - outputWorth tx.vout) := by
  have hneg : ¬ (0 : Int64) ≤ -1 := by decide
  unfold validateAndGetFee
  cases hv : tx.vin with
  | nil => simp [hneg]
  | cons txin rest =>
    rw [← hv]
    have hne : tx.vin ≠ [] := by simp [hv]
    simp only [List.isEmpty_iff, hne, ↓reduceIte]
    cases hf : tx.vin.zipIdx.foldlM (addInput tx m) 0 with
    | none =>
      refine iff_of_false hneg fun h ↦ ?_
      obtain ⟨r, hr⟩ := exists_foldlM_addInput h.2.1
      rw [hf] at hr
      cases hr
    | some total =>
      obtain ⟨hun, rfl⟩ := foldlM_addInput.mp hf
      rw [map_zipIdx_prevout, Int64.zero_add, outputTotal_eq, Int64.ofInt_sub]
      change (0 ≤ if Int64.ofInt (outputWorth tx.vout) > Int64.ofInt (inputWorth tx m) then _
        else Int64.ofInt (inputWorth tx m) - _) ↔ _
      split
      · next hgt => exact iff_of_false hneg fun h ↦ absurd h.2.2.1 (Int64.not_le.mpr hgt)
      · next hle => exact ⟨fun h ↦ ⟨hne, hun, Int64.not_lt.mp hle, h⟩, fun h ↦ h.2.2.2⟩

/-- The fee itself, where it is not negative. -/
theorem fee_eq (h : 0 ≤ validateAndGetFee tx m) :
    validateAndGetFee tx m = Int64.ofInt (inputWorth tx m - outputWorth tx.vout) := by
  obtain ⟨hne, hun, hle, -⟩ := fee_nonneg_iff.mp h
  obtain ⟨r, hf⟩ := exists_foldlM_addInput hun
  obtain ⟨-, hr⟩ := foldlM_addInput.mp hf
  rw [map_zipIdx_prevout, Int64.zero_add] at hr
  simp only [validateAndGetFee, List.isEmpty_iff, hne, ↓reduceIte, hf, outputTotal_eq, hr]
  rw [Int64.ofInt_sub]
  exact if_neg (Int64.not_lt.mpr hle)

/-- Only the outpoints the inputs name are read. -/
theorem fee_congr (h : ∀ p ∈ tx.prevouts, m.lookup p = n.lookup p) :
    validateAndGetFee tx m = validateAndGetFee tx n := by
  have hstep : ∀ inputs : List (CTxIn × Nat), (∀ i ∈ inputs, i.1.prevout ∈ tx.prevouts) →
      ∀ total, inputs.foldlM (addInput tx m) total = inputs.foldlM (addInput tx n) total := by
    intro inputs hin
    induction inputs with
    | nil => simp
    | cons input rest ih =>
      obtain ⟨hi, hrest⟩ := List.forall_mem_cons.mp hin
      intro total
      rw [List.foldlM_cons, List.foldlM_cons, addInput, addInput, h _ hi]
      exact congrArg _ (funext fun mid ↦ ih hrest mid)
  have hall : ∀ i ∈ tx.vin.zipIdx, i.1.prevout ∈ tx.prevouts := fun i hi ↦
    List.mem_map_of_mem (List.fst_mem_of_mem_zipIdx hi)
  rw [validateAndGetFee, validateAndGetFee, hstep _ hall]

/-- Some outpoint is spent when the fee is not negative. -/
theorem exists_prevout_of_fee_nonneg (h : 0 ≤ validateAndGetFee tx m) : ∃ p, p ∈ tx.prevouts := by
  obtain ⟨txin, rest, hvin⟩ := List.exists_cons_of_ne_nil (fee_nonneg_iff.mp h).1
  exact ⟨txin.prevout, by simp [Transaction.prevouts, hvin]⟩

/-- All inputs are in the set when the fee is not negative. -/
theorem mem_of_fee_nonneg (h : 0 ≤ validateAndGetFee tx m) : ∀ p ∈ tx.prevouts, p ∈ m := by
  intro p hp
  obtain ⟨txin, hin, rfl⟩ := List.mem_map.mp hp
  obtain ⟨i, hi, hget⟩ := List.getElem_of_mem hin
  have hz : (txin, i) ∈ tx.vin.zipIdx := by
    rw [List.mem_zipIdx_iff_getElem?, List.getElem?_eq_getElem hi, hget]
  obtain ⟨out, hl, -⟩ := (fee_nonneg_iff.mp h).2.1 (txin, i) hz
  exact Finmap.mem_iff.mpr ⟨out, hl⟩

end Siliqua.Ledger
