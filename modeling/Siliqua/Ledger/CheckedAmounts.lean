import Mathlib.Data.List.TakeWhile
import Siliqua.Base.RunningSum
import Siliqua.Ledger.FastPath
import Siliqua.Ledger.Supply

/-!
# Amounts added up with exact integers

The loops that add up amounts, once more over the integers: each addition whose result is not an
`int64_t` is reported, since the source's addition is then undefined. Where none is, the loops
come to the source's verdicts.
-/

namespace Siliqua.Ledger

open Siliqua.Core Siliqua.Consensus Siliqua.Network Siliqua.Wallet KeyedStore Journal Splits
  RunningSum

/-! ## The loops with exact integers -/

/-- Outcome of a check that adds up amounts. -/
inductive Checked (α : Type) where
  | overflow
  | rejected
  | done (value : α)
  deriving DecidableEq

/-- The outcome, by whether all additions fit and the check goes through. -/
inductive Checked.Meets {α : Type} (fits ok : Prop) (value : α) : Checked α → Prop
  | overflow (hfits : ¬ fits) : Checked.Meets fits ok value .overflow
  | rejected (hfits : fits) (hok : ¬ ok) : Checked.Meets fits ok value .rejected
  | done (hfits : fits) (hok : ok) : Checked.Meets fits ok value (.done value)

theorem Checked.Meets.ne_overflow_iff {α : Type} {fits ok : Prop} {value : α} {r : Checked α}
    (h : r.Meets fits ok value) : r ≠ .overflow ↔ fits := by
  cases h with
  | overflow hfits => exact iff_of_false (fun hne ↦ hne rfl) hfits
  | rejected hfits hok => exact iff_of_true (by simp) hfits
  | done hfits hok => exact iff_of_true (by simp) hfits

theorem Checked.Meets.congr {α : Type} {fits fits' ok ok' : Prop} {value : α} {r : Checked α}
    (h : r.Meets fits ok value) (hfits : fits ↔ fits') (hok : fits → (ok ↔ ok')) :
    r.Meets fits' ok' value := by
  cases h with
  | overflow hnot => exact .overflow fun h ↦ hnot (hfits.mpr h)
  | rejected h hnot => exact .rejected (hfits.mp h) fun h' ↦ hnot ((hok h).mpr h')
  | done h h' => exact .done (hfits.mp h) ((hok h).mp h')

section

variable [Crypto]

/-- The input is there and unlocks its output; `node.h:111–114`. -/
def unlocks (tx : Transaction) (utxoSet : UtxoSet) (input : CTxIn × Nat) : Bool :=
  match utxoSet.lookup input.1.prevout with
  | none => false
  | some out => verifyTransactionSignature tx input.2 out.scriptPubKey

/-- The value an input finds. -/
def foundWorth (utxoSet : UtxoSet) (input : CTxIn × Nat) : ℤ :=
  valueAt worth utxoSet input.1.prevout

/-- The loop for `input_total`; `node.h:109–116`. -/
def checkedInputs (tx : Transaction) (utxoSet : UtxoSet) : ℤ → List (CTxIn × Nat) → Checked ℤ
  | inputTotal, [] => .done inputTotal
  | inputTotal, input :: rest =>
    if unlocks tx utxoSet input then
      match add Fits inputTotal (foundWorth utxoSet input) with
      | none => .overflow
      | some inputTotal => checkedInputs tx utxoSet inputTotal rest
    else .rejected

/-- `validate_and_get_fee`; `node.h:105–125`. -/
def checkedFee (tx : Transaction) (utxoSet : UtxoSet) : Checked ℤ :=
  if tx.vin.isEmpty then .rejected
  else
    match checkedInputs tx utxoSet 0 tx.vin.zipIdx with
    | .overflow => .overflow
    | .rejected => .rejected
    | .done inputTotal =>
      match sum Fits 0 (tx.vout.map worth) with
      | none => .overflow
      | some outputTotal =>
        if outputTotal > inputTotal then .rejected
        else if Fits (inputTotal - outputTotal) then .done (inputTotal - outputTotal)
        else .overflow

/-- The loop for `total_fees` or `block_fees`, with the set the next transaction is checked
against; `node.h:221–230,166–180`. -/
def checkedFees (next : UtxoSet → Transaction → UtxoSet) :
    ℤ → UtxoSet → List Transaction → Checked ℤ
  | fees, _, [] => .done fees
  | fees, utxoSet, tx :: rest =>
    if tx.isCoinbase then checkedFees next fees (next utxoSet tx) rest
    else
      match checkedFee tx utxoSet with
      | .overflow => .overflow
      | .rejected => .rejected
      | .done fee =>
        match add Fits fees fee with
        | none => .overflow
        | some fees => checkedFees next fees (next utxoSet tx) rest

/-- The fee loop, `coinbase_paid` and reward plus fees; `node.h:221–242,165–189`. -/
def checkedAmounts (next : UtxoSet → Transaction → UtxoSet) (utxoSet : UtxoSet) (reward : ℤ)
    (vtx : List Transaction) : Checked Unit :=
  match checkedFees next 0 utxoSet vtx with
  | .overflow => .overflow
  | .rejected => .rejected
  | .done fees =>
    match vtx with
    | [] => .rejected
    | front :: _ =>
      if front.isCoinbase then
        match sum Fits 0 (front.vout.map worth), add Fits reward fees with
        | some coinbasePaid, some due => if coinbasePaid = due then .done () else .rejected
        | _, _ => .overflow
      else .rejected

instance (chain : List CBlock) (blk : CBlock) : Decidable (HeaderFits chain blk) :=
  decidable_of_iff (blk.isMerkleRootValid = true ∧ checkProofOfWork blk.toCBlockHeader = true ∧
      blk.hashPrevBlock = tipHash chain ∧ some blk.nBits = expectedBits (extractHeaders chain))
    ⟨fun ⟨hmerkle, hwork, hprev, hbits⟩ ↦ ⟨hmerkle, hwork, hprev, hbits⟩,
      fun h ↦ ⟨h.merkle, h.work, h.prev, h.bits⟩⟩

/-- Reward of the block after a chain, as an integer. -/
def nextReward (chain : List CBlock) : ℤ :=
  (calculateBlockReward (UInt32.ofNat chain.length)).toInt

/-- `try_extend_chain`: every transaction against the chain's set; `node.h:208–246`. -/
def checkedExtend (chain : List CBlock) (blk : CBlock) : Checked Unit :=
  if HeaderFits chain blk then
    checkedAmounts (fun utxoSet _ ↦ utxoSet) (buildUtxoSet chain) (nextReward chain) blk.vtx
  else .rejected

/-- `validate_full_chain` on the block after a chain: every transaction against the set the
ones before it leave; `node.h:148–193`. -/
def checkedValidate (chain : List CBlock) (blk : CBlock) : Checked Unit :=
  if HeaderFits chain blk ∧ (blk.vtx.head?.any Transaction.isCoinbase) = true then
    checkedAmounts (fun utxoSet tx ↦ play utxoSet (entry tx)) (utxosAfter (transactions chain))
      (nextReward chain) blk.vtx
  else .rejected

end

/-! ## One fee -/

theorem fits_zero : Fits 0 := by decide

theorem sum_foundWorth (m : UtxoSet) (tx : Transaction) :
    (tx.vin.zipIdx.map (foundWorth m)).sum = inputWorth tx m := by
  have hfun : foundWorth m = (valueAt worth m ∘ CTxIn.prevout) ∘ Prod.fst := rfl
  rw [hfun, ← List.map_map, List.zipIdx_map_fst, ← List.map_map, inputWorth, Transaction.prevouts]

section

variable [Crypto]

theorem unlocks_iff {tx : Transaction} {m : UtxoSet} {input : CTxIn × Nat} :
    unlocks tx m input = true ↔ Unlocks tx m input := by
  unfold unlocks Unlocks
  cases m.lookup input.1.prevout with
  | none => simp
  | some out => simp

/-- In exact integers: there are inputs, they all unlock, and they hold what the outputs pay. -/
structure Sound (m : UtxoSet) (tx : Transaction) : Prop where
  inputs : tx.vin ≠ []
  unlocks : ∀ input ∈ tx.vin.zipIdx, Unlocks tx m input
  covered : outputWorth tx.vout ≤ inputWorth tx m

/-- The values found up to the first input that does not unlock have sums in `int64_t`. -/
def InputsFit (m : UtxoSet) (tx : Transaction) : Prop :=
  Within Fits 0 ((tx.vin.zipIdx.takeWhile (unlocks tx m)).map (foundWorth m))

/-- Where all inputs unlock, the first outputs have sums in `int64_t`, whatever their number, and
so has what the inputs hold beyond all of them. -/
structure OutputsFit (m : UtxoSet) (tx : Transaction) : Prop where
  outputs : tx.vin ≠ [] → (∀ input ∈ tx.vin.zipIdx, Unlocks tx m input) →
    Within Fits 0 (tx.vout.map worth)
  fee : Sound m tx → inputWorth tx m - outputWorth tx.vout < 2 ^ 63

theorem InputsFit.inputWorth {m : UtxoSet} {tx : Transaction} (h : InputsFit m tx)
    (hall : ∀ input ∈ tx.vin.zipIdx, Unlocks tx m input) : Fits (inputWorth tx m) := by
  have hwhole : tx.vin.zipIdx.takeWhile (Ledger.unlocks tx m) = tx.vin.zipIdx :=
    List.takeWhile_eq_self_iff.mpr fun input hinput ↦ unlocks_iff.mpr (hall input hinput)
  rw [InputsFit, hwhole] at h
  have hsum := h.whole
  rwa [sum_foundWorth, Int.zero_add] at hsum

theorem OutputsFit.outputWorth {m : UtxoSet} {tx : Transaction} (h : OutputsFit m tx)
    (hvin : tx.vin ≠ []) (hall : ∀ input ∈ tx.vin.zipIdx, Unlocks tx m input) :
    Fits (outputWorth tx.vout) := by
  have hsum := (h.outputs hvin hall).whole
  rwa [Int.zero_add] at hsum

theorem checkedInputs_meets {tx : Transaction} {m : UtxoSet} {total : ℤ} (htotal : Fits total)
    (inputs : List (CTxIn × Nat)) :
    (checkedInputs tx m total inputs).Meets
      (Within Fits total ((inputs.takeWhile (unlocks tx m)).map (foundWorth m)))
      (∀ input ∈ inputs, Unlocks tx m input) (total + (inputs.map (foundWorth m)).sum) := by
  induction inputs generalizing total with
  | nil =>
    rw [List.map_nil, List.sum_nil, Int.add_zero]
    exact .done (within_nil_iff.mpr htotal) (List.forall_mem_nil _)
  | cons input rest ih =>
    rw [checkedInputs]
    by_cases hu : unlocks tx m input = true
    · rw [if_pos hu, List.takeWhile_cons_of_pos hu, List.map_cons, within_cons_iff,
        List.forall_mem_cons, List.map_cons, List.sum_cons, ← Int.add_assoc,
        and_iff_right htotal, and_iff_right (unlocks_iff.mp hu)]
      by_cases hadd : Fits (total + foundWorth m input)
      · rw [add_eq_some_iff.mpr ⟨hadd, rfl⟩]
        exact ih hadd
      · have hnone : add Fits total (foundWorth m input) = none := if_neg hadd
        rw [hnone]
        exact .overflow fun h ↦ hadd h.head
    · rw [if_neg hu, List.takeWhile_cons_of_neg hu]
      refine .rejected (within_nil_iff.mpr htotal) fun h ↦ hu ?_
      exact unlocks_iff.mpr (h input List.mem_cons_self)

/-- When the fee check overflows, and its result where it does not. -/
theorem checkedFee_meets (tx : Transaction) (m : UtxoSet) :
    (checkedFee tx m).Meets (InputsFit m tx ∧ OutputsFit m tx) (Sound m tx)
      (inputWorth tx m - outputWorth tx.vout) := by
  rw [checkedFee]
  by_cases hvin : tx.vin = []
  · rw [if_pos (List.isEmpty_iff.mpr hvin)]
    have hinputs : InputsFit m tx := by
      rw [InputsFit, hvin]
      exact within_nil_iff.mpr fits_zero
    exact .rejected ⟨hinputs, fun h ↦ absurd hvin h, fun h ↦ absurd hvin h.inputs⟩
      fun h ↦ h.inputs hvin
  rw [if_neg fun h ↦ hvin (List.isEmpty_iff.mp h)]
  have hloop := @checkedInputs_meets _ tx m 0 fits_zero tx.vin.zipIdx
  rw [sum_foundWorth, Int.zero_add] at hloop
  generalize checkedInputs tx m 0 tx.vin.zipIdx = inputs at hloop
  cases hloop with
  | overflow hfits => exact .overflow fun h ↦ hfits h.1
  | rejected hfits hnot =>
    exact .rejected ⟨hfits, fun _ h ↦ absurd h hnot, fun h ↦ absurd h.unlocks hnot⟩
      fun h ↦ hnot h.unlocks
  | done hfits hall =>
    dsimp only
    cases hsum : sum Fits 0 (tx.vout.map worth) with
    | none =>
      have hnot : ¬ Within Fits 0 (tx.vout.map worth) := fun h ↦
        (sum_ne_none_iff fits_zero).mpr h hsum
      exact .overflow fun h ↦ hnot (h.2.outputs hvin hall)
    | some outputTotal =>
      obtain ⟨houtputs, htotal⟩ := (sum_eq_some_iff fits_zero).mp hsum
      obtain rfl : outputTotal = outputWorth tx.vout := htotal.trans (Int.zero_add _)
      dsimp only
      split
      · next hgt =>
        refine .rejected ⟨hfits, fun _ _ ↦ houtputs, fun h ↦ ?_⟩ fun h ↦ ?_
        · exact absurd h.covered (Int.not_le.mpr hgt)
        · exact absurd h.covered (Int.not_le.mpr hgt)
      · next hle =>
        have hcovered := Int.not_lt.mp hle
        have hsound : Sound m tx := ⟨hvin, hall, hcovered⟩
        split
        · next hfee => exact .done ⟨hfits, fun _ _ ↦ houtputs, fun _ ↦ hfee.2⟩ hsound
        · next hfee => exact .overflow fun h ↦ hfee ⟨by omega, h.2.fee hsound⟩

/-! ## The fees of a block -/

/-- The fee loop goes on after the transaction. -/
def Passes (m : UtxoSet) (tx : Transaction) : Prop := tx.isCoinbase = false → Sound m tx

/-- It goes on after all of them. -/
def PassesAll (next : UtxoSet → Transaction → UtxoSet) : UtxoSet → List Transaction → Prop
  | _, [] => True
  | m, tx :: rest => Passes m tx ∧ PassesAll next (next m tx) rest

/-- Exact fees of some transactions, each in the set it is checked against. -/
def feesAfter (next : UtxoSet → Transaction → UtxoSet) : UtxoSet → List Transaction → ℤ
  | _, [] => 0
  | m, tx :: rest => exactFee m tx + feesAfter next (next m tx) rest

/-- As far as the loop goes: what is demanded of each fee check holds, and every fee, added to
those before it, gives an `int64_t`. -/
def FeesFit (demand : UtxoSet → Transaction → Prop) (next : UtxoSet → Transaction → UtxoSet)
    (total : ℤ) (m : UtxoSet) (txs : List Transaction) : Prop :=
  ∀ pre tx post, txs = pre ++ tx :: post → PassesAll next m pre → tx.isCoinbase = false →
    demand (pre.foldl next m) tx ∧
      (Sound (pre.foldl next m) tx →
        Fits (total + feesAfter next m pre + exactFee (pre.foldl next m) tx))

omit [Crypto] in
theorem exactFee_eq {m : UtxoSet} {tx : Transaction} (hc : tx.isCoinbase = false) :
    exactFee m tx = inputWorth tx m - outputWorth tx.vout := by
  simp only [exactFee, hc, Bool.false_eq_true, ↓reduceIte]

theorem feesFit_cons_iff {demand : UtxoSet → Transaction → Prop}
    {next : UtxoSet → Transaction → UtxoSet} {total : ℤ} {m : UtxoSet} {tx : Transaction}
    {rest : List Transaction} :
    FeesFit demand next total m (tx :: rest) ↔
      (tx.isCoinbase = false → demand m tx ∧ (Sound m tx → Fits (total + exactFee m tx))) ∧
        (Passes m tx → FeesFit demand next (total + exactFee m tx) (next m tx) rest) := by
  rw [FeesFit, forall_split_cons]
  refine and_congr ?_ ?_
  · simp only [PassesAll, List.foldl_nil, feesAfter, Int.add_zero, true_imp_iff]
  · simp only [PassesAll, List.foldl_cons, feesAfter, FeesFit, ← Int.add_assoc, and_imp]
    exact ⟨fun h hpass pre t post heq ↦ h pre t post heq hpass,
      fun h pre t post heq hpass ↦ h hpass pre t post heq⟩

theorem checkedFees_meets {next : UtxoSet → Transaction → UtxoSet} {total : ℤ} {m : UtxoSet}
    (txs : List Transaction) :
    (checkedFees next total m txs).Meets
      (FeesFit (fun m tx ↦ InputsFit m tx ∧ OutputsFit m tx) next total m txs)
      (PassesAll next m txs) (total + feesAfter next m txs) := by
  induction txs generalizing total m with
  | nil =>
    rw [feesAfter, Int.add_zero]
    exact .done (fun pre tx post heq ↦ by simp at heq) trivial
  | cons tx rest ih =>
    rw [checkedFees, feesFit_cons_iff, feesAfter, ← Int.add_assoc, PassesAll]
    cases hc : tx.isCoinbase with
    | true =>
      have hpass : Passes m tx := fun h ↦ absurd h (by simp [hc])
      have hzero : exactFee m tx = 0 := by simp only [exactFee, hc, ↓reduceIte]
      rw [hzero, Int.add_zero]
      simpa [hpass] using ih
    | false =>
      have hfee := checkedFee_meets tx m
      have hpass : Passes m tx ↔ Sound m tx := ⟨fun h ↦ h hc, fun h _ ↦ h⟩
      rw [hpass]
      simp only [Bool.false_eq_true, ↓reduceIte, true_imp_iff]
      generalize checkedFee tx m = fee at hfee
      cases hfee with
      | overflow hfits => exact .overflow fun h ↦ hfits h.1.1
      | rejected hfits hnot =>
        exact .rejected ⟨⟨hfits, fun h ↦ absurd h hnot⟩, fun h ↦ absurd h hnot⟩ fun h ↦ hnot h.1
      | done hfits hsound =>
        rw [← exactFee_eq hc]
        dsimp only
        by_cases hadd : Fits (total + exactFee m tx)
        · rw [add_eq_some_iff.mpr ⟨hadd, rfl⟩]
          simpa [hfits, hsound, hadd] using ih
        · have hnone : add Fits total (exactFee m tx) = none := if_neg hadd
          rw [hnone]
          exact .overflow fun h ↦ hadd (h.1.2 hsound)

/-! ## The amounts of a block -/

/-- As far as the checks go: the fees fit, the first outputs of the coinbase have sums in
`int64_t`, whatever their number, and so has the reward with the fees. -/
structure AmountsFit (demand : UtxoSet → Transaction → Prop)
    (next : UtxoSet → Transaction → UtxoSet) (m : UtxoSet) (reward : ℤ)
    (vtx : List Transaction) : Prop where
  fees : FeesFit demand next 0 m vtx
  coinbase : PassesAll next m vtx → ∀ front, vtx.head? = some front → front.isCoinbase = true →
    Within Fits 0 (front.vout.map worth) ∧ Fits (reward + feesAfter next m vtx)

/-- In exact integers: all fees are sound and the coinbase pays the reward and the fees. -/
structure AmountsSound (next : UtxoSet → Transaction → UtxoSet) (m : UtxoSet) (reward : ℤ)
    (vtx : List Transaction) : Prop where
  fees : PassesAll next m vtx
  coinbase : ∃ front, vtx.head? = some front ∧ front.isCoinbase = true ∧
    outputWorth front.vout = reward + feesAfter next m vtx

theorem checkedAmounts_meets (next : UtxoSet → Transaction → UtxoSet) (m : UtxoSet) (reward : ℤ)
    (vtx : List Transaction) :
    (checkedAmounts next m reward vtx).Meets
      (AmountsFit (fun m tx ↦ InputsFit m tx ∧ OutputsFit m tx) next m reward vtx)
      (AmountsSound next m reward vtx) () := by
  rw [checkedAmounts]
  have hloop := @checkedFees_meets _ next 0 m vtx
  rw [Int.zero_add] at hloop
  generalize checkedFees next 0 m vtx = fees at hloop
  cases hloop with
  | overflow hfits => exact .overflow fun h ↦ hfits h.fees
  | rejected hfits hnot =>
    exact .rejected ⟨hfits, fun h ↦ absurd h hnot⟩ fun h ↦ hnot h.fees
  | done hfits hpass =>
    dsimp only
    cases vtx with
    | nil => exact .rejected ⟨hfits, by simp⟩ fun h ↦ by simpa using h.coinbase
    | cons front rest =>
      dsimp only
      cases hc : front.isCoinbase with
      | false =>
        exact .rejected ⟨hfits, by simp [hc]⟩ fun h ↦ by simpa [hc] using h.coinbase
      | true =>
        rw [if_pos rfl]
        have hcoinbase (h : AmountsFit (fun m tx ↦ InputsFit m tx ∧ OutputsFit m tx) next m reward
            (front :: rest)) := h.coinbase hpass front rfl hc
        cases hsum : sum Fits 0 (front.vout.map worth) with
        | none =>
          exact .overflow fun h ↦ (sum_ne_none_iff fits_zero).mpr (hcoinbase h).1 hsum
        | some coinbasePaid =>
          obtain ⟨hpaid, htotal⟩ := (sum_eq_some_iff fits_zero).mp hsum
          obtain rfl : coinbasePaid = outputWorth front.vout := htotal.trans (Int.zero_add _)
          cases hadd : add Fits reward (feesAfter next m (front :: rest)) with
          | none =>
            refine .overflow fun h ↦ ?_
            rw [add_eq_some_iff.mpr ⟨(hcoinbase h).2, rfl⟩] at hadd
            cases hadd
          | some due =>
            obtain ⟨hdue, rfl⟩ := add_eq_some_iff.mp hadd
            have hall : AmountsFit (fun m tx ↦ InputsFit m tx ∧ OutputsFit m tx) next m reward
                (front :: rest) := by
              refine ⟨hfits, fun _ front' hfront _ ↦ ?_⟩
              obtain rfl := Option.some.inj hfront
              exact ⟨hpaid, hdue⟩
            dsimp only
            split
            · next heq => exact .done hall ⟨hpass, front, rfl, hc, heq⟩
            · next hne =>
              refine .rejected hall fun h ↦ hne ?_
              obtain ⟨front', hfront, -, heq⟩ := h.coinbase
              obtain rfl := Option.some.inj hfront
              exact heq

/-! ## The checked loops against the source's -/

/-- All sums of a fee check fit. -/
abbrev FeeFits (m : UtxoSet) (tx : Transaction) : Prop := InputsFit m tx ∧ OutputsFit m tx

/-- Where nothing overflows, the source's fee is not negative exactly for sound transactions. -/
theorem fee_nonneg_iff_sound {tx : Transaction} {m : UtxoSet} (h : FeeFits m tx) :
    0 ≤ validateAndGetFee tx m ↔ Sound m tx := by
  rw [fee_nonneg_iff]
  constructor
  · rintro ⟨hvin, hall, hle, -⟩
    obtain ⟨hinlow, hinhigh⟩ := h.1.inputWorth hall
    obtain ⟨houtlow, houthigh⟩ := h.2.outputWorth hvin hall
    rw [Int64.le_iff_toInt_le, Int64.toInt_ofInt_of_le houtlow houthigh,
      Int64.toInt_ofInt_of_le hinlow hinhigh] at hle
    exact ⟨hvin, hall, hle⟩
  · intro hsound
    obtain ⟨hinlow, hinhigh⟩ := h.1.inputWorth hsound.unlocks
    obtain ⟨houtlow, houthigh⟩ := h.2.outputWorth hsound.inputs hsound.unlocks
    have hcovered := hsound.covered
    refine ⟨hsound.inputs, hsound.unlocks, ?_, ?_⟩
    · rwa [Int64.le_iff_toInt_le, Int64.toInt_ofInt_of_le houtlow houthigh,
        Int64.toInt_ofInt_of_le hinlow hinhigh]
    · rw [Int64.le_iff_toInt_le, Int64.toInt_ofInt_of_le (by omega) (h.2.fee hsound)]
      change (0 : ℤ) ≤ _
      omega

theorem passes_iff_of_fits {tx : Transaction} {m : UtxoSet}
    (h : tx.isCoinbase = false → FeeFits m tx) :
    Passes m tx ↔ (tx.isCoinbase = false → 0 ≤ validateAndGetFee tx m) :=
  forall_congr' fun hc ↦ (fee_nonneg_iff_sound (h hc)).symm

/-- Against a set that does not change: what the loop of `try_extend_chain` finds. -/
theorem passesAll_const_iff {m : UtxoSet} {total : ℤ} {txs : List Transaction}
    (h : FeesFit FeeFits (fun m _ ↦ m) total m txs) :
    PassesAll (fun m _ ↦ m) m txs ↔
      ∀ tx ∈ txs, tx.isCoinbase = false → 0 ≤ validateAndGetFee tx m := by
  induction txs generalizing total with
  | nil => simp [PassesAll]
  | cons tx rest ih =>
    obtain ⟨hone, hrest⟩ := feesFit_cons_iff.mp h
    rw [PassesAll, List.forall_mem_cons, ← passes_iff_of_fits fun hc ↦ (hone hc).1]
    exact and_congr_right fun hpass ↦ ih (hrest hpass)

theorem sum_feeOf_eq {m : UtxoSet} {txs : List Transaction}
    (h : ∀ tx ∈ txs, tx.isCoinbase = false → 0 ≤ validateAndGetFee tx m) :
    (txs.map (feeOf m)).sum = Int64.ofInt (feesAfter (fun m _ ↦ m) m txs) := by
  induction txs with
  | nil => rfl
  | cons tx rest ih =>
    obtain ⟨htx, hrest⟩ := List.forall_mem_cons.mp h
    rw [List.map_cons, List.sum_cons, ih hrest, feesAfter, Int64.ofInt_add, feeOf]
    cases hc : tx.isCoinbase with
    | true => simp [exactFee, hc]
    | false =>
      simp only [Bool.false_eq_true, ↓reduceIte]
      rw [fee_eq (htx hc), exactFee_eq hc]

/-- Against the set the transactions before leave: what the loop of `validate_full_chain` finds. -/
theorem passesAll_play_iff {m : UtxoSet} {total : ℤ} {txs : List Transaction}
    (hsized : ∀ tx ∈ txs, tx.vout.length < 2 ^ 32)
    (h : FeesFit FeeFits (fun m tx ↦ play m (entry tx)) total m txs) :
    PassesAll (fun m tx ↦ play m (entry tx)) m txs ↔ AdmitsAll m txs := by
  induction txs generalizing total m with
  | nil => exact Iff.rfl
  | cons tx rest ih =>
    obtain ⟨hone, hrest⟩ := feesFit_cons_iff.mp h
    obtain ⟨htx, hsized'⟩ := List.forall_mem_cons.mp hsized
    have hadm : Passes m tx ↔ Admits m tx := by
      rw [passes_iff_of_fits fun hc ↦ (hone hc).1]
      exact ⟨fun hfee ↦ ⟨htx, hfee⟩, fun h ↦ h.fee⟩
    rw [PassesAll, AdmitsAll, ← hadm]
    exact and_congr_right fun hpass ↦ ih hsized' (hrest hpass)

omit [Crypto] in
theorem feesAfter_play (m : UtxoSet) (txs : List Transaction) :
    feesAfter (fun m tx ↦ play m (entry tx)) m txs = exactFees m txs := by
  induction txs generalizing m with
  | nil => rfl
  | cons tx rest ih => rw [feesAfter, exactFees, ih]

omit [Crypto] in
/-- The coinbase's amount and the amount due, compared at 64 bits and exactly. -/
theorem outputTotal_eq_iff {vout : List CTxOut} {reward : Int64} {fees : ℤ}
    (hpaid : Within Fits 0 (vout.map worth)) (hdue : Fits (reward.toInt + fees)) :
    outputTotal vout = reward + Int64.ofInt fees ↔ outputWorth vout = reward.toInt + fees := by
  have hfits : Fits (outputWorth vout) := by
    have hsum := hpaid.whole
    rwa [Int.zero_add] at hsum
  have hadd : reward + Int64.ofInt fees = Int64.ofInt (reward.toInt + fees) := by
    rw [Int64.ofInt_add, Int64.ofInt_toInt]
  rw [outputTotal_eq, hadd]
  exact ⟨eq_of_ofInt_eq hfits hdue, fun h ↦ by rw [h]⟩

/-- When the fee check overflows, and the source's verdict where it does not. -/
theorem checkedFee_verdict (tx : Transaction) (m : UtxoSet) :
    (checkedFee tx m).Meets (FeeFits m tx) (0 ≤ validateAndGetFee tx m)
      (inputWorth tx m - outputWorth tx.vout) :=
  (checkedFee_meets tx m).congr Iff.rfl fun h ↦ (fee_nonneg_iff_sound h).symm

/-- When `try_extend_chain` overflows, and its verdict where it does not. -/
theorem checkedExtend_verdict {chain : List CBlock} (hne : chain ≠ []) (blk : CBlock) :
    (checkedExtend chain blk).Meets
      (HeaderFits chain blk → AmountsFit FeeFits (fun m _ ↦ m) (buildUtxoSet chain)
        (nextReward chain) blk.vtx)
      ((tryExtendChain chain blk).1 = true) () := by
  rw [checkedExtend, tryExtendChain_iff hne]
  split
  · next hheader =>
    refine (checkedAmounts_meets _ _ _ _).congr ⟨fun h _ ↦ h, fun h ↦ h hheader⟩ fun hfits ↦ ?_
    have hpass := passesAll_const_iff hfits.fees
    constructor
    · rintro ⟨hall, front, hfront, hc, heq⟩
      obtain ⟨hpaid, hdue⟩ := hfits.coinbase hall front hfront hc
      obtain ⟨rest, hv⟩ := List.head?_eq_some_iff.mp hfront
      refine ⟨hheader, hpass.mp hall, front, rest, hv, hc, ?_⟩
      rw [sum_feeOf_eq (hpass.mp hall)]
      exact (outputTotal_eq_iff hpaid hdue).mpr heq
    · intro h
      obtain ⟨front, rest, hv, hc, heq⟩ := h.coinbase
      have hall := hpass.mpr h.fees
      have hfront : blk.vtx.head? = some front := by rw [hv]; rfl
      obtain ⟨hpaid, hdue⟩ := hfits.coinbase hall front hfront hc
      rw [sum_feeOf_eq h.fees] at heq
      exact ⟨hall, front, hfront, hc, (outputTotal_eq_iff hpaid hdue).mp heq⟩
  · next hheader => exact .rejected (fun h ↦ absurd h hheader) fun h ↦ hheader h.toHeaderFits

/-- When `validate_full_chain` overflows on the block after an accepted chain, and its verdict
where it does not. -/
theorem checkedValidate_verdict {chain : List CBlock} (h : validateFullChain chain = true)
    {blk : CBlock} (hsized : ∀ tx ∈ blk.vtx, tx.vout.length < 2 ^ 32) :
    (checkedValidate chain blk).Meets
      (HeaderFits chain blk → (blk.vtx.head?.any Transaction.isCoinbase) = true →
        AmountsFit FeeFits (fun m tx ↦ play m (entry tx)) (utxosAfter (transactions chain))
          (nextReward chain) blk.vtx)
      (validateFullChain (chain ++ [blk]) = true) () := by
  rw [checkedValidate, validateFullChain_concat_iff h]
  split
  · next hguard =>
    refine (checkedAmounts_meets _ _ _ _).congr
      ⟨fun h _ _ ↦ h, fun h ↦ h hguard.1 hguard.2⟩ fun hfits ↦ ?_
    have hpass := passesAll_play_iff hsized hfits.fees
    constructor
    · rintro ⟨hall, front, hfront, hc, heq⟩
      obtain ⟨hpaid, hdue⟩ := hfits.coinbase hall front hfront hc
      obtain ⟨rest, hv⟩ := List.head?_eq_some_iff.mp hfront
      refine ⟨hguard.1, hpass.mp hall, front, rest, hv, hc, ?_⟩
      rw [feesOf_eq_ofInt (hpass.mp hall), ← feesAfter_play]
      exact (outputTotal_eq_iff hpaid hdue).mpr heq
    · intro h
      obtain ⟨front, rest, hv, hc, heq⟩ := h.coinbase
      have hall := hpass.mpr h.admits
      have hfront : blk.vtx.head? = some front := by rw [hv]; rfl
      obtain ⟨hpaid, hdue⟩ := hfits.coinbase hall front hfront hc
      rw [feesOf_eq_ofInt h.admits, ← feesAfter_play] at heq
      exact ⟨hall, front, hfront, hc, (outputTotal_eq_iff hpaid hdue).mp heq⟩
  · next hguard =>
    refine .rejected (fun hheader hcb ↦ absurd ⟨hheader, hcb⟩ hguard) fun h ↦ hguard ?_
    obtain ⟨front, rest, hv, hc, -⟩ := h.coinbase
    exact ⟨h.toHeaderFits, by simp [hv, hc]⟩

end

end Siliqua.Ledger
