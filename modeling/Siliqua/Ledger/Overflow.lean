import Siliqua.Core.Codec
import Siliqua.Ledger.CheckedAmounts
import Siliqua.Network.Message

/-!
# Sums that leave `int64_t`

No amount is checked before it is added. The values a block finds in the set of a chain with
modest outputs are no danger, those it brings along are: what it takes for no sum to leave
`int64_t`, in each of the three checks.
-/

namespace Siliqua.Ledger

open Siliqua.Core Siliqua.Consensus Siliqua.Network Siliqua.Wallet KeyedStore Journal Splits
  RunningSum ByteDecoder

/-! ## Modest values -/

/-- Between zero and twenty first rewards. -/
def Modest (out : CTxOut) : Prop := 0 ≤ worth out ∧ worth out ≤ 20 * INITIAL_REWARD.toInt

instance (out : CTxOut) : Decidable (Modest out) := inferInstanceAs (Decidable (_ ∧ _))

/-- All stored values are modest. -/
def ModestSet (m : UtxoSet) : Prop := ∀ p out, m.lookup p = some out → Modest out

/-- All values a list of transactions pays are modest. -/
def ModestTxs (txs : List Transaction) : Prop := ∀ tx ∈ txs, ∀ out ∈ tx.vout, Modest out

instance (txs : List Transaction) : Decidable (ModestTxs txs) :=
  inferInstanceAs (Decidable (∀ tx ∈ txs, ∀ out ∈ tx.vout, Modest out))

theorem cap_eq : 20 * INITIAL_REWARD.toInt = 100000000000 := rfl

theorem ModestTxs.modestSet {txs : List Transaction} (h : ModestTxs txs) {m : UtxoSet}
    (hm : Sourced txs m) : ModestSet m := by
  intro p out hl
  obtain ⟨tx, htx, hout⟩ := hm p out hl
  refine h tx htx out ?_
  rw [← Transaction.map_snd_outpoints]
  exact List.mem_map_of_mem hout

theorem ModestSet.play {m : UtxoSet} (h : ModestSet m) {tx : Transaction}
    (htx : ∀ out ∈ tx.vout, Modest out) : ModestSet (play m (entry tx)) := by
  intro p out hl
  rw [lookup_play] at hl
  rcases Option.or_eq_some_iff.mp hl with hold | ⟨-, hnew⟩
  · split at hold
    · cases hold
    · exact h p out hold
  · apply htx
    rw [← Transaction.map_snd_outpoints]
    exact List.mem_map_of_mem (mem_of_lookup_eq_some hnew)

theorem ModestSet.valueAt {m : UtxoSet} (h : ModestSet m) (p : COutPoint) :
    0 ≤ valueAt worth m p ∧ valueAt worth m p ≤ 20 * INITIAL_REWARD.toInt := by
  rw [KeyedStore.valueAt]
  cases hl : m.lookup p with
  | none => exact ⟨le_refl 0, by decide⟩
  | some out => exact h p out hl

theorem ModestSet.inputWorth {m : UtxoSet} (h : ModestSet m) (tx : Transaction) :
    0 ≤ inputWorth tx m ∧ inputWorth tx m ≤ tx.vin.length * (20 * INITIAL_REWARD.toInt) := by
  have hall : ∀ x ∈ tx.prevouts.map (KeyedStore.valueAt worth m),
      0 ≤ x ∧ x ≤ 20 * INITIAL_REWARD.toInt := by
    intro x hx
    obtain ⟨p, -, rfl⟩ := List.mem_map.mp hx
    exact h.valueAt p
  have hbounds := sum_bounds hall
  rwa [List.length_map, Transaction.prevouts, List.length_map] at hbounds

/-! ## Transactions of a message -/

/-- A message's payload is enough for so many inputs or outputs. -/
theorem fits_of_count {x : ℤ} {count : Nat} (h0 : 0 ≤ x)
    (hx : x ≤ count * (20 * INITIAL_REWARD.toInt)) (hcount : count ≤ MAX_PAYLOAD_SIZE) :
    Fits x := by
  rw [cap_eq] at hx
  rw [MAX_PAYLOAD_SIZE] at hcount
  constructor <;> omega

private theorem within_of_modest {xs : List ℤ} (hlen : xs.length ≤ MAX_PAYLOAD_SIZE)
    (h : ∀ x ∈ xs, 0 ≤ x ∧ x ≤ 20 * INITIAL_REWARD.toInt) : Within Fits 0 xs :=
  within_of_bounded (by decide) (fun _ h0 hx ↦ fits_of_count h0 hx hlen) h

private theorem within_outputs {vout : List CTxOut} (h : ∀ out ∈ vout, Modest out)
    (hlen : vout.length ≤ MAX_PAYLOAD_SIZE) : Within Fits 0 (vout.map worth) := by
  refine within_of_modest (by rwa [List.length_map]) fun x hx ↦ ?_
  obtain ⟨out, hout, rfl⟩ := List.mem_map.mp hx
  exact h out hout

private theorem outputWorth_nonneg_of_modest {vout : List CTxOut} (h : ∀ out ∈ vout, Modest out) :
    0 ≤ outputWorth vout := by
  refine List.sum_nonneg fun x hx ↦ ?_
  obtain ⟨out, hout, rfl⟩ := List.mem_map.mp hx
  exact (h out hout).1

/-- Number of inputs of some transactions. -/
def inputCount (txs : List Transaction) : Nat := (txs.map fun tx ↦ tx.vin.length).sum

/-- A rule for the next set that leaves modest sets modest. -/
def KeepsModest (next : UtxoSet → Transaction → UtxoSet) : Prop :=
  ∀ m tx, ModestSet m → (∀ out ∈ tx.vout, Modest out) → ModestSet (next m tx)

theorem ModestSet.foldl {next : UtxoSet → Transaction → UtxoSet} (hnext : KeepsModest next)
    {m : UtxoSet} (h : ModestSet m) {txs : List Transaction} (htxs : ModestTxs txs) :
    ModestSet (txs.foldl next m) := by
  induction txs generalizing m with
  | nil => exact h
  | cons tx rest ih =>
    obtain ⟨htx, hrest⟩ := List.forall_mem_cons.mp htxs
    exact ih (hnext m tx h htx) hrest

theorem inputCount_le (txs : List Transaction) :
    inputCount txs ≤ (txs.flatMap Transaction.serialize).length := by
  induction txs with
  | nil => exact le_refl 0
  | cons tx rest ih =>
    have hvin := tx.length_vin_le
    rw [inputCount, List.map_cons, List.sum_cons, List.flatMap_cons, List.length_append]
    rw [inputCount] at ih
    omega

section

variable [Crypto]

/-- The transaction came in a message. -/
def ReceivedTx (tx : Transaction) : Prop :=
  ∃ payload next, payload.length ≤ MAX_PAYLOAD_SIZE ∧
    Transaction.deserialize payload 0 = .ok (tx, next)

/-- The block came in a message. -/
def ReceivedBlock (blk : CBlock) : Prop :=
  ∃ payload next, payload.length ≤ MAX_PAYLOAD_SIZE ∧
    CBlock.deserialize payload 0 = .ok (blk, next)

theorem ReceivedTx.length_le {tx : Transaction} (h : ReceivedTx tx) :
    tx.serialize.length ≤ MAX_PAYLOAD_SIZE := by
  obtain ⟨payload, next, hle, hdecode⟩ := h
  obtain ⟨-, -, -, heq⟩ := Transaction.codec.canonical (Nat.zero_le _) hdecode
  rw [heq, List.length_take, List.length_drop]
  omega

theorem ReceivedBlock.length_le {blk : CBlock} (h : ReceivedBlock blk) :
    (blk.vtx.flatMap Transaction.serialize).length ≤ MAX_PAYLOAD_SIZE := by
  obtain ⟨payload, next, hle, hdecode⟩ := h
  obtain ⟨-, -, -, heq⟩ := CBlock.codec.canonical (Nat.zero_le _) hdecode
  have hlen := congrArg List.length heq
  rw [CBlock.length_serialize, List.length_take, List.length_drop] at hlen
  omega

/-! ## Modest values do not overflow -/

/-- No sum of modest values that inputs find leaves `int64_t`. -/
theorem inputsFit_of_modest {m : UtxoSet} (h : ModestSet m) {tx : Transaction}
    (hvin : tx.vin.length ≤ MAX_PAYLOAD_SIZE) : InputsFit m tx := by
  apply within_of_modest
  · have hle := (List.takeWhile_prefix (l := tx.vin.zipIdx) (unlocks tx m)).length_le
    rw [List.length_zipIdx] at hle
    rw [List.length_map]
    omega
  · intro x hx
    obtain ⟨input, -, rfl⟩ := List.mem_map.mp hx
    exact h.valueAt input.1.prevout

/-- Nor does a fee check of modest outputs against such a set. -/
theorem feeFits_of_modest {m : UtxoSet} (h : ModestSet m) {tx : Transaction}
    (hout : ∀ out ∈ tx.vout, Modest out) (hlen : tx.serialize.length ≤ MAX_PAYLOAD_SIZE) :
    FeeFits m tx := by
  have hvin := tx.length_vin_le.trans hlen
  refine ⟨inputsFit_of_modest h hvin, fun _ _ ↦ within_outputs hout (tx.length_vout_le.trans hlen),
    fun _ ↦ ?_⟩
  obtain ⟨hin0, hin⟩ := h.inputWorth tx
  have hfits := fits_of_count hin0 hin hvin
  have hout0 := outputWorth_nonneg_of_modest hout
  have hlt := hfits.2
  omega

/-- An exact fee that passes is at most what the inputs can find. -/
theorem exactFee_bounds {m : UtxoSet} (h : ModestSet m) {tx : Transaction}
    (hout : ∀ out ∈ tx.vout, Modest out) (hpass : Passes m tx) :
    0 ≤ exactFee m tx ∧ exactFee m tx ≤ tx.vin.length * (20 * INITIAL_REWARD.toInt) := by
  obtain ⟨hin0, hin⟩ := h.inputWorth tx
  have hout0 := outputWorth_nonneg_of_modest hout
  cases hc : tx.isCoinbase with
  | true =>
    simp only [exactFee, hc, ↓reduceIte]
    omega
  | false =>
    have hcovered := (hpass hc).covered
    rw [exactFee_eq hc]
    omega

theorem feesAfter_bounds {next : UtxoSet → Transaction → UtxoSet} (hnext : KeepsModest next)
    {m : UtxoSet} (h : ModestSet m) {txs : List Transaction} (htxs : ModestTxs txs)
    (hpass : PassesAll next m txs) :
    0 ≤ feesAfter next m txs ∧
      feesAfter next m txs ≤ inputCount txs * (20 * INITIAL_REWARD.toInt) := by
  induction txs generalizing m with
  | nil => exact ⟨le_refl 0, le_refl 0⟩
  | cons tx rest ih =>
    obtain ⟨htx, hrest⟩ := List.forall_mem_cons.mp htxs
    obtain ⟨hlow, hhigh⟩ := exactFee_bounds h htx hpass.1
    obtain ⟨hlow', hhigh'⟩ := ih (hnext m tx h htx) hrest hpass.2
    rw [feesAfter, inputCount, List.map_cons, List.sum_cons, Nat.cast_add, Int.add_mul]
    rw [inputCount] at hhigh'
    omega

/-- No amount of a block of modest outputs leaves `int64_t`. -/
theorem amountsFit_of_modest {next : UtxoSet → Transaction → UtxoSet} (hnext : KeepsModest next)
    {m : UtxoSet} (h : ModestSet m) {vtx : List Transaction} (hvtx : ModestTxs vtx)
    (hlen : (vtx.flatMap Transaction.serialize).length ≤ MAX_PAYLOAD_SIZE) {reward : ℤ}
    (hreward : 0 ≤ reward ∧ reward ≤ INITIAL_REWARD.toInt) :
    AmountsFit FeeFits next m reward vtx := by
  have hcount := (inputCount_le vtx).trans hlen
  constructor
  · rintro pre tx post rfl hpass hc
    have hpre : ModestTxs pre := fun t ht ↦ hvtx t (List.mem_append_left _ ht)
    have htx := hvtx tx (List.mem_append_right _ List.mem_cons_self)
    have hset := h.foldl hnext hpre
    have hmem : tx ∈ pre ++ tx :: post := List.mem_append_right _ List.mem_cons_self
    refine ⟨feeFits_of_modest hset htx ((length_le_of_mem_flatMap hmem).trans hlen),
      fun hsound ↦ ?_⟩
    obtain ⟨hlow, hhigh⟩ := feesAfter_bounds hnext h hpre hpass
    obtain ⟨hlow', hhigh'⟩ := exactFee_bounds hset htx fun _ ↦ hsound
    have hsum : inputCount pre + tx.vin.length ≤ inputCount (pre ++ tx :: post) := by
      simp only [inputCount, List.map_append, List.map_cons, List.sum_append, List.sum_cons]
      omega
    refine fits_of_count (by omega) ?_ (hsum.trans hcount)
    rw [Nat.cast_add, Int.add_mul]
    omega
  · intro hpass front hfront hc
    have hmem := List.mem_of_mem_head? hfront
    have hfrontlen := front.length_vout_le.trans ((length_le_of_mem_flatMap hmem).trans hlen)
    obtain ⟨hlow, hhigh⟩ := feesAfter_bounds hnext h hvtx hpass
    refine ⟨within_outputs (hvtx front hmem) hfrontlen, ?_⟩
    have hinitial : INITIAL_REWARD.toInt = 5000000000 := rfl
    rw [cap_eq] at hhigh
    rw [MAX_PAYLOAD_SIZE] at hcount
    rw [hinitial] at hreward
    constructor <;> omega

/-! ## When nothing overflows -/

omit [Crypto] in
private theorem foldl_const (m : UtxoSet) (txs : List Transaction) :
    txs.foldl (fun m (_ : Transaction) ↦ m) m = m := by
  induction txs with
  | nil => rfl
  | cons tx rest ih => exact ih

/-- Against a modest set that does not change, the inputs of a received block are no danger. -/
theorem amountsFit_const_iff {m : UtxoSet} (h : ModestSet m) {reward : ℤ} {vtx : List Transaction}
    (hlen : (vtx.flatMap Transaction.serialize).length ≤ MAX_PAYLOAD_SIZE) :
    AmountsFit FeeFits (fun m _ ↦ m) m reward vtx ↔
      AmountsFit OutputsFit (fun m _ ↦ m) m reward vtx := by
  constructor
  · rintro ⟨hfees, hcoinbase⟩
    refine ⟨fun pre tx post heq hpass hc ↦ ?_, hcoinbase⟩
    obtain ⟨hfee, htotal⟩ := hfees pre tx post heq hpass hc
    exact ⟨hfee.2, htotal⟩
  · rintro ⟨hfees, hcoinbase⟩
    refine ⟨fun pre tx post heq hpass hc ↦ ?_, hcoinbase⟩
    obtain ⟨hfee, htotal⟩ := hfees pre tx post heq hpass hc
    have hmem : tx ∈ vtx := heq ▸ List.mem_append_right _ List.mem_cons_self
    have hvin := tx.length_vin_le.trans ((length_le_of_mem_flatMap hmem).trans hlen)
    refine ⟨⟨?_, hfee⟩, htotal⟩
    rw [foldl_const]
    exact inputsFit_of_modest h hvin

omit [Crypto] in
private theorem nextReward_bounds {chain : List CBlock} :
    0 ≤ nextReward chain ∧ nextReward chain ≤ INITIAL_REWARD.toInt := by
  have hvalue := toInt_calculateBlockReward (UInt32.ofNat chain.length).toNat_lt
  rw [UInt32.ofNat_toNat] at hvalue
  have hinitial : INITIAL_REWARD.toInt = 5000000000 := rfl
  have hle := Nat.div_le_self 5000000000 (2 ^ ((UInt32.ofNat chain.length).toNat / 10))
  rw [nextReward, hvalue, hinitial]
  exact ⟨Int.natCast_nonneg _, by exact_mod_cast hle⟩

/-- After a chain of modest outputs, the amounts of what a peer sends stay in `int64_t` exactly
when its own outputs, the fees they leave and the coinbase do; modest ones always do. -/
theorem no_overflow_iff {chain : List CBlock} (h : validateFullChain chain = true)
    (hmodest : ModestTxs (transactions chain)) :
    (∀ tx, ReceivedTx tx →
      (checkedFee tx (buildUtxoSet chain) ≠ .overflow ↔ OutputsFit (buildUtxoSet chain) tx) ∧
      (ModestTxs [tx] → checkedFee tx (buildUtxoSet chain) ≠ .overflow)) ∧
    ∀ blk, ReceivedBlock blk →
      (checkedExtend chain blk ≠ .overflow ↔
        (HeaderFits chain blk →
          AmountsFit OutputsFit (fun utxoSet _ ↦ utxoSet) (buildUtxoSet chain) (nextReward chain)
            blk.vtx)) ∧
      (checkedValidate chain blk ≠ .overflow ↔
        (HeaderFits chain blk → (blk.vtx.head?.any Transaction.isCoinbase) = true →
          AmountsFit FeeFits (fun utxoSet tx ↦ play utxoSet (entry tx))
            (utxosAfter (transactions chain)) (nextReward chain) blk.vtx)) ∧
      (ModestTxs blk.vtx →
        checkedExtend chain blk ≠ .overflow ∧ checkedValidate chain blk ≠ .overflow) := by
  have hset := hmodest.modestSet (sourced_buildUtxoSet chain)
  have hset' := hmodest.modestSet (sourced_utxosAfter (transactions chain))
  have hconst : KeepsModest fun m _ ↦ m := fun _ _ hm _ ↦ hm
  have hplay : KeepsModest fun m tx ↦ play m (entry tx) := fun _ _ hm htx ↦ hm.play htx
  constructor
  · intro tx htx
    have hvin := tx.length_vin_le.trans htx.length_le
    rw [(checkedFee_meets tx _).ne_overflow_iff]
    exact ⟨and_iff_right (inputsFit_of_modest hset hvin),
      fun hout ↦ feeFits_of_modest hset (List.forall_mem_singleton.mp hout) htx.length_le⟩
  · intro blk hblk
    have hlen := hblk.length_le
    have hsized : ∀ tx ∈ blk.vtx, tx.vout.length < 2 ^ 32 := by
      intro tx htx
      have hle := tx.length_vout_le.trans ((length_le_of_mem_flatMap htx).trans hlen)
      rw [MAX_PAYLOAD_SIZE] at hle
      omega
    rw [(checkedExtend_verdict (validateFullChain_iff.mp h).1 blk).ne_overflow_iff,
      (checkedValidate_verdict h hsized).ne_overflow_iff, amountsFit_const_iff hset hlen]
    refine ⟨Iff.rfl, Iff.rfl, fun hvtx ↦ ⟨fun _ ↦ ?_, fun _ _ ↦ ?_⟩⟩
    · exact (amountsFit_const_iff hset hlen).mp
        (amountsFit_of_modest hconst hset hvtx hlen nextReward_bounds)
    · exact amountsFit_of_modest hplay hset' hvtx hlen nextReward_bounds

end

/-! ## Two outputs of almost `2^63` -/

/-- Spends the output of `openRewardTx` for two outputs of `2^63 - 1`. -/
def hugeTx : Transaction where
  nVersion := 1
  vin := [⟨⟨openRewardTx.txHash, 0⟩, [], 0xFFFFFFFF⟩]
  vout := [⟨9223372036854775807, openScript⟩, ⟨9223372036854775807, openScript⟩]
  nLockTime := 0
  txHash := .ofBigEndian 0x95db0652223f9a7febbbeb8dd18a134b9c5a10d629d2331235ce8600a28a2167

/-- The sum of the outputs leaves `int64_t`; wrapped, it passes with a fee of two more than the
input holds. -/
theorem overflow_hugeTx :
    @validateFullChain keylessCrypto [openGenesis] = true ∧
      ModestTxs (transactions [openGenesis]) ∧
      @ReceivedTx keylessCrypto hugeTx ∧
      @checkedFee keylessCrypto hugeTx (buildUtxoSet [openGenesis]) = .overflow ∧
      @validateAndGetFee keylessCrypto hugeTx (buildUtxoSet [openGenesis]) = 5000000002 := by
  refine ⟨validateFullChain_openGenesis, by decide +kernel, ?_, by decide +kernel,
    by decide +kernel⟩
  exact ⟨hugeTx.serialize, hugeTx.serialize.length, by decide +kernel, by decide +kernel⟩

/-- On the same chain a payment without excess is checked without overflow, and so is a block with
two of them. -/
theorem no_overflow_iff_openGenesis :
    @checkedFee keylessCrypto payingSpendTx (buildUtxoSet [openGenesis]) ≠ .overflow ∧
      @checkedExtend keylessCrypto [openGenesis] conflictBlock ≠ .overflow ∧
      @checkedValidate keylessCrypto [openGenesis] conflictBlock ≠ .overflow := by
  obtain ⟨htx, hblk⟩ := @no_overflow_iff keylessCrypto [openGenesis] validateFullChain_openGenesis
    (by decide +kernel)
  refine ⟨(htx payingSpendTx ?_).2 (by decide +kernel),
    (hblk conflictBlock ?_).2.2 (by decide +kernel)⟩
  · exact ⟨payingSpendTx.serialize, payingSpendTx.serialize.length, by decide +kernel,
      by decide +kernel⟩
  · exact ⟨conflictBlock.serialize, conflictBlock.serialize.length, by decide +kernel,
      by decide +kernel⟩

end Siliqua.Ledger
