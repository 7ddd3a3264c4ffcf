import Mathlib.Algebra.BigOperators.Intervals
import Mathlib.Algebra.BigOperators.Ring.Finset
import Siliqua.Ledger.FastPath
import Siliqua.Ledger.Mining
import Siliqua.Ledger.UtxoAgreement

/-!
# Money supply

The exact value of the UTXO set the validator builds, against the rewards of the heights it
has seen. The validator compares wrapping sums and skips some transactions, so the bound holds
along chains whose blocks stay clear of both.
-/

namespace Siliqua.Ledger

open Siliqua.Core Siliqua.Consensus Siliqua.Network KeyedStore Journal Splits

/-- Exact value of a UTXO set. -/
def supply (m : UtxoSet) : ℤ := total worth m

/-- Exact sum of the rewards of the first heights of a chain. -/
def rewards (count : Nat) : ℤ :=
  ∑ height ∈ Finset.range count, (calculateBlockReward (UInt32.ofNat height)).toInt

/-! ## The rewards sum to less than twenty times the first -/

private theorem reward_le {halvings : Nat} (h : halvings < 63) :
    (INITIAL_REWARD >>> Int64.ofNat halvings).toInt = ((5000000000 / 2 ^ halvings : Nat) : ℤ) := by
  revert halvings
  decide

/-- The reward of a height below `2^32`. -/
theorem toInt_calculateBlockReward {height : Nat} (h : height < 2 ^ 32) :
    (calculateBlockReward (UInt32.ofNat height)).toInt =
      ((5000000000 / 2 ^ (height / 10) : Nat) : ℤ) := by
  have hhalvings : (UInt32.ofNat height / HALVING_INTERVAL).toNat = height / 10 := by
    rw [UInt32.toNat_div, UInt32.toNat_ofNat', Nat.mod_eq_of_lt h]
    rfl
  unfold calculateBlockReward
  dsimp only
  split
  · next hbig =>
    have hge : 63 ≤ height / 10 := by
      have := UInt32.le_iff_toNat_le.mp hbig
      rwa [hhalvings] at this
    have hzero : 5000000000 / 2 ^ (height / 10) = 0 := by
      apply Nat.div_eq_of_lt
      have hpow : 2 ^ 63 ≤ 2 ^ (height / 10) := Nat.pow_le_pow_right (by decide) hge
      omega
    rw [hzero]
    rfl
  · next hsmall =>
    have hlt : height / 10 < 63 := by
      rw [ge_iff_le, UInt32.le_iff_toNat_le, hhalvings] at hsmall
      exact Nat.lt_of_not_le hsmall
    rw [hhalvings, reward_le hlt]

/-- No reward is negative. -/
theorem calculateBlockReward_nonneg (height : UInt32) :
    0 ≤ (calculateBlockReward height).toInt := by
  have h := toInt_calculateBlockReward height.toNat_lt
  rw [UInt32.ofNat_toNat] at h
  rw [h]
  exact Int.natCast_nonneg _

/-- A quantity that at least halves every ten steps sums to at most twenty times its start. -/
private theorem sum_halving_le {a : Nat → Nat} (ha : ∀ k, 2 * a (k + 1) ≤ a k) (n : Nat) :
    (∑ h ∈ Finset.range n, a (h / 10)) + (20 - n % 10) * a (n / 10) ≤ 20 * a 0 := by
  induction n with
  | zero => simp
  | succ n ih =>
    rw [Finset.sum_range_succ]
    by_cases hr : n % 10 = 9
    · have hdiv : (n + 1) / 10 = n / 10 + 1 := by omega
      have hmod : (n + 1) % 10 = 0 := by omega
      have hhalf := ha (n / 10)
      rw [hdiv, hmod]
      rw [hr] at ih
      omega
    · have hdiv : (n + 1) / 10 = n / 10 := by omega
      have hmod : (n + 1) % 10 = n % 10 + 1 := by omega
      obtain ⟨k, hk⟩ : ∃ k, 20 - n % 10 = k + 1 := ⟨19 - n % 10, by omega⟩
      have hk' : 20 - (n % 10 + 1) = k := by omega
      rw [hdiv, hmod, hk']
      rw [hk, Nat.add_mul] at ih
      omega

/-- All rewards together stay below twenty times the first one. -/
theorem rewards_le {count : Nat} (h : count ≤ 2 ^ 32) :
    rewards count ≤ 20 * INITIAL_REWARD.toInt := by
  have hsum : rewards count =
      ((∑ h ∈ Finset.range count, 5000000000 / 2 ^ (h / 10) : Nat) : ℤ) := by
    rw [rewards, Nat.cast_sum]
    refine Finset.sum_congr rfl fun height hmem ↦ ?_
    have hlt := Finset.mem_range.mp hmem
    exact toInt_calculateBlockReward (by omega)
  have hhalf : ∀ k, 2 * (5000000000 / 2 ^ (k + 1)) ≤ 5000000000 / 2 ^ k := by
    intro k
    rw [Nat.pow_succ, ← Nat.div_div_eq_div_mul]
    omega
  have hle := sum_halving_le (a := fun k ↦ 5000000000 / 2 ^ k) hhalf count
  have hinit : INITIAL_REWARD.toInt = 5000000000 := rfl
  rw [hsum, hinit]
  simp only [Nat.pow_zero, Nat.div_one] at hle
  omega

/-! ## One transaction -/

/-- Sum of the outputs a transaction creates, by outpoint. -/
theorem sum_worth_outpoints (tx : Transaction) :
    (tx.outpoints.map fun kv ↦ worth kv.2).sum = outputWorth tx.vout := by
  have hcomp : (fun kv : COutPoint × CTxOut ↦ worth kv.2) = worth ∘ Prod.snd := rfl
  rw [hcomp, ← List.map_map, Transaction.map_snd_outpoints, outputWorth]

/-- What the fee check misses about a transaction: no repeated input, and no output of negative
value at an outpoint that is already taken. -/
structure Conserves (m : UtxoSet) (tx : Transaction) : Prop where
  distinct : tx.isCoinbase = false → tx.prevouts.Nodup
  kept : ∀ kv ∈ tx.outpoints, worth kv.2 < 0 → kv.1 ∉ eraseAll m (spends tx)

/-- Exact fee of a transaction, zero where the validator does not look. -/
def exactFee (m : UtxoSet) (tx : Transaction) : ℤ :=
  if tx.isCoinbase then 0 else inputWorth tx m - outputWorth tx.vout

/-- A transaction with checked inputs takes its exact fee out of the set. -/
theorem supply_play_le {m : UtxoSet} {tx : Transaction} (hsize : tx.vout.length < 2 ^ 32)
    (hc : tx.isCoinbase = false) (h : Conserves m tx) :
    supply (play m (entry tx)) ≤ supply m - exactFee m tx := by
  have hle := total_emplaceAll_le worth (Transaction.nodup_outpoints hsize) h.kept
  have hspends : spends tx = tx.prevouts := spends_of_not_isCoinbase hc
  rw [sum_worth_outpoints, hspends, total_eraseAll worth (h.distinct hc)] at hle
  have hfee : exactFee m tx = inputWorth tx m - outputWorth tx.vout := by simp [exactFee, hc]
  rw [hfee, inputWorth, supply, supply, play, entry, hspends]
  dsimp only
  omega

/-- A transaction the validator skips adds its outputs. -/
theorem supply_play_coinbase_le {m : UtxoSet} {tx : Transaction} (hsize : tx.vout.length < 2 ^ 32)
    (hc : tx.isCoinbase = true) (h : Conserves m tx) :
    supply (play m (entry tx)) ≤ supply m + outputWorth tx.vout := by
  have hle := total_emplaceAll_le worth (Transaction.nodup_outpoints hsize) h.kept
  have hspends : spends tx = [] := by simp [spends, hc]
  rw [sum_worth_outpoints, hspends] at hle
  rw [supply, supply, play, entry, hspends]
  exact hle

/-- Exact fees of some transactions, each in the state the ones before it leave. -/
def exactFees (m : UtxoSet) : List Transaction → ℤ
  | [] => 0
  | tx :: rest => exactFee m tx + exactFees (play m (entry tx)) rest

/-- Transactions with checked inputs take their exact fees out of the set. -/
theorem supply_replay_le [Crypto] {txs : List Transaction} {m : UtxoSet} (hadm : AdmitsAll m txs)
    (hc : ∀ tx ∈ txs, tx.isCoinbase = false)
    (h : ∀ pre tx post, txs = pre ++ tx :: post → Conserves (replay m (journal pre)) tx) :
    supply (replay m (journal txs)) ≤ supply m - exactFees m txs := by
  induction txs generalizing m with
  | nil => simp [replay, exactFees]
  | cons tx rest ih =>
    obtain ⟨hhead, htail⟩ := forall_split_cons.mp h
    obtain ⟨hchead, hctail⟩ := List.forall_mem_cons.mp hc
    have hone : supply (play m (entry tx)) ≤ supply m - exactFee m tx :=
      supply_play_le hadm.1.outputs hchead hhead
    have hrest := ih hadm.2 hctail htail
    rw [exactFees]
    change supply (replay (play m (entry tx)) (journal rest)) ≤ _
    omega

/-- The validator's fees are the exact ones, wrapped. -/
theorem feesOf_eq_ofInt [Crypto] {txs : List Transaction} {m : UtxoSet} (hadm : AdmitsAll m txs) :
    feesOf m txs = Int64.ofInt (exactFees m txs) := by
  induction txs generalizing m with
  | nil => rfl
  | cons tx rest ih =>
    rw [feesOf, exactFees, Int64.ofInt_add, ih hadm.2, feeOf, exactFee]
    cases hc : tx.isCoinbase with
    | true => rfl
    | false =>
      simp only [Bool.false_eq_true, ↓reduceIte]
      rw [fee_eq (hadm.1.fee hc)]

/-! ## One block -/

/-- The value is one of `int64_t`. -/
def Fits (x : ℤ) : Prop := -2 ^ 63 ≤ x ∧ x < 2 ^ 63

instance (x : ℤ) : Decidable (Fits x) := inferInstanceAs (Decidable (_ ∧ _))

theorem eq_of_ofInt_eq {x y : ℤ} (hx : Fits x) (hy : Fits y) (h : Int64.ofInt x = Int64.ofInt y) :
    x = y := by
  rw [← Int64.toInt_ofInt_of_le hx.1 hx.2, h, Int64.toInt_ofInt_of_le hy.1 hy.2]

/-- What the validator misses about a block on a chain: only the first transaction looks like a
coinbase, every transaction conserves value, and the two sums it compares do not wrap. -/
structure BlockConserves (chain : List CBlock) (blk : CBlock) : Prop where
  oneCoinbase : ∀ tx ∈ blk.vtx.tail, tx.isCoinbase = false
  conserves : ∀ pre tx post, blk.vtx = pre ++ tx :: post →
    Conserves (replay (utxosAfter (transactions chain)) (journal pre)) tx
  paid : ∀ front ∈ blk.vtx.head?, Fits (outputWorth front.vout)
  due : Fits ((calculateBlockReward (UInt32.ofNat chain.length)).toInt +
    exactFees (utxosAfter (transactions chain)) blk.vtx)

/-- The coinbase of such a block pays exactly the reward and the fees. -/
theorem outputWorth_coinbase [Crypto] {chain : List CBlock} {blk : CBlock}
    (hfits : BlockFits chain blk) (h : BlockConserves chain blk) :
    ∃ front rest, blk.vtx = front :: rest ∧ front.isCoinbase = true ∧
      outputWorth front.vout = (calculateBlockReward (UInt32.ofNat chain.length)).toInt +
        exactFees (utxosAfter (transactions chain)) blk.vtx := by
  obtain ⟨front, rest, hv, hcb, htot⟩ := hfits.coinbase
  rw [feesOf_eq_ofInt hfits.admits, outputTotal_eq] at htot
  refine ⟨front, rest, hv, hcb, eq_of_ofInt_eq (h.paid front (by simp [hv])) h.due ?_⟩
  rw [htot, Int64.ofInt_add, Int64.ofInt_toInt]

/-- Such a block adds at most its reward. -/
theorem supply_block_le [Crypto] {chain : List CBlock} {blk : CBlock} (hfits : BlockFits chain blk)
    (h : BlockConserves chain blk) :
    supply (utxosAfter (transactions (chain ++ [blk]))) ≤
      supply (utxosAfter (transactions chain)) +
        (calculateBlockReward (UInt32.ofNat chain.length)).toInt := by
  obtain ⟨front, rest, hv, hcb, hpaid⟩ := outputWorth_coinbase hfits h
  have hadm := hfits.admits
  have hcons := h.conserves
  rw [hv] at hpaid hadm hcons
  obtain ⟨hchead, hctail⟩ := forall_split_cons.mp hcons
  have hfirst : exactFee (utxosAfter (transactions chain)) front = 0 := by simp [exactFee, hcb]
  rw [exactFees, hfirst, Int.zero_add] at hpaid
  have hfront : supply (play (utxosAfter (transactions chain)) (entry front)) ≤
      supply (utxosAfter (transactions chain)) + outputWorth front.vout :=
    supply_play_coinbase_le hadm.1.outputs hcb hchead
  have hordinary : ∀ tx ∈ rest, tx.isCoinbase = false := by simpa [hv] using h.oneCoinbase
  have hrest := supply_replay_le hadm.2 hordinary hctail
  rw [transactions_append, transactions_singleton, utxosAfter_append, hv]
  change supply (replay (play (utxosAfter (transactions chain)) (entry front)) (journal rest)) ≤ _
  omega

/-! ## Whole chains -/

/-- Along an accepted chain whose blocks all conserve value, the validator's set is worth at most
the rewards so far, which on up to `2^32` blocks is at most twenty first rewards. -/
theorem supply_le_rewards [Crypto] {chain : List CBlock} {st : ChainState}
    (h : replayChain chain = some st)
    (hcons : ∀ pre blk post, chain = pre ++ blk :: post → BlockConserves pre blk) :
    supply st.utxoSet ≤ rewards chain.length ∧
      (chain.length ≤ 2 ^ 32 → supply st.utxoSet ≤ 20 * INITIAL_REWARD.toInt) := by
  obtain ⟨hall, rfl⟩ := replayChain_eq_some_iff.mp h
  have hbound : supply (utxosAfter (transactions chain)) ≤ rewards chain.length := by
    clear h
    induction chain using List.reverseRecOn with
    | nil => exact le_refl _
    | append_singleton chain blk ih =>
      obtain ⟨hall', hfits⟩ := forall_split_concat.mp hall
      obtain ⟨hcons', hblk⟩ := forall_split_concat.mp hcons
      have hstep := supply_block_le hfits hblk
      have hprev := ih hcons' hall'
      rw [List.length_append, List.length_singleton, rewards, Finset.sum_range_succ]
      rw [rewards] at hprev
      omega
  exact ⟨hbound, fun hlen ↦ hbound.trans (rewards_le hlen)⟩

private theorem blockConserves_openGenesis : BlockConserves [] openGenesis where
  oneCoinbase := by decide
  conserves := forall_split_singleton.mpr ⟨fun hc ↦ by revert hc; decide, by decide⟩
  paid front hfront := by
    obtain rfl := Option.some.inj hfront
    decide +kernel
  due := by decide +kernel

private theorem blockConserves_minedBlock : BlockConserves [openGenesis] minedBlock where
  oneCoinbase := by decide
  conserves := by
    have hpays {tx : Transaction} (htx : tx ∈ minedBlock.vtx) (m : UtxoSet) : Conserves m tx := by
      have hall : ∀ tx ∈ minedBlock.vtx, (tx.isCoinbase = false → tx.prevouts.Nodup) ∧
          ∀ kv ∈ tx.outpoints, ¬ worth kv.2 < 0 := by decide
      obtain ⟨hdistinct, hnonneg⟩ := hall tx htx
      exact ⟨hdistinct, fun kv hkv hneg ↦ absurd hneg (hnonneg kv hkv)⟩
    exact fun pre tx post heq ↦ hpays (heq ▸ by simp) _
  paid front hfront := by
    obtain rfl := Option.some.inj hfront
    decide +kernel
  due := by decide +kernel

/-- The first reward is spent and spent again, for two fees that the second coinbase pays out. -/
theorem supply_le_rewards_minedBlock :
    supply (utxosAfter (transactions [openGenesis, minedBlock])) ≤ rewards 2 ∧
      (2 ≤ 2 ^ 32 →
        supply (utxosAfter (transactions [openGenesis, minedBlock])) ≤
          20 * INITIAL_REWARD.toInt) :=
  @supply_le_rewards keylessCrypto [openGenesis, minedBlock] _
    (@replayChain_of_accepted keylessCrypto _ validateFullChain_minedBlock)
    (forall_split_cons.mpr ⟨blockConserves_openGenesis,
      forall_split_singleton.mpr blockConserves_minedBlock⟩)

/-! ## A coinbase-looking transaction that pays itself -/

theorem collisionless_disguisedBlock : Collisionless (transactions [disguisedBlock]) := by
  decide +kernel

/-- The first block of a chain leaves forty-one first rewards behind. -/
theorem supply_gt_disguisedBlock :
    @validateFullChain keylessCrypto [disguisedBlock] = true ∧
      (∀ tx ∈ transactions [disguisedBlock], tx.txHash = @Transaction.getHash keylessCrypto tx) ∧
      Collisionless (transactions [disguisedBlock]) ∧
      ∃ st, @replayChain keylessCrypto [disguisedBlock] = some st ∧
        rewards 1 < supply st.utxoSet ∧ 20 * INITIAL_REWARD.toInt < supply st.utxoSet := by
  refine ⟨validateFullChain_disguisedBlock, txHash_disguisedBlock, collisionless_disguisedBlock, _,
    @replayChain_of_accepted keylessCrypto _ validateFullChain_disguisedBlock, ?_⟩
  decide +kernel

end Siliqua.Ledger
