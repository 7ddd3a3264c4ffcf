import Siliqua.Ledger.Supply

/-!
# Output values

The validator compares sums and looks at no single output. Along chains whose blocks hold no
negative value, no sum that wraps and no spend of their own coinbase, every output is worth at
most the rewards so far.
-/

namespace Siliqua.Ledger

open Siliqua.Core Siliqua.Consensus Siliqua.Network KeyedStore Journal Splits

/-! ## Sets without negative values -/

/-- No stored output has a negative value. -/
def Nonneg (m : UtxoSet) : Prop := ∀ p out, m.lookup p = some out → 0 ≤ worth out

/-- No output of the transaction has a negative value, and their sum is one of `int64_t`. -/
structure Payable (tx : Transaction) : Prop where
  nonneg : ∀ out ∈ tx.vout, 0 ≤ worth out
  total : outputWorth tx.vout < 2 ^ 63

theorem nonneg_empty : Nonneg ∅ := by
  intro p out hl
  simp at hl

/-- Payable transactions keep a set without negative values. -/
theorem Nonneg.play {m : UtxoSet} (h : Nonneg m) {tx : Transaction} (htx : Payable tx) :
    Nonneg (play m (entry tx)) := by
  intro p out hl
  rw [lookup_play] at hl
  rcases Option.or_eq_some_iff.mp hl with hold | ⟨-, hnew⟩
  · split at hold
    · cases hold
    · exact h p out hold
  · apply htx.nonneg
    rw [← Transaction.map_snd_outpoints]
    exact List.mem_map_of_mem (mem_of_lookup_eq_some hnew)

theorem nonneg_replay {m : UtxoSet} (h : Nonneg m) {txs : List Transaction}
    (htxs : ∀ tx ∈ txs, Payable tx) : Nonneg (replay m (journal txs)) := by
  induction txs generalizing m with
  | nil => exact h
  | cons tx rest ih =>
    obtain ⟨htx, hrest⟩ := List.forall_mem_cons.mp htxs
    exact ih (h.play htx) hrest

theorem supply_nonneg {m : UtxoSet} (h : Nonneg m) : 0 ≤ supply m := total_nonneg worth h

private theorem outputWorth_nonneg {vout : List CTxOut} (h : ∀ out ∈ vout, 0 ≤ worth out) :
    0 ≤ outputWorth vout := by
  apply List.sum_nonneg
  simpa using h

/-- An output is worth no more than all of them. -/
theorem worth_le_outputWorth {vout : List CTxOut} (h : ∀ out ∈ vout, 0 ≤ worth out) {out : CTxOut}
    (hout : out ∈ vout) : worth out ≤ outputWorth vout := by
  apply List.single_le_sum
  · simpa using h
  · exact List.mem_map_of_mem hout

theorem Nonneg.eraseAll {m : UtxoSet} (h : Nonneg m) (ps : List COutPoint) :
    Nonneg (eraseAll m ps) := by
  intro p out hl
  rw [lookup_eraseAll] at hl
  split at hl
  · cases hl
  · exact h p out hl

theorem valueAt_nonneg {m : UtxoSet} (h : Nonneg m) (p : COutPoint) : 0 ≤ valueAt worth m p := by
  unfold valueAt
  cases hl : m.lookup p with
  | none => exact le_refl 0
  | some out => exact h p out hl

/-- Different inputs find no more than the whole set holds. -/
theorem inputWorth_le_supply {m : UtxoSet} (h : Nonneg m) {tx : Transaction}
    (hd : tx.prevouts.Nodup) : inputWorth tx m ≤ supply m := by
  have hle := supply_nonneg (h.eraseAll tx.prevouts)
  rw [supply, total_eraseAll worth hd] at hle
  rw [inputWorth, supply]
  omega

theorem inputWorth_nonneg {m : UtxoSet} (h : Nonneg m) (tx : Transaction) :
    0 ≤ inputWorth tx m := by
  apply List.sum_nonneg
  intro x hx
  obtain ⟨p, -, rfl⟩ := List.mem_map.mp hx
  exact valueAt_nonneg h p

/-! ## Ordinary transactions -/

/-- What the fee check misses about a transaction with checked inputs. -/
structure Ordinary (tx : Transaction) : Prop extends Payable tx where
  checked : tx.isCoinbase = false
  distinct : tx.prevouts.Nodup

private theorem conserves_of_payable {tx : Transaction} (hd : tx.isCoinbase = false →
    tx.prevouts.Nodup) (h : Payable tx) (m : UtxoSet) : Conserves m tx := by
  refine ⟨hd, fun kv hkv hneg ↦ absurd hneg (not_lt.mpr (h.nonneg _ ?_))⟩
  rw [← Transaction.map_snd_outpoints]
  exact List.mem_map_of_mem hkv

section

variable [Crypto]

/-- An ordinary transaction pays out no more than its inputs hold, and takes the rest away. -/
theorem Ordinary.step {tx : Transaction} (ho : Ordinary tx) {m : UtxoSet} (h : Nonneg m)
    (hb : supply m < 2 ^ 63) (hadm : Admits m tx) :
    outputWorth tx.vout ≤ inputWorth tx m ∧
      supply (play m (entry tx)) ≤ supply m - exactFee m tx := by
  have hin := inputWorth_le_supply h ho.distinct
  have hout := outputWorth_nonneg ho.nonneg
  obtain ⟨-, -, hle, -⟩ := fee_nonneg_iff.mp (hadm.fee ho.checked)
  have htotal := ho.total
  refine ⟨?_, supply_play_le hadm.outputs ho.checked
    (conserves_of_payable (fun _ ↦ ho.distinct) ho.toPayable m)⟩
  have hpos := inputWorth_nonneg h tx
  rw [Int64.le_iff_toInt_le, Int64.toInt_ofInt_of_le (by omega) (by omega),
    Int64.toInt_ofInt_of_le (by omega) (by omega)] at hle
  exact hle

/-- So do ordinary transactions one after the other. -/
theorem ordinary_run {txs : List Transaction} (ho : ∀ tx ∈ txs, Ordinary tx) {m : UtxoSet}
    (h : Nonneg m) (hb : supply m < 2 ^ 63) (hadm : AdmitsAll m txs) :
    0 ≤ exactFees m txs ∧ exactFees m txs ≤ supply m ∧
      ∀ tx ∈ txs, outputWorth tx.vout ≤ supply m := by
  induction txs generalizing m with
  | nil => exact ⟨le_refl 0, supply_nonneg h, by simp⟩
  | cons tx rest ih =>
    obtain ⟨htx, hrest⟩ := List.forall_mem_cons.mp ho
    obtain ⟨hpaid, hstep⟩ := htx.step h hb hadm.1
    have hin := inputWorth_le_supply h htx.distinct
    have hfee : exactFee m tx = inputWorth tx m - outputWorth tx.vout := by
      simp [exactFee, htx.checked]
    obtain ⟨hpos, hle, houts⟩ := ih hrest (h.play htx.toPayable) (by omega) hadm.2
    rw [exactFees]
    refine ⟨by omega, by omega, List.forall_mem_cons.mpr ⟨by omega, fun t ht ↦ ?_⟩⟩
    have hout := houts t ht
    omega

/-- Transactions that name no key at which two sets differ are admitted to both, with the same
fees. -/
theorem admitsAll_of_agreeOff {S : Set COutPoint} {txs : List Transaction}
    (hoff : ∀ tx ∈ txs, ∀ p ∈ tx.prevouts, p ∉ S) {m n : UtxoSet} (h : AgreeOff S m n)
    (hadm : AdmitsAll m txs) : AdmitsAll n txs ∧ exactFees m txs = exactFees n txs := by
  induction txs generalizing m n with
  | nil => exact ⟨trivial, rfl⟩
  | cons tx rest ih =>
    obtain ⟨htx, hrest⟩ := List.forall_mem_cons.mp hoff
    have hsame : ∀ p ∈ tx.prevouts, m.lookup p = n.lookup p := fun p hp ↦ h p (htx p hp)
    obtain ⟨hadm', hfees⟩ := ih hrest (agreeOff_play h (entry tx)) hadm.2
    have hin : inputWorth tx m = inputWorth tx n := by
      rw [inputWorth, inputWorth]
      refine congrArg List.sum (List.map_congr_left fun p hp ↦ ?_)
      rw [valueAt, valueAt, hsame p hp]
    refine ⟨⟨⟨hadm.1.outputs, fun hc ↦ ?_⟩, hadm'⟩, ?_⟩
    · rw [← fee_congr hsame]
      exact hadm.1.fee hc
    · rw [exactFees, exactFees, hfees, exactFee, exactFee, hin]

end

/-! ## Blocks -/

/-- What the validator misses about the values in a block: only the first transaction looks like
a coinbase, no input is repeated, no value is negative, no sum of outputs wraps, and nothing
spends the block's own coinbase. -/
structure ValuesTame (blk : CBlock) : Prop where
  payable : ∀ front ∈ blk.vtx.head?, Payable front
  ordinary : ∀ tx ∈ blk.vtx.tail, Ordinary tx
  immature : ∀ front ∈ blk.vtx.head?, ∀ tx ∈ blk.vtx.tail, ∀ p ∈ tx.prevouts,
    p ∉ front.outpoints.map Prod.fst

theorem rewards_succ (count : Nat) : rewards (count + 1) =
    rewards count + (calculateBlockReward (UInt32.ofNat count)).toInt := by
  rw [rewards, rewards, Finset.sum_range_succ]

section

variable [Crypto]

/-- No value of the validator's set is negative, and the set is worth at most the rewards. -/
structure ValuesHold (chain : List CBlock) : Prop where
  nonneg : Nonneg (utxosAfter (transactions chain))
  bounded : supply (utxosAfter (transactions chain)) ≤ rewards chain.length

variable {chain : List CBlock} {blk : CBlock} (hfits : BlockFits chain blk)
  (htame : ValuesTame blk) (hmax : rewards (chain.length + 1) < 2 ^ 63) (h : ValuesHold chain)
include hfits htame hmax h

/-- The ordinary transactions of a tame block, played on the set before the block: the coinbase in
front of them makes no difference. -/
private theorem ordinary_block {front : Transaction} {rest : List Transaction}
    (hv : blk.vtx = front :: rest) (hcb : front.isCoinbase = true) :
    exactFees (utxosAfter (transactions chain)) blk.vtx =
        exactFees (utxosAfter (transactions chain)) rest ∧
      0 ≤ exactFees (utxosAfter (transactions chain)) rest ∧
      exactFees (utxosAfter (transactions chain)) rest ≤
        supply (utxosAfter (transactions chain)) ∧
      ∀ tx ∈ rest, outputWorth tx.vout ≤ supply (utxosAfter (transactions chain)) := by
  have hreward := calculateBlockReward_nonneg (UInt32.ofNat chain.length)
  rw [rewards_succ] at hmax
  have hbounded := h.bounded
  have hadm := hfits.admits
  rw [hv] at hadm ⊢
  have hoff : AgreeOff {p | p ∈ front.outpoints.map Prod.fst}
      (play (utxosAfter (transactions chain)) (entry front))
      (utxosAfter (transactions chain)) := by
    intro p hp
    have hnone : front.outpoints.lookup p = none := by
      by_contra hsome
      obtain ⟨out, hout⟩ := Option.ne_none_iff_exists'.mp hsome
      exact hp (List.mem_map.mpr ⟨_, mem_of_lookup_eq_some hout, rfl⟩)
    have hspends : (entry front).spends = [] := by simp [entry, spends, hcb]
    rw [lookup_play, hspends, if_neg List.not_mem_nil]
    show (_ : Option CTxOut).or (front.outpoints.lookup p) = _
    rw [hnone, Option.or_none]
  have himmature : ∀ tx ∈ rest, ∀ p ∈ tx.prevouts,
      p ∉ {p | p ∈ front.outpoints.map Prod.fst} := by
    have hall := htame.immature front (by simp [hv])
    rwa [hv] at hall
  obtain ⟨hadm', hsame⟩ := admitsAll_of_agreeOff himmature hoff hadm.2
  have hrest : ∀ tx ∈ rest, Ordinary tx := by simpa [hv] using htame.ordinary
  obtain ⟨hpos, hle, houts⟩ := ordinary_run hrest h.nonneg (by omega) hadm'
  have hfirst : exactFee (utxosAfter (transactions chain)) front = 0 := by simp [exactFee, hcb]
  rw [exactFees, hfirst, Int.zero_add, hsame]
  exact ⟨rfl, hpos, hle, houts⟩

/-- A tame block conserves value. -/
private theorem blockConserves_of_tame : BlockConserves chain blk := by
  obtain ⟨front, rest, hv, hcb, -⟩ := hfits.coinbase
  obtain ⟨hfees, hpos, hle, -⟩ := ordinary_block hfits htame hmax h hv hcb
  have hreward := calculateBlockReward_nonneg (UInt32.ofNat chain.length)
  have hbounded := h.bounded
  rw [rewards_succ] at hmax
  have hfront : Payable front := htame.payable front (by simp [hv])
  have hrest : ∀ tx ∈ rest, Ordinary tx := by simpa [hv] using htame.ordinary
  refine ⟨fun tx htx ↦ (htame.ordinary tx htx).checked, ?_, fun t ht ↦ ?_, ?_⟩
  · rw [hv, forall_split_cons]
    refine ⟨conserves_of_payable (fun hc ↦ by simp [hcb] at hc) hfront _, ?_⟩
    intro pre tx post heq
    have htx := hrest tx (by simp [heq])
    exact conserves_of_payable (fun _ ↦ htx.distinct) htx.toPayable _
  · obtain rfl : front = t := by simpa [hv] using ht
    have hout := outputWorth_nonneg hfront.nonneg
    have htotal := hfront.total
    exact ⟨by omega, htotal⟩
  · rw [hfees]
    exact ⟨by omega, by omega⟩

/-- A tame block keeps the values of the chain in range, and its own are in range. -/
theorem ValuesHold.block : ValuesHold (chain ++ [blk]) ∧
    ∀ tx ∈ blk.vtx, ∀ out ∈ tx.vout, 0 ≤ worth out ∧ worth out ≤ rewards (chain.length + 1) := by
  have hcons := blockConserves_of_tame hfits htame hmax h
  have hsupply := supply_block_le hfits hcons
  obtain ⟨front, rest, hv, hcb, hpaid⟩ := outputWorth_coinbase hfits hcons
  obtain ⟨hfees, -, hle, houts⟩ := ordinary_block hfits htame hmax h hv hcb
  have hreward := calculateBlockReward_nonneg (UInt32.ofNat chain.length)
  have hbounded := h.bounded
  have hfront : Payable front := htame.payable front (by simp [hv])
  have hrest : ∀ tx ∈ rest, Ordinary tx := by simpa [hv] using htame.ordinary
  have hpayable : ∀ tx ∈ blk.vtx, Payable tx := by
    rw [hv]
    exact List.forall_mem_cons.mpr ⟨hfront, fun tx htx ↦ (hrest tx htx).toPayable⟩
  refine ⟨⟨?_, ?_⟩, fun tx htx out hout ↦ ⟨(hpayable tx htx).nonneg out hout, ?_⟩⟩
  · rw [transactions_append, transactions_singleton, utxosAfter_append]
    exact nonneg_replay h.nonneg hpayable
  · rw [List.length_append, List.length_singleton, rewards_succ]
    omega
  · have hworth := worth_le_outputWorth (hpayable tx htx).nonneg hout
    rw [rewards_succ]
    rw [hv] at htx
    rcases List.mem_cons.mp htx with rfl | htx
    · omega
    · have hall := houts tx htx
      omega

end

/-! ## Whole chains -/

section

variable [Crypto]

/-- Along an accepted chain whose blocks are all tame, while the rewards are a value of `int64_t`,
every output is worth at least zero and at most the rewards up to its block. -/
theorem values_in_range {chain : List CBlock} (h : validateFullChain chain = true)
    (htame : ∀ pre blk post, chain = pre ++ blk :: post →
      ValuesTame blk ∧ rewards (pre.length + 1) < 2 ^ 63) :
    ∀ pre blk post, chain = pre ++ blk :: post → ∀ tx ∈ blk.vtx, ∀ out ∈ tx.vout,
      0 ≤ worth out ∧ worth out ≤ rewards (pre.length + 1) := by
  obtain ⟨-, hall⟩ := validateFullChain_iff.mp h
  clear h
  have hrun : ValuesHold chain ∧ ∀ pre blk post, chain = pre ++ blk :: post →
      ∀ tx ∈ blk.vtx, ∀ out ∈ tx.vout, 0 ≤ worth out ∧ worth out ≤ rewards (pre.length + 1) := by
    induction chain using List.reverseRecOn with
    | nil => exact ⟨⟨nonneg_empty, le_refl 0⟩, by simp⟩
    | append_singleton chain blk ih =>
      obtain ⟨htame', hblk, hmax⟩ := forall_split_concat.mp htame
      obtain ⟨hall', hfits⟩ := forall_split_concat.mp hall
      obtain ⟨hvalues, houts⟩ := ih htame' hall'
      obtain ⟨hvalues', hnew⟩ := hvalues.block hfits hblk hmax
      exact ⟨hvalues', forall_split_concat.mpr ⟨houts, hnew⟩⟩
  exact hrun.2

end

private theorem valuesTame_openGenesis : ValuesTame openGenesis where
  payable front hfront := by
    obtain rfl := Option.some.inj hfront
    exact ⟨by decide +kernel, by decide +kernel⟩
  ordinary tx htx := by cases htx
  immature front _ tx htx := by cases htx

private theorem valuesTame_minedBlock : ValuesTame minedBlock where
  payable front hfront := by
    obtain rfl := Option.some.inj hfront
    exact ⟨by decide +kernel, by decide +kernel⟩
  ordinary := by
    have hall : ∀ tx ∈ minedBlock.vtx.tail, ((∀ out ∈ tx.vout, 0 ≤ worth out) ∧
        outputWorth tx.vout < 2 ^ 63) ∧ tx.isCoinbase = false ∧ tx.prevouts.Nodup := by
      decide +kernel
    intro tx htx
    obtain ⟨⟨hnonneg, htotal⟩, hchecked, hdistinct⟩ := hall tx htx
    exact ⟨⟨hnonneg, htotal⟩, hchecked, hdistinct⟩
  immature := by decide +kernel

/-- On a chain that spends the first reward and spends it again, both payments are in range. -/
theorem values_in_range_minedBlock :
    @validateFullChain keylessCrypto [openGenesis, minedBlock] = true ∧
      ∀ tx ∈ minedBlock.vtx, ∀ out ∈ tx.vout, 0 ≤ worth out ∧ worth out ≤ rewards 2 := by
  refine ⟨validateFullChain_minedBlock, ?_⟩
  exact @values_in_range keylessCrypto [openGenesis, minedBlock] validateFullChain_minedBlock
    (forall_split_cons.mpr ⟨⟨valuesTame_openGenesis, by decide +kernel⟩,
      forall_split_singleton.mpr ⟨valuesTame_minedBlock, by decide +kernel⟩⟩)
    [openGenesis] minedBlock [] rfl

/-! ## A coinbase with a negative output -/

/-- Pays one unit more than the first reward, and takes it back in a second output. -/
def negativeTx : Transaction where
  nVersion := 1
  vin := [⟨COutPoint.null, [0, 0, 0, 0], 0xFFFFFFFF⟩]
  vout := [⟨5000000001, openScript⟩, ⟨-1, openScript⟩]
  nLockTime := 0
  txHash := .ofBigEndian 0x31851820bd200c25e5670bc2451f3bbffce546f1a70513675cae9d23f899a1f2

/-- A genesis block with that coinbase. -/
def negativeBlock : CBlock where
  nVersion := 1
  hashPrevBlock := Hash256.zero
  hashMerkleRoot := negativeTx.txHash
  nTime := 1700000002
  nBits := INITIAL_BITS
  nNonce := 0
  vtx := [negativeTx]

/-- The chain is accepted, with one output below zero and one above the rewards. -/
theorem values_out_of_range_negativeBlock :
    @validateFullChain keylessCrypto [negativeBlock] = true ∧
      (∀ tx ∈ transactions [negativeBlock], tx.txHash = @Transaction.getHash keylessCrypto tx) ∧
      (∃ out ∈ negativeTx.vout, worth out < 0) ∧
      ∃ out ∈ negativeTx.vout, rewards 1 < worth out := by
  refine ⟨by decide +kernel, by decide +kernel, by decide +kernel, by decide +kernel⟩

end Siliqua.Ledger
