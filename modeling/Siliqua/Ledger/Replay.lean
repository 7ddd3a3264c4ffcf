import Siliqua.Base.Journal
import Siliqua.Ledger.Fee

/-!
# Accepted chains as journals

`validate_full_chain` plays the transactions of a chain as journal entries, `build_utxo_set`
settles the same entries. This module says once what the validator checks of each block and
each transaction, and in which state.
-/

namespace Siliqua.Ledger

open Siliqua.Core Siliqua.Consensus Siliqua.Network KeyedStore Journal Splits

/-- All transactions of a chain, in order. -/
def transactions (chain : List CBlock) : List Transaction := chain.flatMap CBlock.vtx

/-- The outpoints validation erases for a transaction. -/
def spends (tx : Transaction) : List COutPoint := if tx.isCoinbase then [] else tx.prevouts

/-- A transaction as a journal entry. -/
def entry (tx : Transaction) : Entry COutPoint CTxOut := ⟨spends tx, tx.prevouts, tx.outpoints⟩

/-- A list of transactions as a journal. -/
def journal (txs : List Transaction) : List (Entry COutPoint CTxOut) := txs.map entry

/-- The UTXO set after some transactions, played one by one from nothing. -/
def utxosAfter (txs : List Transaction) : UtxoSet := replay ∅ (journal txs)

@[simp] theorem journal_nil : journal [] = [] := rfl

@[simp] theorem journal_cons (tx : Transaction) (txs : List Transaction) :
    journal (tx :: txs) = entry tx :: journal txs := rfl

@[simp] theorem journal_append (txs txs' : List Transaction) :
    journal (txs ++ txs') = journal txs ++ journal txs' := List.map_append

@[simp] theorem transactions_nil : transactions [] = [] := rfl

@[simp] theorem transactions_append (c c' : List CBlock) :
    transactions (c ++ c') = transactions c ++ transactions c' := List.flatMap_append

@[simp] theorem transactions_singleton (blk : CBlock) : transactions [blk] = blk.vtx := by
  simp [transactions]

/-- A chain's journal creates and names what its transactions do. -/
theorem flatMap_journal_creates (txs : List Transaction) :
    (journal txs).flatMap Entry.creates = txs.flatMap Transaction.outpoints := by
  rw [journal, List.flatMap_map]
  rfl

theorem flatMap_journal_names (txs : List Transaction) :
    (journal txs).flatMap Entry.names = txs.flatMap Transaction.prevouts := by
  rw [journal, List.flatMap_map]
  rfl

theorem extractHeaders_concat (chain : List CBlock) (blk : CBlock) :
    extractHeaders (chain ++ [blk]) = extractHeaders chain ++ [blk.toCBlockHeader] := by
  simp [extractHeaders]

theorem utxosAfter_append (txs txs' : List Transaction) :
    utxosAfter (txs ++ txs') = replay (utxosAfter txs) (journal txs') := by
  rw [utxosAfter, journal_append, replay_append]
  rfl

/-- What validation erases for a transaction is among the outpoints its inputs name. -/
theorem mem_prevouts_of_mem_spends {tx : Transaction} {p : COutPoint} (h : p ∈ spends tx) :
    p ∈ tx.prevouts := by
  unfold spends at h
  split at h
  · cases h
  · exact h

theorem spends_of_not_isCoinbase {tx : Transaction} (h : tx.isCoinbase = false) :
    spends tx = tx.prevouts := by
  simp [spends, h]

private theorem foldl_vtx {β : Type} (f : β → Transaction → β) (chain : List CBlock) (b : β) :
    chain.foldl (fun b blk ↦ blk.vtx.foldl f b) b = (transactions chain).foldl f b :=
  List.foldl_flatMap.symm

/-- `build_utxo_set` settles the journal of the chain. -/
theorem buildUtxoSet_eq_settle (chain : List CBlock) :
    buildUtxoSet chain = settle (journal (transactions chain)) := by
  have hcreate : ∀ (txs : List Transaction) (m : UtxoSet),
      txs.foldl (fun m tx ↦ emplaceAll m tx.outpoints) m =
        emplaceAll m ((journal txs).flatMap Entry.creates) := by
    intro txs
    induction txs with
    | nil => simp [emplaceAll]
    | cons tx rest ih =>
      intro m
      rw [List.foldl_cons, ih, journal_cons, List.flatMap_cons, emplaceAll, emplaceAll, emplaceAll,
        List.foldl_append]
      rfl
  have herase : ∀ (txs : List Transaction) (m : UtxoSet),
      txs.foldl (fun m tx ↦ eraseAll m tx.prevouts) m =
        eraseAll m ((journal txs).flatMap Entry.names) := by
    intro txs
    induction txs with
    | nil => simp [eraseAll]
    | cons tx rest ih =>
      intro m
      rw [List.foldl_cons, ih, journal_cons, List.flatMap_cons, eraseAll, eraseAll, eraseAll,
        List.foldl_append]
      rfl
  rw [buildUtxoSet, foldl_vtx, foldl_vtx, hcreate, herase, settle]

/-- What an entry of a chain's journal spends it also names. -/
theorem journal_named (txs : List Transaction) :
    ∀ e ∈ journal txs, ∀ p ∈ e.spends, p ∈ e.names := by
  intro e he p hp
  obtain ⟨tx, -, rfl⟩ := List.mem_map.mp he
  exact mem_prevouts_of_mem_spends hp

/-- `build_utxo_set` never holds more than the set the validator has built. -/
theorem buildUtxoSet_sub (chain : List CBlock) :
    Sub (buildUtxoSet chain) (utxosAfter (transactions chain)) := by
  rw [buildUtxoSet_eq_settle]
  exact settle_sub_replay (journal_named _)

/-- An outpoint is held by `build_utxo_set` when a transaction creates it and no input names
it. -/
theorem mem_buildUtxoSet {chain : List CBlock} {p : COutPoint} :
    p ∈ buildUtxoSet chain ↔
      (∃ tx ∈ transactions chain, p ∈ tx.outpoints.map Prod.fst) ∧
        ∀ tx ∈ transactions chain, p ∉ tx.prevouts := by
  rw [buildUtxoSet_eq_settle, settle, mem_eraseAll, mem_emplaceAll]
  simp only [journal, List.flatMap_map, Finmap.notMem_empty, false_or, List.mem_map,
    List.mem_flatMap, entry, not_exists, not_and]
  constructor
  · rintro ⟨⟨kv, ⟨tx, htx, hkv⟩, rfl⟩, hun⟩
    exact ⟨⟨tx, htx, kv, hkv, rfl⟩, hun⟩
  · rintro ⟨⟨tx, htx, kv, hkv, rfl⟩, hun⟩
    exact ⟨⟨kv, ⟨tx, htx, hkv⟩, rfl⟩, hun⟩

/-! ## One transaction -/

variable [Crypto]

/-- Fee a transaction adds to its block; coinbase-looking ones are skipped. -/
def feeOf (m : UtxoSet) (tx : Transaction) : Int64 :=
  if tx.isCoinbase then 0 else validateAndGetFee tx m

/-- The transaction gets past the validator's loop in this state. -/
structure Admits (m : UtxoSet) (tx : Transaction) : Prop where
  outputs : tx.vout.length < 2 ^ 32
  fee : tx.isCoinbase = false → 0 ≤ validateAndGetFee tx m

/-- Fees of a list of transactions, each in the state the ones before it leave. -/
def feesOf (m : UtxoSet) : List Transaction → Int64
  | [] => 0
  | tx :: rest => feeOf m tx + feesOf (play m (entry tx)) rest

/-- All transactions of a list get past the loop, one after the other. -/
def AdmitsAll (m : UtxoSet) : List Transaction → Prop
  | [] => True
  | tx :: rest => Admits m tx ∧ AdmitsAll (play m (entry tx)) rest

/-- One turn of the validator's transaction loop. -/
theorem connectTx_eq_some_iff {m m' : UtxoSet} {fees fees' : Int64} {tx : Transaction} :
    connectTx (m, fees) tx = some (m', fees') ↔
      Admits m tx ∧ m' = play m (entry tx) ∧ fees' = fees + feeOf m tx := by
  unfold connectTx
  split
  · next hbig => exact iff_of_false (by simp) fun h ↦ absurd h.1.outputs (by omega)
  · next hsmall =>
    have hlen : tx.vout.length < 2 ^ 32 := by omega
    cases hc : tx.isCoinbase with
    | true =>
      have hadm : Admits m tx := ⟨hlen, by simp [hc]⟩
      simp [hadm, play, entry, spends, feeOf, hc, eraseAll, eq_comm]
    | false =>
      by_cases hf : validateAndGetFee tx m < 0
      · have hnot : ¬ Admits m tx := fun h ↦ absurd (h.fee hc) (Int64.not_le.mpr hf)
        simp [hf, hnot]
      · have hadm : Admits m tx := ⟨hlen, fun _ ↦ Int64.not_lt.mp hf⟩
        simp [hf, hadm, play, entry, spends, feeOf, hc, eq_comm]

/-- The whole transaction loop of a block. -/
theorem foldlM_connectTx {txs : List Transaction} {m m' : UtxoSet} {fees fees' : Int64} :
    txs.foldlM connectTx (m, fees) = some (m', fees') ↔
      AdmitsAll m txs ∧ m' = replay m (journal txs) ∧ fees' = fees + feesOf m txs := by
  induction txs generalizing m fees with
  | nil => simp [AdmitsAll, replay, feesOf, eq_comm]
  | cons tx rest ih =>
    rw [List.foldlM_cons, Option.bind_eq_bind, Option.bind_eq_some_iff, AdmitsAll, feesOf,
      ← Int64.add_assoc, journal_cons]
    constructor
    · rintro ⟨⟨m₁, fees₁⟩, hone, hrest⟩
      obtain ⟨hadm, rfl, rfl⟩ := connectTx_eq_some_iff.mp hone
      obtain ⟨hall, rfl, rfl⟩ := ih.mp hrest
      exact ⟨⟨hadm, hall⟩, rfl, rfl⟩
    · rintro ⟨⟨hadm, hall⟩, rfl, rfl⟩
      exact ⟨_, connectTx_eq_some_iff.mpr ⟨hadm, rfl, rfl⟩, ih.mpr ⟨hall, rfl, rfl⟩⟩

/-- `AdmitsAll`, read at one transaction of the list. -/
theorem admitsAll_iff {m : UtxoSet} {txs : List Transaction} :
    AdmitsAll m txs ↔
      ∀ pre tx post, txs = pre ++ tx :: post → Admits (replay m (journal pre)) tx := by
  induction txs generalizing m with
  | nil => simp [AdmitsAll]
  | cons t rest ih =>
    rw [AdmitsAll, ih, forall_split_cons]
    rfl

theorem admitsAll_append {m : UtxoSet} {txs txs' : List Transaction} :
    AdmitsAll m (txs ++ txs') ↔ AdmitsAll m txs ∧ AdmitsAll (replay m (journal txs)) txs' := by
  induction txs generalizing m with
  | nil => simp [AdmitsAll, replay]
  | cons tx rest ih =>
    rw [List.cons_append, AdmitsAll, AdmitsAll, ih, journal_cons, and_assoc]
    rfl

/-! ## One block -/

/-- Hash the next block of a chain has to point at. -/
def tipHash (chain : List CBlock) : Hash256 :=
  match chain.getLast? with
  | none => Hash256.zero
  | some tip => tip.getHash

theorem tipHash_eq {chain : List CBlock} {tip : CBlock} (h : chain.getLast? = some tip) :
    tipHash chain = tip.getHash := by
  rw [tipHash, h]

/-- The validator's state after a chain. -/
def stateAfter (chain : List CBlock) : ChainState :=
  ⟨utxosAfter (transactions chain), extractHeaders chain, tipHash chain⟩

/-- The checks on a block that do not look at the UTXO set. -/
structure HeaderFits (chain : List CBlock) (blk : CBlock) : Prop where
  merkle : blk.isMerkleRootValid = true
  work : checkProofOfWork blk.toCBlockHeader = true
  prev : blk.hashPrevBlock = tipHash chain
  bits : some blk.nBits = expectedBits (extractHeaders chain)

/-- All checks on a block that extends a chain. -/
structure BlockFits (chain : List CBlock) (blk : CBlock) : Prop extends HeaderFits chain blk where
  admits : AdmitsAll (utxosAfter (transactions chain)) blk.vtx
  coinbase : ∃ front rest, blk.vtx = front :: rest ∧ front.isCoinbase = true ∧
    outputTotal front.vout = calculateBlockReward (UInt32.ofNat chain.length) +
      feesOf (utxosAfter (transactions chain)) blk.vtx

theorem tipHash_concat (chain : List CBlock) (blk : CBlock) :
    tipHash (chain ++ [blk]) = blk.getHash := by
  simp [tipHash]

private theorem stateAfter_concat (chain : List CBlock) (blk : CBlock) :
    stateAfter (chain ++ [blk]) =
      ⟨replay (utxosAfter (transactions chain)) (journal blk.vtx),
        extractHeaders chain ++ [blk.toCBlockHeader], blk.getHash⟩ := by
  rw [stateAfter, transactions_append, transactions_singleton, utxosAfter_append,
    extractHeaders_concat, tipHash_concat]

/-- One turn of the validator's block loop, from the state after a chain. -/
theorem connectBlock_eq_some_iff {chain : List CBlock} {blk : CBlock} {st : ChainState} :
    connectBlock (stateAfter chain) blk = some st ↔
      BlockFits chain blk ∧ st = stateAfter (chain ++ [blk]) := by
  have hlen : (stateAfter chain).headersSoFar.length = chain.length := List.length_map _
  have hloop {utxoSet : UtxoSet} {fees : Int64} :
      blk.vtx.foldlM connectTx ((stateAfter chain).utxoSet, 0) = some (utxoSet, fees) ↔
        AdmitsAll (utxosAfter (transactions chain)) blk.vtx ∧
          utxoSet = replay (utxosAfter (transactions chain)) (journal blk.vtx) ∧
          fees = feesOf (utxosAfter (transactions chain)) blk.vtx := by
    rw [foldlM_connectTx, Int64.zero_add]
    rfl
  rw [stateAfter_concat]
  simp only [connectBlock, Option.ite_none_left_eq_some, Bool.or_eq_true, Bool.not_eq_true',
    not_or, Bool.not_eq_false, ne_eq, Decidable.not_not, hlen]
  constructor
  · rintro ⟨⟨hmerkle, hwork⟩, hprev, hbits, hbody⟩
    split at hbody
    · cases hbody
    next front rest hv =>
    rw [Option.ite_none_left_eq_some] at hbody
    obtain ⟨hcb, hbody⟩ := hbody
    split at hbody
    · cases hbody
    next utxoSet fees hfold =>
    obtain ⟨hadm, rfl, rfl⟩ := hloop.mp hfold
    rw [Option.ite_none_left_eq_some, Decidable.not_not] at hbody
    obtain ⟨htot, hst⟩ := hbody
    refine ⟨⟨⟨hmerkle, hwork, hprev, hbits⟩, hadm, front, rest, hv, ?_, htot⟩, ?_⟩
    · simpa using hcb
    · exact (Option.some.inj hst).symm
  · rintro ⟨h, rfl⟩
    obtain ⟨front, rest, hv, hcb, htot⟩ := h.coinbase
    refine ⟨⟨h.merkle, h.work⟩, h.prev, h.bits, ?_⟩
    rw [hloop.mpr ⟨h.admits, rfl, rfl⟩]
    simp [stateAfter, hv, hcb, htot]

/-! ## Whole chains -/

private theorem replayChain_concat (chain : List CBlock) (blk : CBlock) :
    replayChain (chain ++ [blk]) = (replayChain chain).bind (connectBlock · blk) := by
  rw [replayChain, replayChain, List.foldlM_append]
  simp only [List.foldlM_cons, List.foldlM_nil, Option.bind_eq_bind, Option.pure_def,
    Option.bind_fun_some]

/-- The block loop succeeds when every block passes its checks after the blocks before it, and
ends in the state after the chain. -/
theorem replayChain_eq_some_iff {chain : List CBlock} {st : ChainState} :
    replayChain chain = some st ↔
      (∀ pre blk post, chain = pre ++ blk :: post → BlockFits pre blk) ∧ st = stateAfter chain := by
  induction chain using List.reverseRecOn generalizing st with
  | nil =>
    have hinit : stateAfter [] = ChainState.initial := rfl
    simp [replayChain, hinit, eq_comm]
  | append_singleton chain blk ih =>
    rw [replayChain_concat, forall_split_concat, Option.bind_eq_some_iff]
    constructor
    · rintro ⟨mid, hmid, hlast⟩
      obtain ⟨hall, rfl⟩ := ih.mp hmid
      obtain ⟨hfits, rfl⟩ := connectBlock_eq_some_iff.mp hlast
      exact ⟨⟨hall, hfits⟩, rfl⟩
    · rintro ⟨⟨hall, hfits⟩, rfl⟩
      exact ⟨_, ih.mpr ⟨hall, rfl⟩, connectBlock_eq_some_iff.mpr ⟨hfits, rfl⟩⟩

/-- `validate_full_chain` accepts the non-empty chains all of whose blocks fit. -/
theorem validateFullChain_iff {chain : List CBlock} :
    validateFullChain chain = true ↔
      chain ≠ [] ∧ ∀ pre blk post, chain = pre ++ blk :: post → BlockFits pre blk := by
  rw [validateFullChain, Bool.and_eq_true, Option.isSome_iff_exists]
  simp [replayChain_eq_some_iff]

/-- The state the validator has built when it accepts. -/
theorem replayChain_of_accepted {chain : List CBlock} (h : validateFullChain chain = true) :
    replayChain chain = some (stateAfter chain) :=
  replayChain_eq_some_iff.mpr ⟨(validateFullChain_iff.mp h).2, rfl⟩

/-- One more block on an accepted chain. -/
theorem validateFullChain_concat_iff {chain : List CBlock} {blk : CBlock}
    (h : validateFullChain chain = true) :
    validateFullChain (chain ++ [blk]) = true ↔ BlockFits chain blk := by
  rw [validateFullChain_iff, forall_split_concat]
  have hne : chain ++ [blk] ≠ [] := by simp
  exact ⟨fun hc ↦ hc.2.2, fun hfits ↦ ⟨hne, (validateFullChain_iff.mp h).2, hfits⟩⟩

/-- A chain of one block. -/
theorem validateFullChain_singleton_iff {blk : CBlock} :
    validateFullChain [blk] = true ↔ BlockFits [] blk := by
  rw [validateFullChain_iff, forall_split_singleton]
  simp

/-- A non-empty beginning of an accepted chain is accepted. -/
theorem validateFullChain_of_append {chain chain' : List CBlock}
    (h : validateFullChain (chain ++ chain') = true) (hne : chain ≠ []) :
    validateFullChain chain = true := by
  rw [validateFullChain_iff] at h ⊢
  exact ⟨hne, fun pre blk post heq ↦ h.2 pre blk (post ++ chain') (by simp [heq])⟩

/-- The transactions of an accepted chain pass the transaction loop one after the other. -/
theorem admitsAll_of_accepted {chain : List CBlock} (h : validateFullChain chain = true) :
    AdmitsAll ∅ (transactions chain) := by
  have hall := (validateFullChain_iff.mp h).2
  clear h
  induction chain using List.reverseRecOn with
  | nil => exact trivial
  | append_singleton chain blk ih =>
    obtain ⟨hinit, hlast⟩ := forall_split_concat.mp hall
    rw [transactions_append, transactions_singleton, admitsAll_append]
    exact ⟨ih hinit, hlast.admits⟩

/-- Each transaction of an accepted chain passed in the state the earlier ones left. -/
theorem admits_of_accepted {chain : List CBlock} (h : validateFullChain chain = true)
    {pre post : List Transaction} {tx : Transaction}
    (heq : transactions chain = pre ++ tx :: post) : Admits (utxosAfter pre) tx :=
  admitsAll_iff.mp (admitsAll_of_accepted h) pre tx post heq

/-- No transaction of an accepted chain has `2^32` outputs. -/
theorem outputs_of_accepted {chain : List CBlock} (h : validateFullChain chain = true)
    {tx : Transaction} (htx : tx ∈ transactions chain) : tx.vout.length < 2 ^ 32 := by
  obtain ⟨pre, post, heq⟩ := List.append_of_mem htx
  exact (admits_of_accepted h heq).outputs

end Siliqua.Ledger
