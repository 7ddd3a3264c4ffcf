import Siliqua.Ledger.Retarget
import Siliqua.Network.OneShot
import Siliqua.Network.Persistence

/-!
# What the mempool holds

Submissions are checked against the chain's UTXO set one by one, never against each other. The
stored mempool is the list of valid submissions up to its limit, and the miner takes all of it
when no two of them spend one outpoint.
-/

namespace Siliqua.Network

open ByteDecoder ByteDecoder.Decoder Siliqua.Core Siliqua.Storage Siliqua.Ledger KeyedStore

/-- A transaction comes in: as a `tx` message to the daemon, or over a connection to
`--receive-tx` on the same files. -/
inductive Submission where
  | message (payload : Bytes)
  | connection (stream : Bytes)

section

variable [Crypto]

/-- The transaction that gets to the acceptance check. -/
def Submission.tx : Submission → Option Transaction
  | .message payload =>
    match Transaction.deserialize payload 0 with
    | .ok (tx, _) => some tx
    | .error _ => none
  | .connection stream =>
    match messages stream with
    | version :: verack :: msg :: _ =>
      if version.command = Command.VERSION ∧ verack.command = Command.VERACK ∧
          msg.command = Command.TX then
        match Transaction.deserialize msg.payload 0 with
        | .ok (tx, _) => some tx
        | .error _ => none
      else none
    | _ => none

/-- What a submission does to a node's files; an exception leaves them alone. -/
def Node.submit (node : Node) : Submission → Node
  | .message payload =>
    match Transaction.deserialize payload 0 with
    | .ok (tx, _) => node.acceptTransaction tx
    | .error _ => node
  | .connection stream =>
    match runReceiveTx node.files stream with
    | .ok (files, _) => { node with files }
    | .error _ => node

/-- A transaction passes the acceptance check against a chain. -/
def validOn (chain : List CBlock) (tx : Transaction) : Bool :=
  !tx.isCoinbase && decide (0 ≤ validateAndGetFee tx (buildUtxoSet chain))

/-- The chain file loads back to the node's chain. -/
def ChainSaved (node : Node) : Prop :=
  ∃ buffer, node.files.chainFile = some buffer ∧ deserializeChain buffer = .ok node.chain

/-! ## Both ways in accept alike -/

theorem fee_nonneg_of_validOn {chain : List CBlock} {tx : Transaction}
    (h : validOn chain tx = true) : 0 ≤ validateAndGetFee tx (buildUtxoSet chain) := by
  rw [validOn, Bool.and_eq_true, decide_eq_true_eq] at h
  exact h.2

theorem takes_iff {node : Node} {tx : Transaction} :
    node.Takes tx ↔ validOn node.chain tx = true ∧
      (loadMempoolOrEmpty node.files.mempoolFile).length < MAX_MEMPOOL_SIZE := by
  simp only [Node.Takes, validOn, Bool.and_eq_true, Bool.not_eq_true', decide_eq_true_eq, and_assoc]

/-- `run_receive_tx` accepts what `AcceptTransaction` does. -/
theorem receiveTx_eq (node : Node) (payload : Bytes) :
    receiveTx node.files node.chain payload =
      (Transaction.deserialize payload 0).map fun r ↦ (node.acceptTransaction r.1).files := by
  unfold receiveTx
  cases Transaction.deserialize payload 0 with
  | error e => rfl
  | ok r =>
    obtain ⟨tx, next⟩ := r
    simp only [Except.map, Node.acceptTransaction]
    generalize (if tx.isCoinbase = true then -1
      else validateAndGetFee tx (buildUtxoSet node.chain)) = fee
    by_cases hfee : fee < 0
    · have hvalid : ¬ fee ≥ 0 := Int64.not_le.mpr hfee
      simp [hfee, hvalid]
    · have hvalid : fee ≥ 0 := Int64.not_lt.mp hfee
      by_cases hroom :
          MAX_MEMPOOL_SIZE ≤ (loadMempoolOrEmpty node.files.mempoolFile).length
      · simp [hfee, hvalid, hroom]
      · simp [hfee, hvalid, hroom]

/-- A submission offers its transaction to `AcceptTransaction`, whichever way it comes in. -/
theorem submit_eq {node : Node} (hsaved : ChainSaved node) (s : Submission) :
    node.submit s = match s.tx with
      | some tx => node.acceptTransaction tx
      | none => node := by
  cases s with
  | message payload =>
    simp only [Node.submit, Submission.tx]
    cases Transaction.deserialize payload 0 <;> rfl
  | connection stream =>
    obtain ⟨buffer, hfile, hload⟩ := hsaved
    simp only [Node.submit, Submission.tx, runReceiveTx, hfile, Option.map_some, hload]
    generalize messages stream = msgs
    match msgs with
    | [] => rfl
    | [version] =>
      by_cases hversion : version.command = Command.VERSION <;> simp [hversion]
    | [version, verack] =>
      by_cases hversion : version.command = Command.VERSION <;>
        by_cases hverack : verack.command = Command.VERACK <;> simp [hversion, hverack]
    | version :: verack :: msg :: rest =>
      by_cases hversion : version.command = Command.VERSION
      · by_cases hverack : verack.command = Command.VERACK
        · by_cases htx : msg.command = Command.TX
          · simp only [hversion, hverack, htx, ne_eq, not_true_eq_false, if_false, and_self,
              if_true, receiveTx_eq]
            cases Transaction.deserialize msg.payload 0 with
            | error e => rfl
            | ok r =>
              have hchain := Node.chain_acceptTransaction node r.1
              simp only [Except.map, ← hchain]
          · simp [hversion, hverack, htx]
        · simp [hversion, hverack]
      · simp [hversion]

/-- What gets to the acceptance check was decoded. -/
theorem encodable_of_tx {s : Submission} {tx : Transaction} (h : s.tx = some tx) :
    tx.Encodable := by
  have hdecoded {payload : Bytes}
      (hd : (match Transaction.deserialize payload 0 with
        | .ok (tx, _) => some tx
        | .error _ => none) = some tx) : tx.Encodable := by
    split at hd
    · next hok =>
      obtain rfl := Option.some.inj hd
      exact (Transaction.codec.canonical (Nat.zero_le _) hok).1
    · cases hd
  cases s with
  | message payload => exact hdecoded h
  | connection stream =>
    simp only [Submission.tx] at h
    split at h
    · split at h
      · exact hdecoded h
      · cases h
    · cases h

/-! ## One submission, then all of them -/

/-- The transactions a node stores for the ones that are submitted: the valid ones, in order,
as long as there is room. -/
def storedFor (chain : List CBlock) (txs : List Transaction) : List Transaction :=
  (txs.filter (validOn chain)).take MAX_MEMPOOL_SIZE

theorem storedFor_concat (chain : List CBlock) (txs : List Transaction) (tx : Transaction) :
    storedFor chain (txs ++ [tx]) =
      if validOn chain tx = true ∧ (storedFor chain txs).length < MAX_MEMPOOL_SIZE then
        storedFor chain txs ++ [tx]
      else storedFor chain txs := by
  rw [storedFor, storedFor, List.filter_append, List.filter_singleton]
  cases validOn chain tx with
  | false => simp
  | true =>
    rw [cond_true, List.take_append, List.length_take]
    by_cases hroom : (txs.filter (validOn chain)).length < MAX_MEMPOOL_SIZE
    · rw [if_pos ⟨rfl, by omega⟩, List.take_of_length_le (i := MAX_MEMPOOL_SIZE - _)]
      rw [List.length_singleton]
      omega
    · rw [if_neg fun h ↦ by omega, Nat.sub_eq_zero_of_le (Nat.not_lt.mp hroom), List.take_zero,
        List.append_nil]

/-- One more call of `AcceptTransaction`. -/
theorem stored_acceptTransaction {chain : List CBlock} {txs : List Transaction} {node : Node}
    (hchain : node.chain = chain)
    (hstored : loadMempoolOrEmpty node.files.mempoolFile = storedFor chain txs)
    {tx : Transaction} (htx : tx.Encodable) :
    loadMempoolOrEmpty (node.acceptTransaction tx).files.mempoolFile =
      storedFor chain (txs ++ [tx]) := by
  rw [loadMempoolOrEmpty_acceptTransaction node htx, storedFor_concat, ← hstored, ← hchain]
  simp only [takes_iff]

/-- The chain and its file stay, and the mempool file holds what is stored for the submitted
transactions. -/
structure Stores (chain : List CBlock) (txs : List Transaction) (node : Node) : Prop where
  chain_eq : node.chain = chain
  saved : ChainSaved node
  stored : loadMempoolOrEmpty node.files.mempoolFile = storedFor chain txs

/-- One submission. -/
theorem Stores.submit {chain : List CBlock} {txs : List Transaction} {node : Node}
    (h : Stores chain txs node) (s : Submission) :
    Stores chain (txs ++ s.tx.toList) (node.submit s) := by
  rw [submit_eq h.saved]
  cases hs : s.tx with
  | none => simpa using h
  | some tx =>
    dsimp only
    refine ⟨?_, ?_, ?_⟩
    · rw [Node.chain_acceptTransaction, h.chain_eq]
    · obtain ⟨buffer, hfile, hload⟩ := h.saved
      refine ⟨buffer, ?_, by rw [Node.chain_acceptTransaction]; exact hload⟩
      rw [Node.acceptTransaction_eq]
      split <;> exact hfile
    · exact stored_acceptTransaction h.chain_eq h.stored (encodable_of_tx hs)

/-- Any number of submissions. -/
theorem stores_submissions {node : Node} (hsaved : ChainSaved node)
    (hempty : loadMempoolOrEmpty node.files.mempoolFile = []) (submissions : List Submission) :
    Stores node.chain (submissions.filterMap Submission.tx)
      (submissions.foldl Node.submit node) := by
  induction submissions using List.reverseRecOn with
  | nil => exact ⟨rfl, hsaved, hempty⟩
  | append_singleton submissions s ih =>
    have hstep := ih.submit s
    rw [List.foldl_append, List.filterMap_append]
    cases hs : s.tx with
    | none => simpa [hs] using hstep
    | some tx => simpa [hs] using hstep

/-! ## Mining what is stored -/

/-- No outpoint is spent by two of the transactions. -/
def SpendApart (txs : List Transaction) : Prop :=
  txs.Pairwise fun tx tx' ↦ ∀ p ∈ tx.prevouts, p ∉ tx'.prevouts

/-- The miner's set still holds what the chain's set holds and no taken transaction has spent. -/
theorem lookup_selectMempool {chain : List CBlock} {txs : List Transaction} {p : COutPoint}
    {out : CTxOut} (hfree : ∀ tx ∈ (selectMempool chain txs).extraTxs, p ∉ tx.prevouts)
    (hout : (buildUtxoSet chain).lookup p = some out) :
    (selectMempool chain txs).utxoSet.lookup p = some out := by
  induction txs using List.reverseRecOn with
  | nil => exact hout
  | append_singleton txs tx ih =>
    rw [selectMempool_concat, selectTx] at hfree ⊢
    split at hfree
    · next htaken =>
      have hold := ih fun t ht ↦ hfree t (List.mem_append_left _ ht)
      rw [if_pos htaken, lookup_emplaceAll, lookup_eraseAll, if_neg (hfree tx (by simp)), hold]
      rfl
    · next hpassed =>
      rw [if_neg hpassed]
      exact ih hfree

/-- A transaction has the fee it has on the chain as long as none of its inputs is taken. -/
theorem fee_selectMempool {chain : List CBlock} {txs : List Transaction} {tx : Transaction}
    (hfee : 0 ≤ validateAndGetFee tx (buildUtxoSet chain))
    (hfree : ∀ t ∈ (selectMempool chain txs).extraTxs, ∀ p ∈ tx.prevouts, p ∉ t.prevouts) :
    validateAndGetFee tx (selectMempool chain txs).utxoSet =
      validateAndGetFee tx (buildUtxoSet chain) := by
  apply fee_congr
  intro p hp
  obtain ⟨out, hout⟩ := Finmap.mem_iff.mp (mem_of_fee_nonneg hfee p hp)
  rw [hout]
  exact lookup_selectMempool (fun t ht ↦ hfree t ht p hp) hout

/-- The miner takes every transaction that is valid on the chain if no two spend one outpoint. -/
theorem extraTxs_of_spendApart {chain : List CBlock} {txs : List Transaction}
    (hvalid : ∀ tx ∈ txs, validOn chain tx = true) (hapart : SpendApart txs) :
    (selectMempool chain txs).extraTxs = txs := by
  induction txs using List.reverseRecOn with
  | nil => rfl
  | append_singleton txs tx ih =>
    obtain ⟨hpair, -, hlast⟩ := List.pairwise_append.mp hapart
    have hextra := ih (fun t ht ↦ hvalid t (List.mem_append_left _ ht)) hpair
    have hfee := fee_nonneg_of_validOn (hvalid tx (by simp))
    have hsame : validateAndGetFee tx (selectMempool chain txs).utxoSet =
        validateAndGetFee tx (buildUtxoSet chain) := by
      refine fee_selectMempool hfee fun t ht p hp hpt ↦ ?_
      rw [hextra] at ht
      exact hlast t ht tx (by simp) p hpt hp
    rw [selectMempool_concat, selectTx, hsame, if_pos hfee, hextra]

/-- From an empty mempool and with the chain unchanged, the stored mempool is the list of valid
submissions, in order, up to `MAX_MEMPOOL_SIZE`; if no two of its entries spend one outpoint,
they are all mined together. -/
theorem mempool_stores_submissions {node : Node} (hsaved : ChainSaved node)
    (hempty : loadMempoolOrEmpty node.files.mempoolFile = []) (submissions : List Submission) :
    loadMempoolOrEmpty (submissions.foldl Node.submit node).files.mempoolFile =
        ((submissions.filterMap Submission.tx).filter (validOn node.chain)).take
          MAX_MEMPOOL_SIZE ∧
      (submissions.foldl Node.submit node).chain = node.chain ∧
      (SpendApart (loadMempoolOrEmpty (submissions.foldl Node.submit node).files.mempoolFile) →
        (selectMempool node.chain
            (loadMempoolOrEmpty (submissions.foldl Node.submit node).files.mempoolFile)).extraTxs =
          loadMempoolOrEmpty (submissions.foldl Node.submit node).files.mempoolFile) := by
  have hstores := stores_submissions hsaved hempty submissions
  refine ⟨hstores.stored, hstores.chain_eq, fun hapart ↦ ?_⟩
  have hvalid : ∀ tx ∈ loadMempoolOrEmpty
      (submissions.foldl Node.submit node).files.mempoolFile,
        validOn node.chain tx = true := by
    intro tx htx
    rw [hstores.stored, storedFor] at htx
    exact (List.mem_filter.mp (List.mem_of_mem_take htx)).2
  exact extraTxs_of_spendApart hvalid hapart

end

/-! ## One payment sent twice -/

/-- The `tx` message of a payment, twice. -/
def repeatedSubmission : List Submission :=
  [.message payingSpendTx.serialize, .message payingSpendTx.serialize]

/-- Both are stored, and only one of them can be mined. -/
theorem mempool_repeatedSubmission :
    @loadMempoolOrEmpty keylessCrypto
        (repeatedSubmission.foldl (@Node.submit keylessCrypto) openNode).files.mempoolFile =
      [payingSpendTx, payingSpendTx] ∧
    (@selectMempool keylessCrypto [openGenesis] [payingSpendTx, payingSpendTx]).extraTxs =
      [payingSpendTx] := by
  decide +kernel

/-- Spends the second reward of `briskChain` for a fee of 1000. -/
def otherSpendTx : Transaction where
  nVersion := 1
  vin := [⟨⟨.ofBigEndian 0x6066fc78d21beb290da9e52a027abc8436864258d43d8485c551fe6bf51c8c3f, 0⟩,
    [], 0xFFFFFFFF⟩]
  vout := [⟨4999999000, openScript⟩]
  nLockTime := 0
  txHash := .ofBigEndian 0x06652a834f33b53b596385d12a2dc817de58b17c5757240028ab6b5dcb76bb78

/-- A daemon with five free rewards and nothing pending. -/
def briskNode : Node := Node.start briskChain (some (serializeMempool []))

/-- A payment, one that builds on it, no transaction at all, and over a connection of its own
another payment. -/
def mixedSubmissions : List Submission :=
  [.message payingSpendTx.serialize, .message followingTx.serialize, .message [],
    .connection (@sendMessage keylessCrypto Command.VERSION buildVersionPayload ++
      @sendMessage keylessCrypto Command.VERACK [] ++
      @sendMessage keylessCrypto Command.TX otherSpendTx.serialize)]

/-- The two payments are stored and mined together. -/
theorem mempool_stores_submissions_briskNode :
    @loadMempoolOrEmpty keylessCrypto
        (mixedSubmissions.foldl (@Node.submit keylessCrypto) briskNode).files.mempoolFile =
      [payingSpendTx, otherSpendTx] ∧
    (@selectMempool keylessCrypto briskChain [payingSpendTx, otherSpendTx]).extraTxs =
      [payingSpendTx, otherSpendTx] := by
  have hencodable : @ChainEncodable keylessCrypto briskChain :=
    @chainEncodable_of_length keylessCrypto _ (by decide +kernel) (by decide +kernel)
  have hsaved : @ChainSaved keylessCrypto briskNode :=
    ⟨_, rfl, @deserializeChain_saved keylessCrypto _ hencodable⟩
  obtain ⟨hstored, -, hmined⟩ := @mempool_stores_submissions keylessCrypto briskNode hsaved
    (by decide +kernel) mixedSubmissions
  have hvalid : ((mixedSubmissions.filterMap (@Submission.tx keylessCrypto)).filter
      (@validOn keylessCrypto briskNode.chain)).take MAX_MEMPOOL_SIZE =
        [payingSpendTx, otherSpendTx] := by decide +kernel
  rw [hvalid] at hstored
  rw [hstored] at hmined
  exact ⟨hstored, hmined (List.pairwise_pair.mpr (by decide))⟩

end Siliqua.Network
