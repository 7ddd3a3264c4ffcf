import Siliqua.Ledger.Replay

/-!
# Where a UTXO set gets its outputs from

Sets built from the same transactions agree wherever both hold an outpoint, as long as no two
different transactions share a hash: each outpoint leads back to one transaction.
-/

namespace Siliqua.Ledger

open Siliqua.Core Siliqua.Network KeyedStore Journal

/-- No two different transactions of the list share a hash. -/
def Collisionless (txs : List Transaction) : Prop :=
  ∀ tx ∈ txs, ∀ tx' ∈ txs, tx.txHash = tx'.txHash → tx = tx'

instance (txs : List Transaction) : Decidable (Collisionless txs) :=
  inferInstanceAs (Decidable (∀ tx ∈ txs, ∀ tx' ∈ txs, tx.txHash = tx'.txHash → tx = tx'))

/-- An outpoint leads to one transaction of the list and to one of its outputs. -/
structure Identified (txs : List Transaction) : Prop where
  sized : ∀ tx ∈ txs, tx.vout.length < 2 ^ 32
  injective : Collisionless txs

/-- Every output of the set is one of a listed transaction. -/
def Sourced (txs : List Transaction) (m : UtxoSet) : Prop :=
  ∀ p out, m.lookup p = some out → ∃ tx ∈ txs, (p, out) ∈ tx.outpoints

variable {txs : List Transaction} {m n : UtxoSet} {tx : Transaction}

theorem Collisionless.subset {txs' : List Transaction} (h : Collisionless txs') (hs : txs ⊆ txs') :
    Collisionless txs :=
  fun tx htx tx' htx' ↦ h tx (hs htx) tx' (hs htx')

theorem Identified.subset {txs' : List Transaction} (h : Identified txs') (hs : txs ⊆ txs') :
    Identified txs :=
  ⟨fun tx htx ↦ h.sized tx (hs htx), h.injective.subset hs⟩

/-- Two listed transactions that create one outpoint are the same. -/
theorem Collisionless.eq_of_outpoint (h : Collisionless txs) {tx tx' : Transaction}
    (htx : tx ∈ txs) (htx' : tx' ∈ txs) {p : COutPoint} (hp : p ∈ tx.outpoints.map Prod.fst)
    (hp' : p ∈ tx'.outpoints.map Prod.fst) : tx = tx' :=
  h tx htx tx' htx' (Transaction.txHash_eq_of_outpoint hp hp')

/-- An outpoint leads to one output among the listed transactions. -/
theorem Identified.output_eq (h : Identified txs) {tx tx' : Transaction} (htx : tx ∈ txs)
    (htx' : tx' ∈ txs) {p : COutPoint} {out out' : CTxOut} (hp : (p, out) ∈ tx.outpoints)
    (hp' : (p, out') ∈ tx'.outpoints) : out = out' := by
  have hkey : p ∈ tx.outpoints.map Prod.fst := List.mem_map.mpr ⟨_, hp, rfl⟩
  have hkey' : p ∈ tx'.outpoints.map Prod.fst := List.mem_map.mpr ⟨_, hp', rfl⟩
  obtain rfl := h.injective.eq_of_outpoint htx htx' hkey hkey'
  exact Transaction.outpoints_functional (h.sized tx htx) hp hp'

theorem Sourced.subset {txs' : List Transaction} (h : Sourced txs m) (hs : txs ⊆ txs') :
    Sourced txs' m := by
  intro p out hl
  obtain ⟨tx, htx, hp⟩ := h p out hl
  exact ⟨tx, hs htx, hp⟩

theorem Sourced.of_sub (h : Sourced txs n) (hs : Sub m n) : Sourced txs m :=
  fun p out hl ↦ h p out (hs p out hl)

/-- Playing a listed transaction keeps a set sourced. -/
theorem Sourced.play (h : Sourced txs m) (htx : tx ∈ txs) : Sourced txs (play m (entry tx)) := by
  intro p out hl
  rw [lookup_play] at hl
  rcases Option.or_eq_some_iff.mp hl with hold | ⟨-, hnew⟩
  · split at hold
    · cases hold
    · exact h p out hold
  · exact ⟨tx, htx, mem_of_lookup_eq_some hnew⟩

theorem Sourced.replay (h : Sourced txs m) {txs' : List Transaction} (hs : txs' ⊆ txs) :
    Sourced txs (replay m (journal txs')) := by
  induction txs' generalizing m with
  | nil => exact h
  | cons tx rest ih =>
    rw [List.cons_subset] at hs
    exact ih (h.play hs.1) hs.2

theorem sourced_empty : Sourced txs ∅ := by
  intro p out hl
  simp at hl

/-- The validator's set holds outputs of the transactions it has played. -/
theorem sourced_utxosAfter (txs : List Transaction) : Sourced txs (utxosAfter txs) :=
  sourced_empty.replay (List.Subset.refl txs)

/-- `build_utxo_set` holds outputs of the chain's transactions. -/
theorem sourced_buildUtxoSet (chain : List CBlock) :
    Sourced (transactions chain) (buildUtxoSet chain) :=
  (sourced_utxosAfter _).of_sub (buildUtxoSet_sub chain)

/-- Two sets with one source agree on every outpoint they both hold. -/
theorem Sourced.lookup_eq (hid : Identified txs) (hm : Sourced txs m) (hn : Sourced txs n)
    {p : COutPoint} (hpm : p ∈ m) (hpn : p ∈ n) : m.lookup p = n.lookup p := by
  obtain ⟨out, hout⟩ := Finmap.mem_iff.mp hpm
  obtain ⟨out', hout'⟩ := Finmap.mem_iff.mp hpn
  obtain ⟨tx, htx, hp⟩ := hm p out hout
  obtain ⟨tx', htx', hp'⟩ := hn p out' hout'
  rw [hout, hout', hid.output_eq htx htx' hp hp']

/-- A set whose outpoints are all held by another with the same source is part of it. -/
theorem Sourced.sub (hid : Identified txs) (hm : Sourced txs m) (hn : Sourced txs n)
    (h : ∀ p ∈ m, p ∈ n) : Sub m n := by
  intro p out hl
  have hp : p ∈ m := Finmap.mem_iff.mpr ⟨out, hl⟩
  rw [← hm.lookup_eq hid hn hp (h p hp), hl]

/-- Playing one listed transaction on both sides keeps the smaller set part of the larger. -/
theorem Sourced.sub_play (hid : Identified txs) (hm : Sourced txs m) (hn : Sourced txs n)
    (h : Sub m n) (htx : tx ∈ txs) :
    Sub (Journal.play m (entry tx)) (Journal.play n (entry tx)) := by
  refine (hm.play htx).sub hid (hn.play htx) fun p hp ↦ ?_
  rw [mem_play] at hp ⊢
  refine hp.imp_left fun hold ↦ ⟨?_, hold.2⟩
  obtain ⟨out, hl⟩ := Finmap.mem_iff.mp hold.1
  exact Finmap.mem_iff.mpr ⟨out, h p out hl⟩

variable [Crypto]

/-- A transaction has one fee in two sets with one source that both hold its inputs. -/
theorem Sourced.fee_eq (hid : Identified txs) (hm : Sourced txs m) (hn : Sourced txs n)
    (hpm : ∀ p ∈ tx.prevouts, p ∈ m) (hpn : ∀ p ∈ tx.prevouts, p ∈ n) :
    validateAndGetFee tx m = validateAndGetFee tx n :=
  fee_congr fun p hp ↦ hm.lookup_eq hid hn (hpm p hp) (hpn p hp)

/-- A fee found in a part of a set is the fee in the whole set. -/
theorem fee_eq_of_sub (h : Sub m n) (hf : 0 ≤ validateAndGetFee tx m) :
    validateAndGetFee tx n = validateAndGetFee tx m := by
  refine (fee_congr fun p hp ↦ ?_).symm
  obtain ⟨out, hl⟩ := Finmap.mem_iff.mp (mem_of_fee_nonneg hf p hp)
  rw [hl, h p out hl]

end Siliqua.Ledger
