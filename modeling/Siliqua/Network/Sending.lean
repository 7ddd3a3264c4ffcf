import Siliqua.Ledger.ExactPayment
import Siliqua.Network.Frames
import Siliqua.Network.Mempool
import Siliqua.Network.Startup

/-!
# Sending a payment

`run_send_tx` and the node it talks to, a daemon or a `--receive-tx`. A wallet that can pay gets its
payment into the other's mempool if the other knows its outputs and has room, and if the payment is
not too long for a message.
-/

namespace Siliqua.Network

open ByteDecoder Siliqua.Core Siliqua.Storage Siliqua.Wallet Siliqua.Ledger KeyedStore

/-- A connection of a sender and a receiver from its first to its last message: each side has read
what the other sent. -/
structure Transfer [Crypto] {α β : Type} (send : Bytes → Option (α × List Message))
    (receive : Bytes → Except ReadError (β × List Message)) (sender : α) (receiver : β)
    (requests replies : List Message) : Prop where
  sends : send (frames replies) = some (sender, requests)
  receives : receive (frames requests) = .ok (receiver, replies)

/-- Every conversation of the two ends like this, and there is one. -/
structure Ends [Crypto] {α β : Type} (send : Bytes → Option (α × List Message))
    (receive : Bytes → Except ReadError (β × List Message)) (sender : α) (receiver : β) : Prop where
  exists_transfer : ∃ requests replies, Transfer send receive sender receiver requests replies
  unique : ∀ sender' receiver' requests replies,
    Transfer send receive sender' receiver' requests replies → sender' = sender ∧
      receiver' = receiver

/-! ## The conversation -/

def hello : Message := ⟨Command.VERSION, buildVersionPayload⟩
def ready : Message := ⟨Command.VERACK, []⟩
theorem arrives_hello : hello.Arrives := by decide
theorem arrives_ready : ready.Arrives := by decide

/-- What is sent for the messages that come back; `node.h:609–626`. -/
def sendTx (tx : Transaction) (received : List Message) : List Message :=
  let sent := [⟨Command.VERSION, buildVersionPayload⟩]
  match received with
  | [] => sent
  | version :: rest =>
    if version.command ≠ Command.VERSION then sent
    else
      let sent := sent ++ [⟨Command.VERACK, []⟩]
      match rest with
      | [] => sent
      | verack :: _ =>
        if verack.command ≠ Command.VERACK then sent else sent ++ [⟨Command.TX, tx.serialize⟩]

section

variable [Crypto] {α β : Type} {send : Bytes → Option (α × List Message)}
  {receive : Bytes → Except ReadError (β × List Message)} {sender : α} {receiver : β}
  {requests replies : List Message} {tx : Transaction}

end

/-! ## The two receivers -/

section

variable [Crypto] {node : Node} {tx : Transaction}

end

/-! ## The payment -/

section

variable [SigningCrypto]

/-- `node.h:585–629`, on a connection that was opened: the wallet and chain files after, and the
messages sent. `none` where `load_or_create_wallet` throws; `walk` is the order of the hash
table. -/
def runSendTx (generated : Option Wallet) (walk : UtxoSet → List (COutPoint × CTxOut))
    (files : DataFiles) (recipientAddress : Address) (amount : Int64) (stream : Bytes) :
    Option (DataFiles × List Message) := do
  let (myWallet, walletFile) ← loadOrCreateWallet generated files.walletFile
  let files := { files with walletFile }
  match files.chainFile.map deserializeChain with
  | some (.ok chain) =>
    let myUtxos := filterUtxosByAddress (buildUtxoSet chain) myWallet.address
    match myWallet.createTransaction (walk myUtxos) recipientAddress amount DEFAULT_FEE with
    | .error _ => pure (files, [])
    | .ok tx => pure (files, sendTx tx (messages stream))
  | _ => pure (files, [])

variable {w : Wallet} {walk : UtxoSet → List (COutPoint × CTxOut)} {files : DataFiles}
  {chain : List CBlock} {recipient : Address} {amount : Int64} {tx : Transaction} {node : Node}

/-- A wallet with its files: the key works, both files load, and the outputs that the chain has for
it have amounts, and add up to one. -/
structure Payer (w : Wallet) (walk : UtxoSet → List (COutPoint × CTxOut)) (files : DataFiles)
    (chain : List CBlock) : Prop where
  key : KeyWorks w
  walletFile : files.walletFile = some w.seckey.toList
  chainFile : ∃ buffer, files.chainFile = some buffer ∧ deserializeChain buffer = .ok chain
  walks : Enumerates (filterUtxosByAddress (buildUtxoSet chain) w.address)
    (walk (filterUtxosByAddress (buildUtxoSet chain) w.address))
  nonneg : ∀ kv ∈ walk (filterUtxosByAddress (buildUtxoSet chain) w.address), 0 ≤ kv.2.nValue
  fits : balance w.address chain < 2 ^ 63

/-- What a payer's chain covers is covered by the walk. -/
theorem Payer.covers (h : Payer w walk files chain) (hamount : 0 < amount)
    (hcover : amount.toInt + DEFAULT_FEE.toInt ≤ balance w.address chain) :
    Covers (walk (filterUtxosByAddress (buildUtxoSet chain) w.address)) amount DEFAULT_FEE := by
  have htotal : balance w.address chain = walkWorth _ := total_of_enumerates h.walks
  exact ⟨h.nonneg, htotal ▸ h.fits, hamount, by decide, htotal ▸ hcover⟩

/-- A payer's outputs are spendable. -/
theorem Payer.spendable (h : Payer w walk files chain) :
    Spendable w (filterUtxosByAddress (buildUtxoSet chain) w.address) := by
  refine ⟨fun p out hlookup ↦ ?_, fun p out hlookup ↦ ?_, h.fits⟩
  · rw [filterUtxosByAddress, lookup_restrict_eq_some, decide_eq_true_eq] at hlookup
    exact extractP2pkhAddress_eq_some_iff.mp hlookup.2
  · exact h.nonneg (p, out) ((h.walks.2 p out).mpr hlookup)

/-- A UTXO set holds every output that another one has for a wallet. -/
def Knows (utxoSet : UtxoSet) (w : Wallet) (chain : List CBlock) : Prop :=
  ∀ p out, (filterUtxosByAddress (buildUtxoSet chain) w.address).lookup p = some out →
    utxoSet.lookup p = some out

/-- An outpoint of a decoded chain's set is not null. -/
private theorem isNull_of_mem_buildUtxoSet (henc : ChainEncodable chain) {p : COutPoint}
    (h : p ∈ buildUtxoSet chain) : p.isNull = false := by
  obtain ⟨⟨source, hsource, hout⟩, -⟩ := mem_buildUtxoSet.mp h
  obtain ⟨kv, hkv, rfl⟩ := List.mem_map.mp hout
  obtain ⟨blk, hblk, hmem⟩ := List.mem_flatMap.mp hsource
  exact Transaction.isNull_of_mem_outpoints ((henc.2 blk hblk).2 source hmem).vout_lt hkv

omit [SigningCrypto] in
/-- The first outpoint says whether a transaction looks like a coinbase. -/
private theorem isCoinbase_of_prevouts {p : COutPoint} {rest : List COutPoint}
    (h : tx.prevouts = p :: rest) : tx.isCoinbase = p.isNull := by
  unfold Transaction.isCoinbase
  cases hvin : tx.vin with
  | nil =>
    rw [Transaction.prevouts, hvin] at h
    cases h
  | cons txin more =>
    rw [Transaction.prevouts, hvin, List.map_cons] at h
    dsimp only
    rw [(List.cons.inj h).1]

/-- Whoever knows the outputs of a payer finds its payment valid. -/
theorem Payer.validOn (h : Payer w walk files chain) (hamount : 0 < amount)
    (hcover : amount.toInt + DEFAULT_FEE.toInt ≤ balance w.address chain)
    (henc : ChainEncodable chain) {known : List CBlock}
    (hknows : Knows (buildUtxoSet known) w chain)
    (htx : w.createTransaction (walk (filterUtxosByAddress (buildUtxoSet chain) w.address))
      recipient amount DEFAULT_FEE = .ok tx) : validOn known tx = true := by
  have hcovers := h.covers hamount hcover
  obtain ⟨front, back, heq, hfront, hspec, -⟩ :=
    @createTransaction_spec _ w _ recipient amount DEFAULT_FEE hcovers
  have hpays := hspec tx htx
  have howned := h.spendable.owned h.walks heq
  have hchange := hcovers.toInt_change heq hfront
  generalize Int64.ofInt (walkWorth front) - amount - DEFAULT_FEE = change at hpays hchange
  obtain ⟨hamountPos, hfeeNonneg⟩ := hcovers.toInt_bounds
  have hle := (hcovers.walkWorth_le heq).2
  have hfits := hcovers.fits
  have hpaid := hpays.outputWorth
  rw [hchange] at hpaid
  obtain ⟨hpos, hless⟩ : 0 ≤ outputWorth tx.vout ∧ outputWorth tx.vout ≤ walkWorth front := by
    split at hpaid <;> omega
  have hne : front ≠ [] := by
    rintro rfl
    simp only [walkWorth, List.map_nil, List.sum_nil] at hfront
    omega
  have hknown : Owned w (buildUtxoSet known) front :=
    ⟨howned.nodup, fun kv hkv ↦ hknows kv.1 kv.2 (howned.held kv hkv), howned.locked⟩
  have hfee := (hpays.fee h.key hknown hne hpos hless (by omega)).1
  obtain ⟨kv, rest, hcons⟩ := List.exists_cons_of_ne_nil hne
  have hheld := howned.held kv (by rw [hcons]; exact List.mem_cons_self)
  rw [filterUtxosByAddress, lookup_restrict_eq_some] at hheld
  have hnull := isNull_of_mem_buildUtxoSet henc (Finmap.mem_iff.mpr ⟨kv.2, hheld.1⟩)
  have hcoinbase := isCoinbase_of_prevouts (by rw [hpays.prevouts, hcons, List.map_cons])
  rw [hnull] at hcoinbase
  rw [Network.validOn, hcoinbase, Bool.not_false, Bool.true_and, decide_eq_true_eq]
  exact hfee

end

/-! ## Twenty coins for a daemon's mempool -/

end Siliqua.Network
