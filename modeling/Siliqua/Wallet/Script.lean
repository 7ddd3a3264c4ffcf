import Siliqua.Wallet.Signing

/-!
# The script machine

`wallet/script.h`: building and recognizing P2PKH scripts, and `script::evaluate`. The program is
the concatenation of both scripts; the machine keeps the bytes not yet read and the stack, whose
head is `stack.back()`.
-/

namespace Siliqua.Wallet

def OP_DUP : UInt8 := 0x76
def OP_HASH160 : UInt8 := 0xa9
def OP_EQUALVERIFY : UInt8 := 0x88
def OP_CHECKSIG : UInt8 := 0xac

/-- `OP_DUP OP_HASH160 <push 20-byte address> OP_EQUALVERIFY OP_CHECKSIG`; `script.h:23–32`. -/
def buildP2pkhScriptPubkey (address : Address) : Bytes :=
  [OP_DUP, OP_HASH160, UInt8.ofNat address.toList.length] ++ address.toList ++
    [OP_EQUALVERIFY, OP_CHECKSIG]

theorem length_buildP2pkhScriptPubkey (address : Address) :
    (buildP2pkhScriptPubkey address).length = 25 := by
  simp [buildP2pkhScriptPubkey]

theorem getLast?_buildP2pkhScriptPubkey (address : Address) :
    (buildP2pkhScriptPubkey address).getLast? = some OP_CHECKSIG := by
  rw [buildP2pkhScriptPubkey, List.getLast?_append]
  rfl

/-- `<push signature> <push pubkey>`; `script.h:37–44`. -/
def buildScriptSig (signature pubkey : Bytes) : Bytes :=
  [UInt8.ofNat signature.length] ++ signature ++ [UInt8.ofNat pubkey.length] ++ pubkey

/-- The address of a script of exactly the P2PKH form; `script.h:53–65`. -/
def extractP2pkhAddress (scriptPubkey : Bytes) : Option Address :=
  if h : scriptPubkey.length = 3 + ADDRESS_SIZE + 2 then
    if scriptPubkey[0] ≠ OP_DUP ∨ scriptPubkey[1] ≠ OP_HASH160 ∨
        scriptPubkey[2] ≠ UInt8.ofNat ADDRESS_SIZE then none
    else if scriptPubkey[3 + ADDRESS_SIZE] ≠ OP_EQUALVERIFY ∨
        scriptPubkey[4 + ADDRESS_SIZE] ≠ OP_CHECKSIG then none
    else some ⟨(scriptPubkey.drop 3).take ADDRESS_SIZE, by
      rw [List.length_take, List.length_drop, h, ADDRESS_SIZE]
      rfl⟩
  else none

private theorem exists_fields_of_length {script : Bytes} (h : script.length = 25) :
    ∃ (a b c : UInt8) (address : Address) (d e : UInt8),
      script = a :: b :: c :: (address.toList ++ [d, e]) := by
  match script, h with
  | a :: b :: c :: rest, h =>
    have hrest : rest.length = 22 := by simpa using h
    have htake : (rest.take 20).length = 20 := by simp [hrest]
    have hdrop : (rest.drop 20).length = 2 := by simp [hrest]
    match hde : rest.drop 20, hdrop with
    | [d, e], _ =>
      refine ⟨a, b, c, ⟨rest.take 20, htake⟩, d, e, ?_⟩
      change _ = a :: b :: c :: (rest.take 20 ++ [d, e])
      rw [← hde, List.take_append_drop]

private theorem extractP2pkhAddress_fields (a b c : UInt8) (address : Address) (d e : UInt8) :
    extractP2pkhAddress (a :: b :: c :: (address.toList ++ [d, e])) =
      if a = OP_DUP ∧ b = OP_HASH160 ∧ c = 20 ∧ d = OP_EQUALVERIFY ∧ e = OP_CHECKSIG then
        some address
      else none := by
  have hlen : address.toList.length = 20 := address.toList_length
  have hsize : (a :: b :: c :: (address.toList ++ [d, e])).length = 3 + ADDRESS_SIZE + 2 := by
    simp [hlen, ADDRESS_SIZE]
  unfold extractP2pkhAddress
  rw [dif_pos hsize]
  simp only [List.getElem_cons_zero, ne_eq, List.getElem_cons_succ, ADDRESS_SIZE,
    UInt8.reduceOfNat, Nat.reduceAdd, hlen, Std.le_refl, List.getElem_append_right, Nat.sub_self,
    Nat.reduceLeDiff, Nat.reduceSub, List.drop_succ_cons, List.drop_zero, List.take_left']
  split
  · next h => rw [if_neg (by tauto)]
  split
  · next h => rw [if_neg (by tauto)]
  · next h h' =>
    rw [if_pos (by tauto)]
    rfl

/-- The address is found in the script built for it and in no other. -/
theorem extractP2pkhAddress_eq_some_iff {scriptPubkey : Bytes} {address : Address} :
    extractP2pkhAddress scriptPubkey = some address ↔
      scriptPubkey = buildP2pkhScriptPubkey address := by
  have hpush (a : Address) : UInt8.ofNat a.toList.length = 20 := by rw [a.toList_length]; rfl
  constructor
  · intro h
    by_cases hlen : scriptPubkey.length = 25
    · obtain ⟨a, b, c, found, d, e, rfl⟩ := exists_fields_of_length hlen
      rw [extractP2pkhAddress_fields, Option.ite_none_right_eq_some] at h
      obtain ⟨⟨rfl, rfl, rfl, rfl, rfl⟩, hfound⟩ := h
      rw [← Option.some.inj hfound, buildP2pkhScriptPubkey, hpush]
      rfl
    · rw [extractP2pkhAddress, dif_neg (by simpa [ADDRESS_SIZE] using hlen)] at h
      cases h
  · rintro rfl
    rw [buildP2pkhScriptPubkey, hpush]
    exact (extractP2pkhAddress_fields _ _ _ address _ _).trans (if_pos ⟨rfl, rfl, rfl, rfl, rfl⟩)

variable [Crypto]

/-- `RIPEMD160(SHA256(x))`, the body of `OP_HASH160`; `script.h:98–102`. -/
def hash160 (x : Bytes) : Address := Crypto.hashRipemd160 (Crypto.hashSha256 x).toList

/-- One turn of the loop after `op` was fetched: the bytes left to read and the new stack, or
`none` where the source returns `false`; `script.h:82–128`. -/
def step (sighash : Hash256) (op : UInt8) (rest : Bytes) (stack : List Bytes) :
    Option (Bytes × List Bytes) :=
  if 1 ≤ op ∧ op ≤ 75 then
    if rest.length < op.toNat then none
    else some (rest.drop op.toNat, rest.take op.toNat :: stack)
  else if op = OP_DUP then
    match stack with
    | [] => none
    | top :: below => some (rest, top :: top :: below)
  else if op = OP_HASH160 then
    match stack with
    | [] => none
    | top :: below => some (rest, (hash160 top).toList :: below)
  else if op = OP_EQUALVERIFY then
    match stack with
    | a :: b :: below => if a = b then some (rest, below) else none
    | _ => none
  else if op = OP_CHECKSIG then
    match stack with
    | pubkeyBytes :: sigBytes :: below =>
      some (rest, (if verifyRawSignature sigBytes pubkeyBytes sighash then [1] else []) :: below)
    | _ => none
  else none

/-- The loop of `script::evaluate`; every turn reads a byte, so the program's length is
enough fuel. -/
def loop (sighash : Hash256) : Nat → Bytes → List Bytes → Option (List Bytes)
  | _, [], stack => some stack
  | 0, _ :: _, _ => none
  | fuel + 1, op :: rest, stack =>
    match step sighash op rest stack with
    | some (rest', stack') => loop sighash fuel rest' stack'
    | none => none

/-- Run a program on a stack to its end. -/
def execute (sighash : Hash256) (program : Bytes) (stack : List Bytes) : Option (List Bytes) :=
  loop sighash program.length program stack

/-- The test on the final stack: the top is not empty and its last byte is not zero. -/
def truthy : List Bytes → Bool
  | [] => false
  | top :: _ => match top.getLast? with
    | none => false
    | some b => b != 0

/-- `script.h:73–132`. -/
def evaluate (scriptSig scriptPubkey : Bytes) (sighash : Hash256) : Bool :=
  match execute sighash (scriptSig ++ scriptPubkey) [] with
  | some stack => truthy stack
  | none => false

/-! ## Running without fuel -/

variable {sighash : Hash256}

/-- Bytes after an opcode that are its data. -/
def dataLength (op : UInt8) : Nat := if 1 ≤ op ∧ op ≤ 75 then op.toNat else 0

/-- A turn consumes the opcode's data, which has to be there. -/
theorem rest_of_step {op : UInt8} {rest rest' : Bytes} {stack stack' : List Bytes}
    (h : step sighash op rest stack = some (rest', stack')) :
    dataLength op ≤ rest.length ∧ rest' = rest.drop (dataLength op) := by
  unfold step at h
  unfold dataLength
  split at h
  · next hpush =>
    rw [if_pos hpush]
    split at h
    · cases h
    · next hlong =>
      cases h
      exact ⟨Nat.le_of_not_lt hlong, rfl⟩
  next hop =>
  rw [if_neg hop]
  refine ⟨Nat.zero_le _, ?_⟩
  rw [List.drop_zero]
  split at h
  · cases stack with
    | nil => cases h
    | cons top below => cases h; rfl
  split at h
  · cases stack with
    | nil => cases h
    | cons top below => cases h; rfl
  split at h
  · match stack, h with
    | a :: b :: below, h =>
      dsimp only at h
      split at h
      · cases h; rfl
      · cases h
  split at h
  · match stack, h with
    | pubkey :: sig :: below, h => cases h; rfl
  · cases h

/-- Every turn leaves fewer bytes than it found. -/
theorem length_of_step {op : UInt8} {rest rest' : Bytes} {stack stack' : List Bytes}
    (h : step sighash op rest stack = some (rest', stack')) : rest'.length ≤ rest.length := by
  rw [(rest_of_step h).2, List.length_drop]
  exact Nat.sub_le _ _

private theorem loop_fuel {fuel fuel' : Nat} {program : Bytes} (stack : List Bytes)
    (h : program.length ≤ fuel) (h' : program.length ≤ fuel') :
    loop sighash fuel program stack = loop sighash fuel' program stack := by
  induction fuel generalizing fuel' program stack with
  | zero =>
    obtain rfl : program = [] := List.length_eq_zero_iff.mp (by omega)
    simp [loop]
  | succ k ih =>
    cases program with
    | nil => simp [loop]
    | cons op rest =>
      rw [List.length_cons] at h h'
      obtain ⟨k', rfl⟩ : ∃ k', fuel' = k' + 1 := ⟨fuel' - 1, by omega⟩
      simp only [loop]
      cases hs : step sighash op rest stack with
      | none => rfl
      | some p =>
        obtain ⟨rest', stack'⟩ := p
        have hl := length_of_step hs
        exact ih stack' (by omega) (by omega)

@[simp] theorem execute_nil (stack : List Bytes) : execute sighash [] stack = some stack := rfl

/-- A run is one turn followed by the run of what is left. -/
theorem execute_cons (op : UInt8) (rest : Bytes) (stack : List Bytes) :
    execute sighash (op :: rest) stack =
      (step sighash op rest stack).bind fun p ↦ execute sighash p.1 p.2 := by
  rw [execute, List.length_cons]
  simp only [loop]
  cases hs : step sighash op rest stack with
  | none => rfl
  | some p =>
    obtain ⟨rest', stack'⟩ := p
    exact loop_fuel stack' (length_of_step hs) (Nat.le_refl _)

end Siliqua.Wallet
