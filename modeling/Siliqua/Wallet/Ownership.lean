import Siliqua.Crypto.Picosha2
import Siliqua.Wallet.Script

/-!
# Who can spend a P2PKH output

`script::evaluate` glues both scripts into one program before it reads the first opcode, so a
push at the end of the `scriptSig` can take bytes of the locking script as its data. The
number of bytes it takes decides whether the locking script still protects the output.
-/

namespace Siliqua.Wallet

/-- Data bytes missing at the end of a byte string that starts with `skip` bytes of data and
goes on with opcodes. -/
def overhang : Nat → Bytes → Nat
  | skip, [] => skip
  | 0, op :: rest => overhang (dataLength op) rest
  | skip + 1, _ :: rest => overhang skip rest

theorem overhang_of_le {skip : Nat} {bytes : Bytes} (h : skip ≤ bytes.length) :
    overhang skip bytes = overhang 0 (bytes.drop skip) := by
  induction bytes generalizing skip with
  | nil =>
    obtain rfl : skip = 0 := by simpa using h
    rfl
  | cons b rest ih =>
    cases skip with
    | zero => rfl
    | succ skip => exact ih (by simpa using h)

theorem overhang_of_lt {skip : Nat} {bytes : Bytes} (h : bytes.length < skip) :
    overhang skip bytes = skip - bytes.length := by
  induction bytes generalizing skip with
  | nil => rfl
  | cons b rest ih =>
    cases skip with
    | zero => simp at h
    | succ skip =>
      rw [overhang, ih (by simpa using h), List.length_cons]
      omega

/-- A whole push leaves nothing over. -/
theorem overhang_push {data : Bytes} (hpos : 0 < data.length) (hle : data.length ≤ 75)
    (rest : Bytes) :
    overhang 0 (UInt8.ofNat data.length :: (data ++ rest)) = overhang 0 rest := by
  have hop : dataLength (UInt8.ofNat data.length) = data.length := by
    have hnat : (UInt8.ofNat data.length).toNat = data.length := by
      rw [UInt8.toNat_ofNat', Nat.mod_eq_of_lt (by omega)]
    rw [dataLength, hnat, if_pos]
    rw [UInt8.le_iff_toNat_le, UInt8.le_iff_toNat_le, hnat]
    exact ⟨hpos, hle⟩
  rw [overhang, hop, overhang_of_le (by simp), List.drop_left' rfl]

/-- The opcodes in front of a push that lacks data, or all of them. -/
def wholeOpcodes : Bytes → Bytes
  | [] => []
  | op :: rest =>
    if dataLength op ≤ rest.length then
      op :: (rest.take (dataLength op) ++ wholeOpcodes (rest.drop (dataLength op)))
    else []
termination_by script => script.length
decreasing_by simp only [List.length_drop, List.length_cons]; omega

/-- Opcodes that find their data leave nothing over. -/
theorem overhang_wholeOpcodes (script : Bytes) : overhang 0 (wholeOpcodes script) = 0 := by
  induction script using wholeOpcodes.induct with
  | case1 => rw [wholeOpcodes, overhang]
  | case2 op rest hdata ih =>
    have hlen : (rest.take (dataLength op)).length = dataLength op := List.length_take_of_le hdata
    rw [wholeOpcodes, if_pos hdata, overhang, overhang_of_le (by simp [hlen]),
      List.drop_left' hlen, ih]
  | case3 op rest hdata => rw [wholeOpcodes, if_neg hdata, overhang]

/-- A script without such a push is whole. -/
theorem wholeOpcodes_of_overhang {script : Bytes} (h : overhang 0 script = 0) :
    wholeOpcodes script = script := by
  induction script using wholeOpcodes.induct with
  | case1 => rw [wholeOpcodes]
  | case2 op rest hdata ih =>
    rw [overhang, overhang_of_le hdata] at h
    rw [wholeOpcodes, if_pos hdata, ih h, List.take_append_drop]
  | case3 op rest hdata =>
    rw [overhang, overhang_of_lt (Nat.not_le.mp hdata)] at h
    omega

/-- A script that ends within the data of a push is its whole opcodes, that push and the data
there is. -/
theorem exists_crossing {script : Bytes} (h : 0 < overhang 0 script) :
    ∃ op data, script = wholeOpcodes script ++ op :: data ∧
      dataLength op = data.length + overhang 0 script := by
  induction script using wholeOpcodes.induct with
  | case1 => simp [overhang] at h
  | case2 op rest hdata ih =>
    rw [overhang, overhang_of_le hdata] at h ⊢
    obtain ⟨op', data, heq, hlack⟩ := ih h
    refine ⟨op', data, ?_, hlack⟩
    rw [wholeOpcodes, if_pos hdata, List.cons_append, List.append_assoc, ← heq,
      List.take_append_drop]
  | case3 op rest hdata =>
    refine ⟨op, rest, ?_, ?_⟩
    · rw [wholeOpcodes, if_neg hdata, List.nil_append]
    · rw [overhang, overhang_of_lt (Nat.not_le.mp hdata)]
      omega

section

variable [Crypto] {sighash : Hash256}

/-! ## One program out of two scripts -/

/-- A turn that finds its data does not look at what follows. -/
theorem step_append {op : UInt8} {rest : Bytes} (tail : Bytes) (stack : List Bytes)
    (h : dataLength op ≤ rest.length) :
    step sighash op (rest ++ tail) stack =
      (step sighash op rest stack).map fun p ↦ (p.1 ++ tail, p.2) := by
  unfold step
  split
  · next hpush =>
    rw [dataLength, if_pos hpush] at h
    rw [if_neg (by rw [List.length_append]; omega), if_neg (by omega),
      List.drop_append_of_le_length h, List.take_append_of_le_length h]
    rfl
  split
  · cases stack <;> rfl
  split
  · cases stack <;> rfl
  split
  · match stack with
    | [] => rfl
    | [_] => rfl
    | a :: b :: below =>
      dsimp only
      split <;> rfl
  split
  · match stack with
    | [] => rfl
    | [_] => rfl
    | pubkey :: sig :: below => rfl
  · rfl

/-- Script bytes that end between two opcodes run to their end before the rest begins. -/
theorem execute_append {front : Bytes} (h : overhang 0 front = 0) (tail : Bytes)
    (stack : List Bytes) :
    execute sighash (front ++ tail) stack =
      (execute sighash front stack).bind (execute sighash tail) := by
  induction hn : front.length using Nat.strongRecOn generalizing front stack with
  | ind n ih =>
    cases front with
    | nil => rfl
    | cons op rest =>
      rw [overhang] at h
      have hdata : dataLength op ≤ rest.length := by
        by_contra hlt
        rw [overhang_of_lt (by omega)] at h
        omega
      rw [overhang_of_le hdata] at h
      rw [List.cons_append, execute_cons, execute_cons, step_append tail stack hdata]
      cases hstep : step sighash op rest stack with
      | none => rfl
      | some p =>
        obtain ⟨rest', stack'⟩ := p
        obtain ⟨-, rfl⟩ := rest_of_step hstep
        rw [List.length_cons] at hn
        exact ih _ (by rw [List.length_drop]; omega) h stack' rfl

/-- A last push that asks for more than both scripts hold makes the run fail. -/
theorem execute_append_eq_none {front tail : Bytes} (h : tail.length < overhang 0 front)
    (stack : List Bytes) : execute sighash (front ++ tail) stack = none := by
  induction hn : front.length using Nat.strongRecOn generalizing front stack with
  | ind n ih =>
    cases front with
    | nil => simp [overhang] at h
    | cons op rest =>
      rw [overhang] at h
      rw [List.cons_append, execute_cons]
      cases hstep : step sighash op (rest ++ tail) stack with
      | none => rfl
      | some p =>
        obtain ⟨rest', stack'⟩ := p
        obtain ⟨hlong, rfl⟩ := rest_of_step hstep
        rw [List.length_append] at hlong
        have hdata : dataLength op ≤ rest.length := by
          by_contra hlt
          rw [overhang_of_lt (by omega)] at h
          omega
        rw [overhang_of_le hdata] at h
        rw [List.length_cons] at hn
        rw [Option.bind_some, List.drop_append_of_le_length hdata]
        exact ih _ (by rw [List.length_drop]; omega) h stack' rfl

/-! ## The locking script -/

/-- What the locking script asks for: a public key with the address and a signature under it. -/
def OwnerSigned (address : Address) (sighash : Hash256) : Prop :=
  ∃ sig pubkey, hash160 pubkey = address ∧ verifyRawSignature sig pubkey sighash = true

/-- Pushing up to 75 bytes. -/
theorem step_push {data : Bytes} (hpos : 0 < data.length) (hle : data.length ≤ 75) (rest : Bytes)
    (stack : List Bytes) :
    step sighash (UInt8.ofNat data.length) (data ++ rest) stack = some (rest, data :: stack) := by
  have hop : (UInt8.ofNat data.length).toNat = data.length := by
    rw [UInt8.toNat_ofNat', Nat.mod_eq_of_lt (by omega)]
  have hpush : 1 ≤ UInt8.ofNat data.length ∧ UInt8.ofNat data.length ≤ 75 := by
    rw [UInt8.le_iff_toNat_le, UInt8.le_iff_toNat_le, hop]
    exact ⟨hpos, hle⟩
  unfold step
  rw [if_pos hpush, hop, if_neg (by simp), List.drop_left' rfl, List.take_left' rfl]

/-- The locking script compares the hash of the top element, then checks a signature. -/
theorem execute_buildP2pkhScriptPubkey (address : Address) (pubkey : Bytes) (below : List Bytes) :
    execute sighash (buildP2pkhScriptPubkey address) (pubkey :: below) =
      if address.toList = (hash160 pubkey).toList then
        execute sighash [OP_CHECKSIG] (pubkey :: below)
      else none := by
  have hdup (rest : Bytes) : step sighash OP_DUP rest (pubkey :: below) =
      some (rest, pubkey :: pubkey :: below) := rfl
  have hhash (rest : Bytes) : step sighash OP_HASH160 rest (pubkey :: pubkey :: below) =
      some (rest, (hash160 pubkey).toList :: pubkey :: below) := rfl
  have hequal : step sighash OP_EQUALVERIFY [OP_CHECKSIG]
      (address.toList :: (hash160 pubkey).toList :: pubkey :: below) =
        if address.toList = (hash160 pubkey).toList then some ([OP_CHECKSIG], pubkey :: below)
        else none := rfl
  rw [buildP2pkhScriptPubkey]
  simp only [List.cons_append, List.nil_append]
  rw [execute_cons, hdup, Option.bind_some, execute_cons, hhash, Option.bind_some, execute_cons,
    step_push (by simp) (by simp), Option.bind_some, execute_cons, hequal]
  split <;> rfl

/-- A run of the locking script that ends well has checked the owner's signature. -/
theorem ownerSigned_of_execute {address : Address} {stack final : List Bytes}
    (h : execute sighash (buildP2pkhScriptPubkey address) stack = some final)
    (htruthy : truthy final = true) : OwnerSigned address sighash := by
  cases stack with
  | nil => cases h
  | cons pubkey below =>
    rw [execute_buildP2pkhScriptPubkey] at h
    split at h
    · next haddress =>
      cases below with
      | nil => cases h
      | cons sig rest =>
        refine ⟨sig, pubkey, Subtype.ext haddress.symm, ?_⟩
        have hfinal : execute sighash [OP_CHECKSIG] (pubkey :: sig :: rest) =
          some ((if verifyRawSignature sig pubkey sighash then [1] else []) :: rest) := rfl
        rw [hfinal, Option.some.injEq] at h
        subst h
        by_contra hbad
        rw [if_neg hbad] at htruthy
        cases htruthy
    · cases h

/-- A `scriptSig` that leaves the locking script whole spends only with the owner's signature. -/
theorem ownerSigned_of_evaluate {address : Address} {scriptSig : Bytes}
    (hwhole : overhang 0 scriptSig = 0)
    (h : evaluate scriptSig (buildP2pkhScriptPubkey address) sighash = true) :
    OwnerSigned address sighash := by
  rw [evaluate, execute_append hwhole] at h
  cases hsig : execute sighash scriptSig [] with
  | none => simp [hsig] at h
  | some stack =>
    rw [hsig, Option.bind_some] at h
    split at h
    · next final hlock => exact ownerSigned_of_execute hlock h
    · cases h

/-- A `scriptSig` whose last push asks for more than the locking script spends nothing. -/
theorem evaluate_of_overhang {address : Address} {scriptSig : Bytes}
    (h : 25 < overhang 0 scriptSig) :
    evaluate scriptSig (buildP2pkhScriptPubkey address) sighash = false := by
  have hlen := length_buildP2pkhScriptPubkey address
  rw [evaluate, execute_append_eq_none (by omega)]

/-- Opcodes that fail before the last push is reached spend nothing, whatever it takes. -/
theorem evaluate_of_wholeOpcodes {scriptSig scriptPubkey : Bytes}
    (h : execute sighash (wholeOpcodes scriptSig) [] = none) :
    evaluate scriptSig scriptPubkey sighash = false := by
  have hfails : execute sighash (scriptSig ++ scriptPubkey) [] = none := by
    rcases Nat.eq_zero_or_pos (overhang 0 scriptSig) with hwhole | hcross
    · rw [wholeOpcodes_of_overhang hwhole] at h
      rw [execute_append hwhole, h]
      rfl
    · obtain ⟨op, data, hscript, -⟩ := exists_crossing hcross
      rw [hscript, List.append_assoc, execute_append (overhang_wholeOpcodes scriptSig), h]
      rfl
  rw [evaluate, hfails]

/-- A last push that is reached leaves the machine within the locking script, whose first bytes are
now data. -/
theorem execute_crossing {scriptSig scriptPubkey : Bytes} {stack : List Bytes}
    (hpos : 0 < overhang 0 scriptSig) (hle : overhang 0 scriptSig ≤ scriptPubkey.length)
    (h : execute sighash (wholeOpcodes scriptSig) [] = some stack) :
    ∃ data, execute sighash (scriptSig ++ scriptPubkey) [] =
      execute sighash (scriptPubkey.drop (overhang 0 scriptSig))
        ((data ++ scriptPubkey.take (overhang 0 scriptSig)) :: stack) := by
  obtain ⟨op, data, hscript, hlack⟩ := exists_crossing hpos
  have hpush : 1 ≤ op ∧ op ≤ 75 := by
    by_contra hnot
    rw [dataLength, if_neg hnot] at hlack
    omega
  rw [dataLength, if_pos hpush] at hlack
  have hstep : step sighash op (data ++ scriptPubkey) stack =
      some (scriptPubkey.drop (overhang 0 scriptSig),
        (data ++ scriptPubkey.take (overhang 0 scriptSig)) :: stack) := by
    unfold step
    rw [if_pos hpush, hlack, if_neg (by rw [List.length_append]; omega), List.drop_append,
      List.take_append, List.drop_eq_nil_of_le (by omega), List.take_of_length_le (by omega),
      Nat.add_sub_cancel_left, List.nil_append]
  refine ⟨data, ?_⟩
  conv_lhs => rw [hscript]
  rw [List.append_assoc, execute_append (overhang_wholeOpcodes scriptSig), h, Option.bind_some,
    List.cons_append, execute_cons, hstep, Option.bind_some]

/-- The locking script is run from its first opcode or not at all: the last push of the `scriptSig`
takes none of it, asks for more than there is, or is not reached. -/
def KeepsLock (sighash : Hash256) (scriptSig : Bytes) : Prop :=
  overhang 0 scriptSig = 0 ∨ 25 < overhang 0 scriptSig ∨
    execute sighash (wholeOpcodes scriptSig) [] = none

/-- Such a `scriptSig` spends only with the owner's signature. -/
theorem KeepsLock.ownerSigned {address : Address} {scriptSig : Bytes}
    (h : KeepsLock sighash scriptSig)
    (hspends : evaluate scriptSig (buildP2pkhScriptPubkey address) sighash = true) :
    OwnerSigned address sighash := by
  rcases h with hwhole | hlong | hfails
  · exact ownerSigned_of_evaluate hwhole hspends
  · rw [evaluate_of_overhang hlong] at hspends
    cases hspends
  · rw [evaluate_of_wholeOpcodes hfails] at hspends
    cases hspends

/-- Any other one spends an output if the rest of the locking script, run on its own with the bytes
taken on top, ends with a truthy value. -/
theorem evaluate_of_crossing {address : Address} {scriptSig : Bytes}
    (hnot : ¬ KeepsLock sighash scriptSig)
    (hrest : ∀ data stack, ∃ final,
      execute sighash ((buildP2pkhScriptPubkey address).drop (overhang 0 scriptSig))
        ((data ++ (buildP2pkhScriptPubkey address).take (overhang 0 scriptSig)) :: stack) =
          some final ∧ truthy final = true) :
    evaluate scriptSig (buildP2pkhScriptPubkey address) sighash = true := by
  rw [KeepsLock, not_or, not_or, Nat.not_lt] at hnot
  obtain ⟨hcross, hle, hreached⟩ := hnot
  obtain ⟨stack, hstack⟩ := Option.ne_none_iff_exists'.mp hreached
  rw [← length_buildP2pkhScriptPubkey address] at hle
  obtain ⟨data, hrun⟩ := execute_crossing (Nat.pos_of_ne_zero hcross) hle hstack
  obtain ⟨final, hfinal, htruthy⟩ := hrest data stack
  rw [evaluate, hrun, hfinal]
  exact htruthy

/-- The key's owner spends what is locked to its address. -/
theorem evaluate_buildScriptSig {signature pubkey : Bytes}
    (h : verifyRawSignature signature pubkey sighash = true) :
    evaluate (buildScriptSig signature pubkey) (buildP2pkhScriptPubkey (hash160 pubkey)) sighash =
      true := by
  have hsizes : signature.length = 64 ∧ pubkey.length = 33 := by
    rw [verifyRawSignature] at h
    split at h
    · cases h
    · next hsizes =>
      rw [not_or, not_not, not_not] at hsizes
      exact hsizes
  have hscript : buildScriptSig signature pubkey =
      UInt8.ofNat signature.length :: (signature ++
        UInt8.ofNat pubkey.length :: (pubkey ++ [])) := by
    simp [buildScriptSig]
  have hwhole : overhang 0 (buildScriptSig signature pubkey) = 0 := by
    rw [hscript, overhang_push (by omega) (by omega), overhang_push (by omega) (by omega)]
    rfl
  have hpushes : execute sighash (buildScriptSig signature pubkey) [] =
      some [pubkey, signature] := by
    rw [hscript, execute_cons, step_push (by omega) (by omega), Option.bind_some, execute_cons,
      step_push (by omega) (by omega), Option.bind_some, execute_nil]
  have hcheck : execute sighash [OP_CHECKSIG] [pubkey, signature] =
      some [if verifyRawSignature signature pubkey sighash then [1] else []] := rfl
  rw [evaluate, execute_append hwhole, hpushes, Option.bind_some,
    execute_buildP2pkhScriptPubkey, if_pos rfl, hcheck, h]
  rfl

end

/-! ## Spends by strangers -/

/-- Hash functions that tell only `[OP_DUP]` from other inputs, and a curve on which every
signature of the right size is good. -/
@[reducible] def strangerCrypto : Crypto where
  hashSha256 input := List.Vector.replicate 32 (if input = [OP_DUP] then 0 else 1)
  hashRipemd160 input := List.Vector.replicate 20 (input.headD 0)
  ecdsaSignatureParseCompact _ := true
  ecPubkeyParse _ := true
  ecdsaVerify _ _ _ := true

/-- An address to rob with a push over the given number of locking bytes. From three to 22
bytes the address itself is read as opcodes, each of which pushes all that is left. -/
def robbedAddress (taken : Nat) : Address :=
  List.Vector.ofFn fun i ↦
    if 3 ≤ taken ∧ taken ≤ 22 then UInt8.ofNat (21 - i)
    else if taken = 2 ∧ i = 18 then OP_DUP
    else if taken = 2 ∧ i = 19 then OP_HASH160
    else 0

/-- A `scriptSig` whose last push takes the given number of locking bytes. -/
def robbingSig (taken : Nat) : Bytes :=
  let keyed := buildScriptSig (List.replicate SIGNATURE_SIZE 0) (List.replicate PUBKEY_SIZE 0)
  match taken with
  | 1 => keyed ++ [1]
  | 2 => keyed ++ 20 :: List.replicate 18 0
  | 23 => keyed ++ 23 :: (buildP2pkhScriptPubkey (robbedAddress 23)).take 23 ++ [23]
  | 24 => 64 :: List.replicate 64 0 ++ 33 :: List.replicate 9 0
  | _ => [UInt8.ofNat taken]

private theorem evaluate_robbingSig : ∀ taken < 26, 0 < taken →
    overhang 0 (robbingSig taken) = taken ∧
      @evaluate strangerCrypto (robbingSig taken) (buildP2pkhScriptPubkey (robbedAddress taken))
        Hash256.zero = true := by
  decide +kernel

private theorem hash160_stranger {input : Bytes} (h : input ≠ [OP_DUP]) :
    @hash160 strangerCrypto input = List.Vector.replicate 20 1 := by
  change List.Vector.replicate 20
    ((List.Vector.replicate 32 (if input = [OP_DUP] then (0 : UInt8) else 1)).toList.headD 0) = _
  rw [if_neg h]
  rfl

private theorem robbedAddress_ne (taken : Nat) :
    robbedAddress taken ≠ List.Vector.replicate 20 1 := by
  intro heq
  have hhead : (if 3 ≤ taken ∧ taken ≤ 22 then UInt8.ofNat 21
      else if taken = 2 ∧ (0 : Fin 20) = 18 then OP_DUP
      else if taken = 2 ∧ (0 : Fin 20) = 19 then OP_HASH160 else 0) = 1 :=
    congrArg List.Vector.head heq
  split at hhead
  · exact absurd hhead (by decide)
  · simp at hhead

/-- No key of the right size has one of these addresses. -/
private theorem not_ownerSigned_robbedAddress (taken : Nat) :
    ¬ @OwnerSigned strangerCrypto (robbedAddress taken) Hash256.zero := by
  rintro ⟨sig, pubkey, haddress, hverify⟩
  have hkey : pubkey ≠ [OP_DUP] := by
    rintro rfl
    simp [verifyRawSignature, PUBKEY_SIZE] at hverify
  rw [hash160_stranger hkey] at haddress
  exact robbedAddress_ne taken haddress.symm

/-- What such a push leaves of the locking script is one more push, of all that follows. -/
private theorem drop_robbedAddress : ∀ taken < 23, 3 ≤ taken →
    (buildP2pkhScriptPubkey (robbedAddress taken)).drop taken =
      UInt8.ofNat (24 - taken) ::
        (buildP2pkhScriptPubkey (robbedAddress taken)).drop (taken + 1) ∧
      ((buildP2pkhScriptPubkey (robbedAddress taken)).drop (taken + 1)).getLast? =
        some OP_CHECKSIG := by
  decide +kernel

/-- So the run ends with bytes of the locking script on top, the last of which is not zero. -/
private theorem exists_truthy_robbedAddress [Crypto] {sighash : Hash256} {taken : Nat}
    (hlo : 3 ≤ taken) (hhi : taken ≤ 22) (top : Bytes) (stack : List Bytes) :
    ∃ final, execute sighash ((buildP2pkhScriptPubkey (robbedAddress taken)).drop taken)
        (top :: stack) = some final ∧ truthy final = true := by
  obtain ⟨hdrop, hlast⟩ := drop_robbedAddress taken (by omega) hlo
  have hlen : ((buildP2pkhScriptPubkey (robbedAddress taken)).drop (taken + 1)).length =
      24 - taken := by
    rw [List.length_drop, length_buildP2pkhScriptPubkey]
    omega
  rw [hdrop]
  generalize (buildP2pkhScriptPubkey (robbedAddress taken)).drop (taken + 1) = left at *
  have hpush := @step_push _ sighash left (by omega) (by omega) [] (top :: stack)
  rw [List.append_nil, hlen] at hpush
  refine ⟨left :: top :: stack, ?_, ?_⟩
  · rw [execute_cons, hpush, Option.bind_some, execute_nil]
  · rw [truthy, hlast]
    rfl

/-- The owner's signature is asked for by every `scriptSig` that keeps the locking script together.
Every other one that takes all of it spends the outputs of every address as it is, and one that ends
among the bytes of the address those of some address; and for each number of bytes taken there is a
spend by a stranger. -/
theorem ownerSigned_of_keepsLock [Crypto] (sighash : Hash256) (scriptSig : Bytes) :
    (KeepsLock sighash scriptSig → ∀ address,
      evaluate scriptSig (buildP2pkhScriptPubkey address) sighash = true →
      OwnerSigned address sighash) ∧
    (¬ KeepsLock sighash scriptSig →
      (overhang 0 scriptSig = 25 →
        ∀ address, evaluate scriptSig (buildP2pkhScriptPubkey address) sighash = true) ∧
      (3 ≤ overhang 0 scriptSig → overhang 0 scriptSig ≤ 22 →
        ∃ address, evaluate scriptSig (buildP2pkhScriptPubkey address) sighash = true)) ∧
    ∀ taken, 0 < taken → taken ≤ 25 →
      ∃ (_ : Crypto) (address : Address) (sighash : Hash256) (scriptSig : Bytes),
        overhang 0 scriptSig = taken ∧
        evaluate scriptSig (buildP2pkhScriptPubkey address) sighash = true ∧
        ¬ OwnerSigned address sighash := by
  refine ⟨fun hkeeps address hspends ↦ hkeeps.ownerSigned hspends,
    fun hnot ↦ ⟨fun htaken address ↦ ?_, fun hlo hhi ↦ ?_⟩, fun taken hpos hle ↦ ?_⟩
  · apply evaluate_of_crossing hnot
    intro data stack
    have hlen := length_buildP2pkhScriptPubkey address
    rw [htaken, List.drop_eq_nil_of_le (by omega), List.take_of_length_le (by omega)]
    refine ⟨_, execute_nil _, ?_⟩
    rw [truthy, List.getLast?_append, getLast?_buildP2pkhScriptPubkey]
    rfl
  · exact ⟨robbedAddress (overhang 0 scriptSig), evaluate_of_crossing hnot fun data stack ↦
      exists_truthy_robbedAddress hlo hhi _ stack⟩
  · obtain ⟨hover, hspends⟩ := evaluate_robbingSig taken (by omega) hpos
    exact ⟨strangerCrypto, robbedAddress taken, Hash256.zero, robbingSig taken, hover, hspends,
      not_ownerSigned_robbedAddress taken⟩

/-- Signature and key as two pushes, and pushes of the whole locking script and of most of it. -/
theorem ownerSigned_of_keepsLock_spends :
    @OwnerSigned strangerCrypto (@hash160 strangerCrypto (List.replicate PUBKEY_SIZE 0))
        Hash256.zero ∧
      (∀ address, @evaluate keylessCrypto [25] (buildP2pkhScriptPubkey address) Hash256.zero =
        true) ∧
      ∃ address, @evaluate keylessCrypto [22] (buildP2pkhScriptPubkey address) Hash256.zero =
        true := by
  have hwhole : overhang 0 (buildScriptSig (List.replicate SIGNATURE_SIZE 0)
      (List.replicate PUBKEY_SIZE 0)) = 0 := by decide
  have hpushes (taken : UInt8) (hover : overhang 0 [taken] = taken.toNat)
      (htaken : 0 < taken.toNat ∧ taken.toNat ≤ 25) :
      ¬ @KeepsLock keylessCrypto Hash256.zero [taken] := by
    have hlacks : dataLength taken = taken.toNat := by rwa [overhang, overhang] at hover
    have hfront : wholeOpcodes [taken] = [] := by
      rw [wholeOpcodes, if_neg (by rw [List.length_nil]; omega)]
    unfold KeepsLock
    rw [hover, hfront]
    rintro (hnone | hlong | hfails)
    · omega
    · omega
    · cases hfails
  refine ⟨(@ownerSigned_of_keepsLock strangerCrypto Hash256.zero _).1 (Or.inl hwhole) _
      (@evaluate_buildScriptSig strangerCrypto _ (List.replicate SIGNATURE_SIZE 0) _
        (by decide +kernel)), ?_, ?_⟩
  · exact ((@ownerSigned_of_keepsLock keylessCrypto Hash256.zero [25]).2.1
      (hpushes 25 (by decide) (by decide))).1 (by decide)
  · exact ((@ownerSigned_of_keepsLock keylessCrypto Hash256.zero [22]).2.1
      (hpushes 22 (by decide) (by decide))).2 (by decide) (by decide)

/-- One byte takes the whole locking script as data, which ends in a non-zero byte. -/
theorem evaluate_pushLock_without_owner :
    @evaluate keylessCrypto [25] (buildP2pkhScriptPubkey (List.Vector.replicate 20 0))
        Hash256.zero = true ∧
      ¬ ∃ sig pubkey, @hash160 keylessCrypto pubkey = List.Vector.replicate 20 0 ∧
        @verifyRawSignature keylessCrypto sig pubkey Hash256.zero = true := by
  refine ⟨by decide +kernel, ?_⟩
  rintro ⟨sig, pubkey, -, hverify⟩
  simp [verifyRawSignature, verifySign] at hverify

end Siliqua.Wallet
