import Mathlib.Data.Int.Notation
import Mathlib.Logic.Relation
import Siliqua.Wallet.Ownership

/-!
# What the script machine accepts

The documented machine as a relation: one rule for each opcode, and the ways an opcode can fail.
`script::evaluate` runs it, but looks only at the top of the final stack where the documentation
asks for a single truthy value.
-/

namespace Siliqua.Wallet

open Relation

variable [Crypto]

/-! ## Small steps -/

/-- One opcode carried out, from the bytes left and the stack to what they are afterwards. -/
inductive Turn (sighash : Hash256) : Bytes × List Bytes → Bytes × List Bytes → Prop
  | push {op : UInt8} {data rest : Bytes} {stack : List Bytes} (size : 1 ≤ op ∧ op ≤ 75)
      (whole : data.length = op.toNat) :
      Turn sighash (op :: (data ++ rest), stack) (rest, data :: stack)
  | dup {rest top : Bytes} {below : List Bytes} :
      Turn sighash (OP_DUP :: rest, top :: below) (rest, top :: top :: below)
  | hash160 {rest top : Bytes} {below : List Bytes} :
      Turn sighash (OP_HASH160 :: rest, top :: below) (rest, (hash160 top).toList :: below)
  | equalVerify {rest a : Bytes} {below : List Bytes} :
      Turn sighash (OP_EQUALVERIFY :: rest, a :: a :: below) (rest, below)
  | checkSig {rest pubkey signature : Bytes} {below : List Bytes} :
      Turn sighash (OP_CHECKSIG :: rest, pubkey :: signature :: below)
        (rest, (if verifyRawSignature signature pubkey sighash then [1] else []) :: below)

/-- Stack elements an opcode takes. -/
def operands (op : UInt8) : Nat :=
  if op = OP_DUP ∨ op = OP_HASH160 then 1
  else if op = OP_EQUALVERIFY ∨ op = OP_CHECKSIG then 2
  else 0

/-- The opcode cannot be carried out. -/
inductive Fault (op : UInt8) (rest : Bytes) (stack : List Bytes) : Prop
  | unknownOpcode (push : ¬ (1 ≤ op ∧ op ≤ 75)) (dup : op ≠ OP_DUP) (hash160 : op ≠ OP_HASH160)
      (equalVerify : op ≠ OP_EQUALVERIFY) (checkSig : op ≠ OP_CHECKSIG)
  | pushPastEnd (size : 1 ≤ op ∧ op ≤ 75) (short : rest.length < op.toNat)
  | missingOperands (few : stack.length < operands op)
  | mismatch {a b : Bytes} {below : List Bytes} (opcode : op = OP_EQUALVERIFY)
      (top : stack = a :: b :: below) (differ : a ≠ b)

/-- Not empty, and the last byte is not zero. -/
def Truthy (value : Bytes) : Prop := ∃ b, value.getLast? = some b ∧ b ≠ 0

/-- The program runs from an empty stack to its end and leaves the stack. -/
def Leaves (sighash : Hash256) (program : Bytes) (stack : List Bytes) : Prop :=
  ReflTransGen (Turn sighash) (program, []) ([], stack)

/-- The documented condition: the program leaves a single truthy value. -/
def Accepts (sighash : Hash256) (program : Bytes) : Prop :=
  ∃ value, Leaves sighash program [value] ∧ Truthy value

/-- The program leaves a truthy value, on top of whatever else. -/
def LeavesTruthyTop (sighash : Hash256) (program : Bytes) : Prop :=
  ∃ value below, Leaves sighash program (value :: below) ∧ Truthy value

/-- The program runs from an empty stack to an opcode that cannot be carried out. -/
def Faults (sighash : Hash256) (program : Bytes) : Prop :=
  ∃ op rest stack, ReflTransGen (Turn sighash) (program, []) (op :: rest, stack) ∧
    Fault op rest stack

/-- The last opcode of a program pushes the value. -/
def EndsWithPush (program value : Bytes) : Prop :=
  ∃ front op, program = front ++ op :: value ∧ overhang 0 front = 0 ∧ (1 ≤ op ∧ op ≤ 75) ∧
    value.length = op.toNat

/-- What an opcode adds to the height of the stack. -/
def heightChange (op : UInt8) : ℤ :=
  if op = OP_HASH160 then 0
  else if op = OP_EQUALVERIFY then -2
  else if op = OP_CHECKSIG then -1
  else 1

/-- Elements the opcodes of a program add to the stack in total, read off the program behind
`skip` bytes of data. -/
def netPushes : Nat → Bytes → ℤ
  | _, [] => 0
  | 0, op :: rest => heightChange op + netPushes (dataLength op) rest
  | skip + 1, _ :: rest => netPushes skip rest

variable {sighash : Hash256}

/-- A turn of the loop that goes on is a step of the machine. -/
theorem turn_of_step {op : UInt8} {rest : Bytes} {stack : List Bytes} {p : Bytes × List Bytes}
    (h : step sighash op rest stack = some p) : Turn sighash (op :: rest, stack) p := by
  unfold step at h
  split at h
  · next hpush =>
    split at h
    · cases h
    · next hlong =>
      cases h
      have hturn := @Turn.push _ sighash op (rest.take op.toNat) (rest.drop op.toNat) stack hpush
        (List.length_take_of_le (Nat.le_of_not_lt hlong))
      rwa [List.take_append_drop] at hturn
  split at h
  · next hop =>
    subst hop
    cases stack with
    | nil => cases h
    | cons top below => cases h; exact .dup
  split at h
  · next hop =>
    subst hop
    cases stack with
    | nil => cases h
    | cons top below => cases h; exact .hash160
  split at h
  · next hop =>
    subst hop
    match stack, h with
    | a :: b :: below, h =>
      dsimp only at h
      split at h
      · next heq =>
        subst heq
        cases h
        exact .equalVerify
      · cases h
  split at h
  · next hop =>
    subst hop
    match stack, h with
    | pubkey :: signature :: below, h => cases h; exact .checkSig
  · cases h

/-- A step of the machine is a turn of the loop. -/
theorem step_of_turn {op : UInt8} {rest : Bytes} {stack : List Bytes} {p : Bytes × List Bytes}
    (h : Turn sighash (op :: rest, stack) p) : step sighash op rest stack = some p := by
  cases h with
  | push size whole =>
    unfold step
    rw [if_pos size, if_neg (by rw [List.length_append]; omega), List.drop_left' whole,
      List.take_left' whole]
  | dup => rfl
  | hash160 => rfl
  | equalVerify =>
    unfold step
    simp [OP_DUP, OP_HASH160, OP_EQUALVERIFY]
  | checkSig => rfl

/-- A turn of the loop that ends it has met an opcode that cannot be carried out. -/
theorem fault_of_step {op : UInt8} {rest : Bytes} {stack : List Bytes}
    (h : step sighash op rest stack = none) : Fault op rest stack := by
  unfold step at h
  split at h
  · next hpush =>
    split at h
    · next hshort => exact .pushPastEnd hpush hshort
    · cases h
  next hpush =>
  split at h
  · next hop =>
    cases stack with
    | nil => exact .missingOperands (by simp [operands, hop])
    | cons top below => cases h
  next hdup =>
  split at h
  · next hop =>
    cases stack with
    | nil => exact .missingOperands (by simp [operands, hop])
    | cons top below => cases h
  next hhash =>
  split at h
  · next hop =>
    match stack, h with
    | [], _ => exact .missingOperands (by subst hop; decide)
    | [_], _ => exact .missingOperands (by subst hop; show 1 < 2; decide)
    | a :: b :: below, h =>
      dsimp only at h
      split at h
      · cases h
      · next hne => exact .mismatch hop rfl hne
  next hequal =>
  split at h
  · next hop =>
    match stack, h with
    | [], _ => exact .missingOperands (by subst hop; decide)
    | [_], _ => exact .missingOperands (by subst hop; show 1 < 2; decide)
    | pubkey :: signature :: below, h => cases h
  next hcheck => exact .unknownOpcode hpush hdup hhash hequal hcheck

/-- An opcode that is carried out has found its operands. -/
theorem operands_le_of_turn {op : UInt8} {rest : Bytes} {stack : List Bytes}
    {p : Bytes × List Bytes} (h : Turn sighash (op :: rest, stack) p) :
    operands op ≤ stack.length := by
  cases h with
  | push size whole =>
    rw [operands, if_neg, if_neg]
    · exact Nat.zero_le _
    · rintro (rfl | rfl) <;> revert size <;> decide
    · rintro (rfl | rfl) <;> revert size <;> decide
  | dup =>
    have hone : operands OP_DUP = 1 := by decide
    rw [hone, List.length_cons]
    omega
  | hash160 =>
    have hone : operands OP_HASH160 = 1 := by decide
    rw [hone, List.length_cons]
    omega
  | equalVerify =>
    have htwo : operands OP_EQUALVERIFY = 2 := by decide
    rw [htwo, List.length_cons, List.length_cons]
    omega
  | checkSig =>
    have htwo : operands OP_CHECKSIG = 2 := by decide
    rw [htwo, List.length_cons, List.length_cons]
    omega

/-- No opcode is carried out that cannot be. -/
theorem not_fault_of_turn {op : UInt8} {rest : Bytes} {stack : List Bytes}
    {p : Bytes × List Bytes} (h : Turn sighash (op :: rest, stack) p) :
    ¬ Fault op rest stack := by
  intro hfault
  cases hfault with
  | unknownOpcode push dup hash160 equalVerify checkSig => cases h <;> contradiction
  | pushPastEnd size short =>
    cases h with
    | push _ whole =>
      rw [List.length_append] at short
      omega
    | dup | hash160 | equalVerify | checkSig => revert size; decide
  | missingOperands few => exact absurd few (Nat.not_lt.mpr (operands_le_of_turn h))
  | mismatch opcode top differ =>
    subst opcode top
    cases h with
    | push size _ => revert size; decide
    | equalVerify => exact differ rfl

/-- The loop stops exactly at an opcode that cannot be carried out. -/
theorem step_eq_none_iff {op : UInt8} {rest : Bytes} {stack : List Bytes} :
    step sighash op rest stack = none ↔ Fault op rest stack := by
  constructor
  · exact fault_of_step
  · intro hfault
    cases hs : step sighash op rest stack with
    | none => rfl
    | some p => exact absurd hfault (not_fault_of_turn (turn_of_step hs))

/-! ## Whole runs -/

/-- Carrying out opcodes does not change where the loop will end. -/
theorem execute_eq_of_run {first last : Bytes × List Bytes}
    (h : ReflTransGen (Turn sighash) first last) :
    execute sighash first.1 first.2 = execute sighash last.1 last.2 := by
  induction h using ReflTransGen.head_induction_on with
  | refl => rfl
  | @head first mid hturn _ ih =>
    obtain ⟨program, stack⟩ := first
    cases program with
    | nil => cases hturn
    | cons op rest =>
      rw [execute_cons, step_of_turn hturn, Option.bind_some]
      exact ih

/-- The machine runs to the end of the program, or to an opcode it cannot carry out. -/
theorem end_or_fault (program : Bytes) (stack : List Bytes) :
    (∃ stack', ReflTransGen (Turn sighash) (program, stack) ([], stack')) ∨
      ∃ op rest stack', ReflTransGen (Turn sighash) (program, stack) (op :: rest, stack') ∧
        Fault op rest stack' := by
  -- every opcode leaves a shorter program
  induction hn : program.length using Nat.strongRecOn generalizing program stack with
  | ind n ih =>
    cases program with
    | nil => exact .inl ⟨stack, .refl⟩
    | cons op rest =>
      cases hstep : step sighash op rest stack with
      | none => exact .inr ⟨op, rest, stack, .refl, step_eq_none_iff.mp hstep⟩
      | some p =>
        have hlen : p.1.length ≤ rest.length := length_of_step hstep
        have hturn := turn_of_step hstep
        rw [List.length_cons] at hn
        rcases ih p.1.length (by omega) p.1 p.2 rfl with
          ⟨stack', hrun⟩ | ⟨op', rest', stack', hrun, hfault⟩
        · exact .inl ⟨stack', .head hturn hrun⟩
        · exact .inr ⟨op', rest', stack', .head hturn hrun, hfault⟩

/-- The loop follows the machine from any state to the end of the program. -/
theorem execute_eq_some_iff {program : Bytes} {stack stack' : List Bytes} :
    execute sighash program stack = some stack' ↔
      ReflTransGen (Turn sighash) (program, stack) ([], stack') := by
  constructor
  · intro h
    rcases @end_or_fault _ sighash program stack with
      ⟨found, hrun⟩ | ⟨op, rest, found, hrun, hfault⟩
    · have hend := execute_eq_of_run hrun
      rw [h] at hend
      obtain rfl : stack' = found := Option.some.inj hend
      exact hrun
    · have hend := execute_eq_of_run hrun
      rw [h, execute_cons, step_eq_none_iff.mpr hfault] at hend
      cases hend
  · exact fun hrun ↦ execute_eq_of_run hrun

/-- The loop gives up exactly where the machine reaches an opcode it cannot carry out. -/
theorem execute_eq_none_iff {program : Bytes} {stack : List Bytes} :
    execute sighash program stack = none ↔ ∃ op rest stack',
      ReflTransGen (Turn sighash) (program, stack) (op :: rest, stack') ∧ Fault op rest stack' := by
  constructor
  · intro h
    rcases @end_or_fault _ sighash program stack with ⟨found, hrun⟩ | hfault
    · rw [execute_eq_some_iff.mpr hrun] at h
      cases h
    · exact hfault
  · rintro ⟨op, rest, stack', hrun, hfault⟩
    rw [execute_eq_of_run hrun, execute_cons, step_eq_none_iff.mpr hfault]
    rfl

/-! ## Heights -/

/-- One opcode moves the height by what it says. -/
theorem length_of_turn {op : UInt8} {rest : Bytes} {stack : List Bytes} {p : Bytes × List Bytes}
    (h : Turn sighash (op :: rest, stack) p) :
    (p.2.length : ℤ) = stack.length + heightChange op := by
  cases h with
  | push size whole =>
    have hop : op ≠ OP_HASH160 ∧ op ≠ OP_EQUALVERIFY ∧ op ≠ OP_CHECKSIG := by
      refine ⟨?_, ?_, ?_⟩ <;> rintro rfl <;> revert size <;> decide
    rw [heightChange, if_neg hop.1, if_neg hop.2.1, if_neg hop.2.2]
    simp
  | dup => simp [heightChange, OP_DUP, OP_HASH160, OP_EQUALVERIFY, OP_CHECKSIG]
  | hash160 => simp [heightChange]
  | equalVerify =>
    have htwo : heightChange OP_EQUALVERIFY = -2 := by decide
    simp only [htwo, List.length_cons]
    omega
  | checkSig =>
    have hone : heightChange OP_CHECKSIG = -1 := by decide
    simp only [hone, List.length_cons]
    omega

omit [Crypto] in
/-- Data is skipped. -/
theorem netPushes_skip {skip : Nat} {bytes : Bytes} (h : skip ≤ bytes.length) :
    netPushes skip bytes = netPushes 0 (bytes.drop skip) := by
  induction bytes generalizing skip with
  | nil =>
    obtain rfl : skip = 0 := by simpa using h
    rfl
  | cons b rest ih =>
    cases skip with
    | zero => rfl
    | succ skip => exact ih (by simpa using h)

/-- The height at the end of a program is known before it runs. -/
theorem length_of_run {program : Bytes} {stack stack' : List Bytes}
    (h : ReflTransGen (Turn sighash) (program, stack) ([], stack')) :
    (stack'.length : ℤ) = stack.length + netPushes 0 program := by
  generalize hlast : (([], stack') : Bytes × List Bytes) = last at h
  generalize hfirst : (program, stack) = first at h
  induction h using ReflTransGen.head_induction_on generalizing program stack with
  | refl =>
    obtain ⟨rfl, rfl⟩ := Prod.mk.inj (hfirst.trans hlast.symm)
    simp [netPushes]
  | @head first mid hturn hrest ih =>
    subst hfirst
    cases program with
    | nil => cases hturn
    | cons op rest =>
      obtain ⟨hdata, hmid⟩ := rest_of_step (step_of_turn hturn)
      have htail := @ih mid.1 mid.2 rfl
      rw [htail, length_of_turn hturn, hmid, netPushes, netPushes_skip hdata]
      omega

/-! ## The test at the end -/

omit [Crypto] in
/-- The test reads the top of the stack and nothing else. -/
theorem truthy_cons_iff {value : Bytes} {below : List Bytes} :
    truthy (value :: below) = true ↔ Truthy value := by
  rw [truthy, Truthy]
  cases value.getLast? with
  | none => simp
  | some b => simp

/-- What `script::evaluate` accepts: a truthy top, whatever is below it. -/
theorem evaluate_eq_true_iff {scriptSig scriptPubKey : Bytes} :
    evaluate scriptSig scriptPubKey sighash = true ↔
      LeavesTruthyTop sighash (scriptSig ++ scriptPubKey) := by
  rw [evaluate]
  constructor
  · intro h
    split at h
    · next stack hrun =>
      cases stack with
      | nil => cases h
      | cons value below =>
        exact ⟨value, below, execute_eq_some_iff.mp hrun, truthy_cons_iff.mp h⟩
    · cases h
  · rintro ⟨value, below, hrun, htruthy⟩
    rw [execute_eq_some_iff.mpr hrun]
    exact truthy_cons_iff.mpr htruthy

/-- The height of the stack that a program from nothing leaves. -/
theorem Leaves.length {program : Bytes} {stack : List Bytes} (h : Leaves sighash program stack) :
    (stack.length : ℤ) = netPushes 0 program := by
  have hlen := length_of_run h
  rwa [List.length_nil, Int.natCast_zero, Int.zero_add] at hlen

/-- A program has one final stack. -/
theorem Leaves.unique {program : Bytes} {stack stack' : List Bytes}
    (h : Leaves sighash program stack) (h' : Leaves sighash program stack') : stack = stack' := by
  have hrun := execute_eq_some_iff.mpr h
  rw [execute_eq_some_iff.mpr h'] at hrun
  exact (Option.some.inj hrun).symm

/-- The documented condition is the test plus a height of one. -/
theorem accepts_iff {program : Bytes} :
    Accepts sighash program ↔ LeavesTruthyTop sighash program ∧ netPushes 0 program = 1 := by
  constructor
  · rintro ⟨value, hrun, htruthy⟩
    exact ⟨⟨value, [], hrun, htruthy⟩, hrun.length.symm⟩
  · rintro ⟨⟨value, below, hrun, htruthy⟩, hone⟩
    have hlen := hrun.length
    rw [hone, List.length_cons] at hlen
    obtain rfl : below = [] := List.length_eq_zero_iff.mp (by omega)
    exact ⟨value, hrun, htruthy⟩

/-- A program that faults leaves nothing. -/
theorem Faults.not_leaves {program : Bytes} (h : Faults sighash program) (stack : List Bytes) :
    ¬ Leaves sighash program stack := by
  intro hrun
  have hnone := execute_eq_none_iff.mpr h
  rw [execute_eq_some_iff.mpr hrun] at hnone
  cases hnone

/-- Every other program leaves a stack. -/
theorem exists_leaves {program : Bytes} (h : ¬ Faults sighash program) :
    ∃ stack, Leaves sighash program stack :=
  (end_or_fault program []).resolve_right h

/-- Programs that fault, and programs whose opcodes push at most one element more than they take,
are accepted as documented. -/
theorem evaluate_iff_accepts_of_count {scriptSig scriptPubKey : Bytes}
    (h : netPushes 0 (scriptSig ++ scriptPubKey) ≤ 1 ∨ Faults sighash (scriptSig ++ scriptPubKey)) :
    evaluate scriptSig scriptPubKey sighash = true ↔
      Accepts sighash (scriptSig ++ scriptPubKey) := by
  rw [evaluate_eq_true_iff, accepts_iff]
  refine ⟨fun htop ↦ ⟨htop, ?_⟩, And.left⟩
  obtain ⟨value, below, hrun, -⟩ := htop
  rcases h with hle | hfaults
  · have hlen := hrun.length
    rw [List.length_cons] at hlen
    omega
  · exact absurd hrun (hfaults.not_leaves _)

/-- A last opcode that pushes leaves its data on top. -/
theorem EndsWithPush.top {program value : Bytes} (h : EndsWithPush program value)
    {stack : List Bytes} (hrun : Leaves sighash program stack) :
    ∃ below, stack = value :: below := by
  obtain ⟨front, op, rfl, hwhole, hpush, hlen⟩ := h
  have hexec := execute_eq_some_iff.mpr hrun
  rw [execute_append hwhole, Option.bind_eq_some_iff] at hexec
  obtain ⟨below, -, hlast⟩ := hexec
  have hstep : step sighash op value below = some ([], value :: below) := by
    unfold step
    rw [if_pos hpush, if_neg (by omega), List.drop_eq_nil_of_le (by omega),
      List.take_of_length_le (by omega)]
  rw [execute_cons, hstep, Option.bind_some, execute_nil] at hlast
  exact ⟨below, (Option.some.inj hlast).symm⟩

/-- `script::evaluate` does what is documented on the programs that fault and on those whose opcodes
push at most one element more than they take. None of the others is to be accepted; those of them
that end with a push are, unless its data ends in a zero. -/
theorem evaluate_iff_accepts (scriptSig scriptPubKey : Bytes) (sighash : Hash256) :
    (netPushes 0 (scriptSig ++ scriptPubKey) ≤ 1 ∨ Faults sighash (scriptSig ++ scriptPubKey) →
      (evaluate scriptSig scriptPubKey sighash = true ↔
        Accepts sighash (scriptSig ++ scriptPubKey))) ∧
    (¬ (netPushes 0 (scriptSig ++ scriptPubKey) ≤ 1 ∨
        Faults sighash (scriptSig ++ scriptPubKey)) →
      ¬ Accepts sighash (scriptSig ++ scriptPubKey) ∧
      ∀ value, EndsWithPush (scriptSig ++ scriptPubKey) value →
        (evaluate scriptSig scriptPubKey sighash = true ↔ Truthy value)) := by
  refine ⟨evaluate_iff_accepts_of_count, fun hnot ↦ ?_⟩
  obtain ⟨hcount, hruns⟩ := not_or.mp hnot
  refine ⟨fun haccepts ↦ hcount (Int.le_of_eq (accepts_iff.mp haccepts).2), fun value hends ↦ ?_⟩
  obtain ⟨stack, hrun⟩ := exists_leaves hruns
  obtain ⟨below, rfl⟩ := hends.top hrun
  rw [evaluate_eq_true_iff]
  constructor
  · rintro ⟨value', below', hrun', htruthy⟩
    obtain ⟨rfl, rfl⟩ := List.cons.inj (hrun'.unique hrun)
    exact htruthy
  · exact fun htruthy ↦ ⟨value, below, hrun, htruthy⟩

omit [Crypto] in
/-- One push of a one, and two of them. -/
theorem evaluate_iff_accepts_ones :
    (@evaluate keylessCrypto [1, 1] [] Hash256.zero = true ↔
        @Accepts keylessCrypto Hash256.zero [1, 1]) ∧
      ¬ @Accepts keylessCrypto Hash256.zero [1, 1, 1, 1] ∧
      (@evaluate keylessCrypto [1, 1] [1, 1] Hash256.zero = true ↔ Truthy [1]) := by
  have hrun : @Leaves keylessCrypto Hash256.zero [1, 1, 1, 1] [[1], [1]] :=
    (@execute_eq_some_iff keylessCrypto Hash256.zero _ _ _).mp (by decide)
  have hruns : ¬ @Faults keylessCrypto Hash256.zero ([1, 1] ++ [1, 1]) :=
    fun hfaults ↦ @Faults.not_leaves keylessCrypto _ _ hfaults _ hrun
  have hends : EndsWithPush ([1, 1] ++ [1, 1]) [1] :=
    ⟨[1, 1], 1, rfl, by decide, by decide, rfl⟩
  obtain ⟨hrejects, htop⟩ := (@evaluate_iff_accepts keylessCrypto [1, 1] [1, 1] Hash256.zero).2
    (not_or.mpr ⟨by decide, hruns⟩)
  exact ⟨(@evaluate_iff_accepts keylessCrypto [1, 1] [] Hash256.zero).1 (Or.inl (by decide)),
    hrejects, htop [1] hends⟩

omit [Crypto] in
/-- Two pushes of a one, one in each script: accepted, with two elements left. -/
theorem evaluate_leftover :
    ¬ (@evaluate keylessCrypto [1, 1] [1, 1] Hash256.zero = true ↔
        @Accepts keylessCrypto Hash256.zero ([1, 1] ++ [1, 1])) := by
  intro h
  have hrun : @execute keylessCrypto Hash256.zero ([1, 1] ++ [1, 1]) [] = some [[1], [1]] := by
    decide
  obtain ⟨value, hone, -⟩ := h.mp (by decide)
  have htwo := (@execute_eq_some_iff keylessCrypto Hash256.zero _ _ _).mp hrun
  cases @Leaves.unique keylessCrypto _ _ _ _ hone htwo

/-! ## P2PKH -/

omit [Crypto] in
/-- The counts of two scripts add up where the first ends between two opcodes. -/
theorem netPushes_append {front : Bytes} (h : overhang 0 front = 0) (tail : Bytes) :
    netPushes 0 (front ++ tail) = netPushes 0 front + netPushes 0 tail := by
  induction hn : front.length using Nat.strongRecOn generalizing front with
  | ind n ih =>
    cases front with
    | nil => simp [netPushes]
    | cons op rest =>
      rw [overhang] at h
      have hdata : dataLength op ≤ rest.length := by
        by_contra hlt
        rw [overhang_of_lt (by omega)] at h
        omega
      rw [overhang_of_le hdata] at h
      rw [List.length_cons] at hn
      have htail := ih _ (by rw [List.length_drop]; omega) h rfl
      rw [List.cons_append, netPushes, netPushes, netPushes_skip hdata,
        netPushes_skip (by rw [List.length_append]; omega), List.drop_append_of_le_length hdata,
        htail]
      omega

omit [Crypto] in
/-- The locking script turns signature and key into one verdict. -/
theorem netPushes_buildP2pkhScriptPubkey (address : Address) :
    netPushes 0 (buildP2pkhScriptPubkey address) = -1 := by
  have hlen : address.toList.length = 20 := address.toList_length
  have hpush : netPushes 20 (address.toList ++ [OP_EQUALVERIFY, OP_CHECKSIG]) = -3 := by
    rw [netPushes_skip (by simp [hlen]), List.drop_left' hlen]
    decide
  have hscript : buildP2pkhScriptPubkey address = OP_DUP :: OP_HASH160 :: 20 ::
      (address.toList ++ [OP_EQUALVERIFY, OP_CHECKSIG]) := by
    rw [buildP2pkhScriptPubkey, hlen]
    rfl
  have hops : dataLength OP_DUP = 0 ∧ dataLength OP_HASH160 = 0 ∧ dataLength 20 = 20 ∧
      heightChange OP_DUP = 1 ∧ heightChange OP_HASH160 = 0 ∧ heightChange 20 = 1 := by
    decide
  obtain ⟨hdup, hhash, hdata, hdup', hhash', hdata'⟩ := hops
  rw [hscript, netPushes, netPushes.eq_def (dataLength OP_DUP)]
  simp only [hdup, netPushes, hhash, hdata, hpush, hdup', hhash', hdata']
  omega

/-- A whole `scriptSig` that unlocks a P2PKH output is as documented exactly if it pushes a
signature, a key and nothing else that stays. -/
theorem accepts_p2pkh_iff {scriptSig : Bytes} {address : Address}
    (hwhole : overhang 0 scriptSig = 0)
    (hspends : evaluate scriptSig (buildP2pkhScriptPubkey address) sighash = true) :
    Accepts sighash (scriptSig ++ buildP2pkhScriptPubkey address) ↔ netPushes 0 scriptSig = 2 := by
  rw [accepts_iff, and_iff_right (evaluate_eq_true_iff.mp hspends), netPushes_append hwhole,
    netPushes_buildP2pkhScriptPubkey]
  omega

end Siliqua.Wallet
