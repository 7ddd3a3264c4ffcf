import Mathlib.Algebra.Order.Field.Power
import Mathlib.Data.Rat.Floor
import Mathlib.Tactic.GCongr
import Mathlib.Tactic.Linarith
import Mathlib.Tactic.NormNum
import Siliqua.Consensus.Target
import Siliqua.Ledger.FastPath

/-!
# Retargeting

When the difficulty computed for the next block has a target a hash can meet. The encoder
keeps values below `2^24` but only the 23 low bits of them, and does not look at the
exponent.
-/

namespace Siliqua.Ledger

open Siliqua.Core Siliqua.Consensus Siliqua.Network Splits

/-! ## The encoder -/

/-- The loop divides by 256 as often as needed to get below `2^24`, and no more. -/
theorem renormalise_spec (exponent : Nat) {fuel : Nat} {v : ℚ} (h : v < 2 ^ 24 * 256 ^ fuel) :
    ∃ k, renormalise fuel exponent v = (exponent + k, v / 256 ^ k) ∧ v < 2 ^ 24 * 256 ^ k ∧
      ∀ j, k = j + 1 → 2 ^ 24 * 256 ^ j ≤ v := by
  induction fuel generalizing exponent v with
  | zero => exact ⟨0, by simp [renormalise], by simpa using h, by simp⟩
  | succ fuel ih =>
    rw [renormalise]
    split
    · next hbig =>
      have hsmaller : v / 256 < 2 ^ 24 * 256 ^ fuel := by
        rw [div_lt_iff₀ (by norm_num), mul_assoc, ← pow_succ]
        exact h
      obtain ⟨k, heq, hlt, hge⟩ := ih (exponent + 1) hsmaller
      refine ⟨k + 1, ?_, ?_, ?_⟩
      · rw [heq, div_div, ← pow_succ']
        congr 1
        omega
      · rw [div_lt_iff₀ (by norm_num), mul_assoc, ← pow_succ] at hlt
        exact hlt
      · intro j hj
        obtain rfl : k = j := by omega
        cases k with
        | zero => simpa using le_trans (by norm_num) hbig
        | succ i =>
          have hi := hge i rfl
          rw [le_div_iff₀ (by norm_num), mul_assoc, ← pow_succ] at hi
          exact hi
    · next hsmall =>
      refine ⟨0, by simp, ?_, by simp⟩
      rw [not_le] at hsmall
      simpa using lt_of_lt_of_le hsmall (by norm_num)

/-- Values the encoder keeps non-zero: at least one, below `2^256`, and the three leading digits
to base 256 are not `80 00 00`. -/
structure Representable (v : ℚ) : Prop where
  one_le : 1 ≤ v
  lt_max : v < 2 ^ 256
  not_masked : ∀ k < 30, ¬ (2 ^ 23 * 256 ^ k ≤ v ∧ v < (2 ^ 23 + 1) * 256 ^ k)

/-- A value in a lower digit range than another bound needs fewer divisions. -/
theorem pow_lt_of_bounds {v : ℚ} {i k : Nat} (hle : 2 ^ 24 * 256 ^ i ≤ v)
    (hlt : v < 2 ^ 24 * 256 ^ k) : i < k := by
  by_contra hge
  have hpow : (256 : ℚ) ^ k ≤ 256 ^ i := pow_le_pow_right₀ (by norm_num) (by omega)
  linarith

/-- The number of divisions is below 30 exactly for values below `2^256`. -/
private theorem lt_thirty_iff {v : ℚ} {k : Nat} (hlt : v < 2 ^ 24 * 256 ^ k)
    (hge : ∀ j, k = j + 1 → 2 ^ 24 * 256 ^ j ≤ v) : k < 30 ↔ v < 2 ^ 256 := by
  have hmax : (2 : ℚ) ^ 256 = 2 ^ 24 * 256 ^ 29 := by norm_num
  rw [hmax]
  constructor
  · intro hk
    have hpow : (256 : ℚ) ^ k ≤ 256 ^ 29 := pow_le_pow_right₀ (by norm_num) (by omega)
    linarith
  · intro hv
    cases k with
    | zero => decide
    | succ j =>
      have := pow_lt_of_bounds (hge j rfl) hv
      omega

/-- What is left after the divisions has 24 bits. -/
theorem floor_lt {v : ℚ} {k : Nat} (hlt : v < 2 ^ 24 * 256 ^ k) :
    (v / 256 ^ k).floor < 2 ^ 24 := by
  have hq : v / 256 ^ k < 2 ^ 24 := by
    rw [div_lt_iff₀ (by positivity)]
    exact hlt
  rw [Rat.floor_lt_iff]
  exact_mod_cast hq

/-- The masked mantissa vanishes exactly for values below one and for those whose leading digits
are `80 00 00`. -/
private theorem mantissa_ne_zero_iff {v : ℚ} {k : Nat} (h0 : 0 ≤ v) (hlt : v < 2 ^ 24 * 256 ^ k)
    (hge : ∀ j, k = j + 1 → 2 ^ 24 * 256 ^ j ≤ v) :
    (v / 256 ^ k).floor.toNat % 2 ^ 23 ≠ 0 ↔
      1 ≤ v ∧ ¬ (2 ^ 23 * 256 ^ k ≤ v ∧ v < (2 ^ 23 + 1) * 256 ^ k) := by
  have hpos : (0 : ℚ) < 256 ^ k := by positivity
  have hfloor0 : 0 ≤ (v / 256 ^ k).floor :=
    Rat.le_floor_iff.mpr (by simpa using div_nonneg h0 hpos.le)
  have hfloor := floor_lt hlt
  have hone : 1 ≤ (v / 256 ^ k).floor ↔ 1 ≤ v := by
    rw [Rat.le_floor_iff, Int.cast_one, le_div_iff₀ hpos, one_mul]
    cases k with
    | zero => simp
    | succ j =>
      have hbig := hge j rfl
      have hj : (1 : ℚ) ≤ 256 ^ j := one_le_pow₀ (by norm_num)
      refine iff_of_true ?_ ?_
      · rw [pow_succ]
        linarith
      · linarith
  have hlow : 2 ^ 23 ≤ (v / 256 ^ k).floor ↔ 2 ^ 23 * 256 ^ k ≤ v := by
    rw [Rat.le_floor_iff, le_div_iff₀ hpos]
    norm_num
  have hhigh : (v / 256 ^ k).floor < 2 ^ 23 + 1 ↔ v < (2 ^ 23 + 1) * 256 ^ k := by
    rw [Rat.floor_lt_iff, div_lt_iff₀ hpos]
    norm_num
  rw [← hone, ← hlow, ← hhigh]
  omega

/-- The written target vanishes with the mantissa and for exponents above 32. -/
private theorem targetValue_compact_ne_zero_iff {k mantissa : Nat} (hk : k ≤ 253)
    (hm : mantissa < 2 ^ 32) :
    targetValue (bitsToTarget (compact (3 + k) mantissa)) ≠ 0 ↔
      k < 30 ∧ mantissa % 2 ^ 23 ≠ 0 := by
  have hlow : mantissa % 2 ^ 23 < 2 ^ 23 := Nat.mod_lt _ (by decide)
  rw [targetValue_bitsToTarget (sign_compact _ hm), exponentOf_compact _ hm,
    mantissaOf_compact _ hm]
  generalize mantissa % 2 ^ 23 = digits at hlow
  rcases Nat.lt_or_ge k 253 with hsmall | hwrapped
  · rw [show (3 + k) % 256 = 3 + k by omega]
    split
    · next hbig =>
      refine iff_of_false (by simp) fun h ↦ ?_
      omega
    split
    · next hbig hle =>
      rw [show 3 - (3 + k) = 0 by omega, pow_zero, Nat.div_one]
      exact ⟨fun h ↦ ⟨by omega, h⟩, fun h ↦ h.2⟩
    · next hbig hle =>
      rw [show 3 + k - 3 = k by omega]
      refine ⟨fun h ↦ ⟨by omega, ?_⟩, fun h ↦ ?_⟩
      · rintro rfl
        exact h (Nat.zero_mul _)
      · exact Nat.mul_ne_zero h.2 (by positivity)
  · -- the exponent wraps to zero and the mantissa is shifted out
    obtain rfl : k = 253 := by omega
    refine iff_of_false (fun h ↦ h ?_) (by omega)
    simp only [Nat.reduceAdd, Nat.reduceMod, Nat.not_lt_zero, ↓reduceIte, Nat.zero_le]
    exact Nat.div_eq_of_lt (by omega)

/-- A value lies in one digit range only. -/
private theorem digits_unique {v : ℚ} {j k : Nat} (hlt : v < 2 ^ 24 * 256 ^ k)
    (hge : ∀ i, k = i + 1 → 2 ^ 24 * 256 ^ i ≤ v)
    (hmask : 2 ^ 23 * 256 ^ j ≤ v ∧ v < (2 ^ 23 + 1) * 256 ^ j) : j = k := by
  have hpos : (0 : ℚ) < 256 ^ j := by positivity
  apply Nat.le_antisymm
  · by_contra hgt
    obtain ⟨i, rfl⟩ : ∃ i, j = i + 1 := ⟨j - 1, by omega⟩
    have hlow : (2 : ℚ) ^ 24 * 256 ^ i ≤ v := by
      have hbig := hmask.1
      have hi : (0 : ℚ) < 256 ^ i := by positivity
      rw [pow_succ (256 : ℚ) i] at hbig
      linarith
    have := pow_lt_of_bounds hlow hlt
    omega
  · cases k with
    | zero => exact Nat.zero_le _
    | succ i =>
      have hup : v < 2 ^ 24 * 256 ^ j := by linarith [hmask.2]
      exact pow_lt_of_bounds (hge i rfl) hup

/-- The encoded word has a target other than zero exactly for the values the encoder keeps. -/
theorem encodeTarget_ne_zero_iff {v : ℚ} (h0 : 0 ≤ v) (hv : v < 2 ^ 24 * 256 ^ 253) :
    bitsToTarget (encodeTarget v) ≠ Hash256.zero ↔ Representable v := by
  have hfuel : v < 2 ^ 24 * 256 ^ 256 := by
    have hpow : (256 : ℚ) ^ 253 ≤ 256 ^ 256 := pow_le_pow_right₀ (by norm_num) (by omega)
    linarith
  obtain ⟨k, hren, hlt, hge⟩ := renormalise_spec 3 hfuel
  have hk : k ≤ 253 := by
    cases k with
    | zero => omega
    | succ j => exact pow_lt_of_bounds (hge j rfl) hv
  have hfloor := floor_lt hlt
  have hfits : (v / 256 ^ k).floor.toNat < 2 ^ 32 := by omega
  have henc : encodeTarget v = compact (3 + k) (v / 256 ^ k).floor.toNat := by
    rw [encodeTarget, hren]
    rfl
  rw [henc, ne_eq, ← targetValue_eq_zero_iff, ← ne_eq, targetValue_compact_ne_zero_iff hk hfits,
    lt_thirty_iff hlt hge, mantissa_ne_zero_iff h0 hlt hge]
  constructor
  · rintro ⟨hmax, hone, hnot⟩
    refine ⟨hone, hmax, fun j _ hmask ↦ ?_⟩
    obtain rfl := digits_unique hlt hge hmask
    exact hnot hmask
  · intro h
    exact ⟨h.lt_max, h.one_le, h.not_masked k ((lt_thirty_iff hlt hge).mpr h.lt_max)⟩

/-! ## The end of a period -/

/-- Time from the first to the last block of a period, held between a quarter of the target time
and four times it. -/
def elapsed (periodStart periodEnd : CBlockHeader) (timespan : Nat) : ℤ :=
  max ((timespan : ℤ) / 4)
    (min (4 * timespan) ((periodEnd.nTime.toNat : ℤ) - periodStart.nTime.toNat))

theorem clampedTimespan_eq_elapsed (periodStart periodEnd : CBlockHeader) (timespan : Nat) :
    clampedTimespan periodStart periodEnd timespan = elapsed periodStart periodEnd timespan := by
  have hquarter : (timespan : ℤ) / 4 ≤ 4 * timespan := by omega
  simp only [clampedTimespan, elapsed]
  split_ifs <;> omega

/-- A nonempty history of full periods, with the first and the last block of its last period. -/
structure Period (headers : List CBlockHeader) (interval : Nat)
    (periodStart periodEnd : CBlockHeader) : Prop where
  full : headers.length % interval = 0
  first : headers[headers.length - interval]? = some periodStart
  last : headers.getLast? = some periodEnd

theorem exists_period {headers : List CBlockHeader} {interval : Nat} (hpos : 0 < interval)
    (hne : headers ≠ []) (hmod : headers.length % interval = 0) :
    ∃ periodStart periodEnd, Period headers interval periodStart periodEnd := by
  have hlt : headers.length - interval < headers.length :=
    Nat.sub_lt (List.length_pos_iff.mpr hne) hpos
  exact ⟨headers[headers.length - interval], headers.getLast hne, hmod,
    List.getElem?_eq_getElem hlt, List.getLast?_eq_some_getLast hne⟩

/-- At the end of a period the difficulty is scaled by its clamped time and encoded anew. -/
theorem Period.retargets {headers : List CBlockHeader} {interval : Nat}
    {periodStart periodEnd : CBlockHeader} (h : Period headers interval periodStart periodEnd)
    (timespan : Nat) :
    getNextWorkRequired headers interval timespan =
      some (encodeTarget (scaledTarget periodEnd.nBits (elapsed periodStart periodEnd timespan)
        timespan)) := by
  rw [getNextWorkRequired, h.last]
  simp only [h.full, h.first, ne_eq, not_true_eq_false, ↓reduceIte, Option.bind_eq_bind,
    Option.bind_some, clampedTimespan_eq_elapsed]

/-! ## The value to encode -/

/-- Header fields only: the target of the last block of a period, times its time span held
between 15 and 240 seconds, over 60 seconds. -/
def retargetValue (periodStart periodEnd : CBlockHeader) : ℚ :=
  (mantissaOf periodEnd.nBits : ℚ) * 256 ^ ((exponentOf periodEnd.nBits : ℤ) - 3) *
    (max 15 (min 240 ((periodEnd.nTime.toNat : ℚ) - periodStart.nTime.toNat)) / 60)

/-- The scaled target of a retarget is `retargetValue`. -/
theorem scaledTarget_elapsed (periodStart periodEnd : CBlockHeader) :
    scaledTarget periodEnd.nBits (elapsed periodStart periodEnd TARGET_TIMESPAN_SECONDS)
      TARGET_TIMESPAN_SECONDS = retargetValue periodStart periodEnd := by
  have hpow : (2 : ℚ) ^ (8 * ((exponentOf periodEnd.nBits : ℤ) - 3)) =
      256 ^ ((exponentOf periodEnd.nBits : ℤ) - 3) := by
    rw [zpow_mul]
    norm_num
  have hsixty : ((TARGET_TIMESPAN_SECONDS : Nat) : ℚ) = 60 := rfl
  have hquarter : ((TARGET_TIMESPAN_SECONDS : Nat) : ℤ) / 4 = 15 := rfl
  have hfour : 4 * ((TARGET_TIMESPAN_SECONDS : Nat) : ℤ) = 240 := rfl
  rw [scaledTarget, elapsed, hquarter, hfour, hpow, hsixty, retargetValue]
  push_cast
  rfl

theorem exponentOf_lt (bits : UInt32) : exponentOf bits < 256 := by
  have h24 : (24 : UInt32).toNat = 24 := rfl
  have hlt := bits.toNat_lt
  rw [exponentOf, UInt32.toNat_shiftRight, h24, Nat.shiftRight_eq_div_pow]
  simp only [Nat.reduceMod]
  omega

private theorem retargetValue_nonneg (periodStart periodEnd : CBlockHeader) :
    0 ≤ retargetValue periodStart periodEnd := by
  unfold retargetValue
  positivity

private theorem retargetValue_lt (periodStart periodEnd : CBlockHeader) :
    retargetValue periodStart periodEnd < 2 ^ 24 * 256 ^ 253 := by
  have hm : (mantissaOf periodEnd.nBits : ℚ) ≤ 2 ^ 23 := by
    exact_mod_cast (mantissaOf_lt periodEnd.nBits).le
  have hexp := exponentOf_lt periodEnd.nBits
  have hpow : (256 : ℚ) ^ ((exponentOf periodEnd.nBits : ℤ) - 3) ≤ 256 ^ (252 : ℤ) :=
    zpow_le_zpow_right₀ (by norm_num) (by omega)
  have hspan : max 15 (min 240 ((periodEnd.nTime.toNat : ℚ) - periodStart.nTime.toNat)) / 60 ≤
      4 := by
    rw [div_le_iff₀ (by norm_num)]
    exact max_le (by norm_num) (le_trans (min_le_left _ _) (by norm_num))
  calc retargetValue periodStart periodEnd
      ≤ 2 ^ 23 * 256 ^ (252 : ℤ) * 4 := by
        unfold retargetValue
        gcongr
    _ < 2 ^ 24 * 256 ^ 253 := by norm_num

/-! ## The history of an accepted chain -/

/-- First and last header of the last period that has all its blocks. -/
def lastPeriod (headers : List CBlockHeader) : Option (CBlockHeader × CBlockHeader) := do
  let completed := headers.take (headers.length - headers.length % RETARGET_INTERVAL)
  let periodEnd ← completed.getLast?
  let periodStart ← completed[completed.length - RETARGET_INTERVAL]?
  some (periodStart, periodEnd)

/-- Difficulty the last completed period leaves for the blocks after it. -/
def periodBits (headers : List CBlockHeader) : UInt32 :=
  match lastPeriod headers with
  | none => INITIAL_BITS
  | some (periodStart, periodEnd) => encodeTarget (retargetValue periodStart periodEnd)

private theorem periodBits_concat {headers : List CBlockHeader} {header : CBlockHeader}
    (h : (headers ++ [header]).length % RETARGET_INTERVAL ≠ 0) :
    periodBits (headers ++ [header]) = periodBits headers := by
  have hlen : (headers ++ [header]).length = headers.length + 1 := by simp
  have hstart : (headers ++ [header]).length - (headers ++ [header]).length % RETARGET_INTERVAL =
      headers.length - headers.length % RETARGET_INTERVAL := by
    rw [hlen, RETARGET_INTERVAL] at h ⊢
    omega
  have hperiod : lastPeriod (headers ++ [header]) = lastPeriod headers := by
    rw [lastPeriod, lastPeriod, hstart, List.take_append_of_le_length (Nat.sub_le _ _)]
  rw [periodBits, periodBits, hperiod]

private theorem getNextWorkRequired_boundary {headers : List CBlockHeader} (hne : headers ≠ [])
    (h : headers.length % RETARGET_INTERVAL = 0) :
    getNextWorkRequired headers RETARGET_INTERVAL TARGET_TIMESPAN_SECONDS =
      some (periodBits headers) := by
  obtain ⟨periodStart, periodEnd, hperiod⟩ := exists_period (by decide) hne h
  have hlast : lastPeriod headers = some (periodStart, periodEnd) := by
    rw [lastPeriod, h, Nat.sub_zero, List.take_length, hperiod.last, hperiod.first]
    rfl
  rw [periodBits, hlast, hperiod.retargets, scaledTarget_elapsed]

section

variable [Crypto]

/-- Every block repeats the difficulty of the last completed period, and so does the next. -/
theorem expectedBits_of_fits {chain : List CBlock}
    (h : ∀ pre blk post, chain = pre ++ blk :: post → BlockFits pre blk) :
    expectedBits (extractHeaders chain) = some (periodBits (extractHeaders chain)) := by
  induction chain using List.reverseRecOn with
  | nil => rfl
  | append_singleton chain blk ih =>
    obtain ⟨hinit, hlast⟩ := forall_split_concat.mp h
    have hne : extractHeaders (chain ++ [blk]) ≠ [] := by simp [extractHeaders]
    rw [expectedBits, if_neg (by simpa using hne)]
    by_cases hmod : (extractHeaders (chain ++ [blk])).length % RETARGET_INTERVAL = 0
    · exact getNextWorkRequired_boundary hne hmod
    · rw [extractHeaders_concat] at hmod ⊢
      rw [periodBits_concat hmod, getNextWorkRequired, List.getLast?_concat]
      simp only [hmod, ne_eq, not_false_eq_true, ↓reduceIte]
      exact hlast.bits.trans (ih hinit)

/-- After an accepted chain the next target is not zero exactly when the encoder keeps the value
of the last completed period, if there is one. -/
theorem next_target_ne_zero_iff {chain : List CBlock} (h : validateFullChain chain = true) :
    (∃ bits, getNextWorkRequired (extractHeaders chain) RETARGET_INTERVAL
        TARGET_TIMESPAN_SECONDS = some bits ∧ bitsToTarget bits ≠ Hash256.zero) ↔
      ∀ periodStart periodEnd,
        lastPeriod (extractHeaders chain) = some (periodStart, periodEnd) →
          Representable (retargetValue periodStart periodEnd) := by
  obtain ⟨hne, hall⟩ := validateFullChain_iff.mp h
  have hbits := expectedBits_of_fits hall
  rw [expectedBits, if_neg (by simpa [extractHeaders] using hne)] at hbits
  rw [hbits, periodBits]
  simp only [Option.some.injEq, exists_eq_left']
  cases lastPeriod (extractHeaders chain) with
  | none =>
    refine iff_of_true ?_ (by simp)
    decide +kernel
  | some period =>
    obtain ⟨periodStart, periodEnd⟩ := period
    simp only [Option.some.injEq, Prod.mk.injEq]
    rw [encodeTarget_ne_zero_iff (retargetValue_nonneg _ _) (retargetValue_lt _ _)]
    constructor
    · rintro hrep _ _ ⟨rfl, rfl⟩
      exact hrep
    · exact fun hall ↦ hall _ _ ⟨rfl, rfl⟩

end

/-! ## Five slow blocks -/

/-- A block on top of another with only its own reward, free for anyone. -/
def slowBlock (prev root : Nat) (height : UInt8) (time : UInt32) : CBlock where
  nVersion := 1
  hashPrevBlock := .ofBigEndian prev
  hashMerkleRoot := .ofBigEndian root
  nTime := time
  nBits := INITIAL_BITS
  nNonce := 0
  vtx :=
    [{ nVersion := 1
       vin := [⟨COutPoint.null, [height, 0, 0, 0], 0xFFFFFFFF⟩]
       vout := [⟨5000000000, openScript⟩]
       nLockTime := 0
       txHash := .ofBigEndian root }]

/-- Five blocks at 62 seconds each, where the schedule has 12. -/
def slowChain : List CBlock :=
  [openGenesis,
    slowBlock 0x2477962e6252d54915bb84656a75a7fc211629eb6a2bf05c30fd489f2f694de0
      0x6066fc78d21beb290da9e52a027abc8436864258d43d8485c551fe6bf51c8c3f 1 1700000061,
    slowBlock 0x158624bf049ab614709a133af62d26a4cd70aeaa608553025d5b2c35a794c10a
      0xb008f0b6f3adf5ac6ed1e86d0c410b083bc453f0a87de0e91b761816ab405ab4 2 1700000124,
    slowBlock 0x4c64f288691f66162f7e6dbacb044306b32a106babeaf14e7368a5449846a0c3
      0x5feaa84e65cdde761e01768082752a9997e81b353c9baa7db01b74b4c2fb5748 3 1700000184,
    slowBlock 0x4e9eb7811d113af8483c3f5bcd54651fd9ee1cbac5bab369b7e30285d5445f0b
      0xad9e787d302f81d663ee5932ed10131a0251b7918695322152454c2a41626e12 4 1700000248]

theorem validateFullChain_slowChain :
    @validateFullChain keylessCrypto slowChain = true := by
  decide +kernel

/-- The target of `slowChain` quadruples beyond `2^256`. -/
private theorem bitsToTarget_periodBits_slowChain :
    bitsToTarget (periodBits (extractHeaders slowChain)) = Hash256.zero := by
  by_contra hne
  have hrep := (encodeTarget_ne_zero_iff (retargetValue_nonneg _ _) (retargetValue_lt _ _)).mp hne
  have hmax := hrep.lt_max
  have hm : mantissaOf INITIAL_BITS = 0x7fffff := by decide +kernel
  have he : exponentOf INITIAL_BITS = 0x20 := by decide +kernel
  change (mantissaOf INITIAL_BITS : ℚ) * 256 ^ ((exponentOf INITIAL_BITS : ℤ) - 3) *
    (max 15 (min 240 (((1700000248 : Nat) : ℚ) - (1700000000 : Nat))) / 60) < 2 ^ 256 at hmax
  rw [hm, he] at hmax
  norm_num at hmax

/-- `slowChain` is accepted and the next target is zero. -/
theorem next_target_zero_slowChain :
    @validateFullChain keylessCrypto slowChain = true ∧
      ¬ ∃ bits, getNextWorkRequired (extractHeaders slowChain) RETARGET_INTERVAL
        TARGET_TIMESPAN_SECONDS = some bits ∧ bitsToTarget bits ≠ Hash256.zero := by
  refine ⟨validateFullChain_slowChain, ?_⟩
  rintro ⟨bits, hbits, hne⟩
  rw [getNextWorkRequired_boundary (by simp [extractHeaders, slowChain]) rfl] at hbits
  cases hbits
  exact hne bitsToTarget_periodBits_slowChain

/-- Five blocks in half the time. -/
def briskChain : List CBlock :=
  [openGenesis,
    slowBlock 0x2477962e6252d54915bb84656a75a7fc211629eb6a2bf05c30fd489f2f694de0
      0x6066fc78d21beb290da9e52a027abc8436864258d43d8485c551fe6bf51c8c3f 1 1700000004,
    slowBlock 0x37490881a36384f8b2c42335fa8efe66ed3c9bba6ad8375c494edf4201dd4391
      0xb008f0b6f3adf5ac6ed1e86d0c410b083bc453f0a87de0e91b761816ab405ab4 2 1700000010,
    slowBlock 0x252f6ce25e8a471c9257b4a3961726787ab77ce2bbed56ffae45d50023d8e9de
      0x5feaa84e65cdde761e01768082752a9997e81b353c9baa7db01b74b4c2fb5748 3 1700000023,
    slowBlock 0x1b35e6acc2d8eca9d59afb8bf861830949f5084f13a48e3473b4fb5176f34135
      0xad9e787d302f81d663ee5932ed10131a0251b7918695322152454c2a41626e12 4 1700000030]

/-- Half of the initial target. -/
private theorem retargetValue_briskChain {periodStart periodEnd : CBlockHeader}
    (h : lastPeriod (extractHeaders briskChain) = some (periodStart, periodEnd)) :
    retargetValue periodStart periodEnd = 8388607 / 2 * 256 ^ 29 := by
  have hm : mantissaOf INITIAL_BITS = 0x7fffff := by decide +kernel
  have he : exponentOf INITIAL_BITS = 0x20 := by decide +kernel
  cases h
  change (mantissaOf INITIAL_BITS : ℚ) * 256 ^ ((exponentOf INITIAL_BITS : ℤ) - 3) *
    (max 15 (min 240 (((1700000030 : Nat) : ℚ) - (1700000000 : Nat))) / 60) = _
  rw [hm, he]
  norm_num

/-- The encoder keeps it. -/
private theorem representable_half : Representable (8388607 / 2 * 256 ^ 29) := by
  refine ⟨by norm_num, by norm_num, ?_⟩
  rintro k hk ⟨hle, hlt⟩
  rcases Nat.lt_succ_iff_lt_or_eq.mp hk with hsmall | rfl
  · have hpow : (256 : ℚ) ^ k ≤ 256 ^ 28 := pow_le_pow_right₀ (by norm_num) (by omega)
    linarith
  · linarith

/-- After five blocks in half the time the next target is half the initial one, and not zero. -/
theorem next_target_ne_zero_iff_briskChain :
    (lastPeriod (extractHeaders briskChain)).isSome = true ∧
      ∃ bits, getNextWorkRequired (extractHeaders briskChain) RETARGET_INTERVAL
        TARGET_TIMESPAN_SECONDS = some bits ∧ bitsToTarget bits ≠ Hash256.zero := by
  have haccepted : @validateFullChain keylessCrypto briskChain = true := by decide +kernel
  refine ⟨rfl, (@next_target_ne_zero_iff keylessCrypto _ haccepted).mpr fun _ _ h ↦ ?_⟩
  rw [retargetValue_briskChain h]
  exact representable_half

end Siliqua.Ledger
