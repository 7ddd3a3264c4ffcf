import Siliqua.Consensus.Work
import Siliqua.Ledger.Retarget

/-!
# The retarget rule against its description

The new target is meant to be the old one times the clamped elapsed time over the target time,
rounded down to the encoder's three digits. The encoder's bound lets a 24th bit through that its
mask then drops, and a period is measured from its first block to its last, one distance short.
-/

namespace Siliqua.Ledger

open Siliqua.Core Siliqua.Consensus Siliqua.Network

/-! ## What the encoder writes -/

/-- Exponent and mantissa of an encoded value. -/
theorem encodeTarget_spec {v : ℚ} (hv : v < 2 ^ 24 * 256 ^ 252) :
    ∃ k, v < 2 ^ 24 * 256 ^ k ∧ (∀ j, k = j + 1 → 2 ^ 24 * 256 ^ j ≤ v) ∧
      exponentOf (encodeTarget v) = 3 + k ∧
      mantissaOf (encodeTarget v) = (v / 256 ^ k).floor.toNat % 2 ^ 23 := by
  have hfuel : v < 2 ^ 24 * 256 ^ 256 := by
    have hpow : (256 : ℚ) ^ 252 ≤ 256 ^ 256 := pow_le_pow_right₀ (by norm_num) (by omega)
    linarith
  obtain ⟨k, hren, hlt, hge⟩ := renormalise_spec 3 hfuel
  have hk : k ≤ 252 := by
    cases k with
    | zero => omega
    | succ j => exact pow_lt_of_bounds (hge j rfl) hv
  have hfits : (v / 256 ^ k).floor.toNat < 2 ^ 32 := by
    have := floor_lt hlt
    omega
  have henc : encodeTarget v = compact (3 + k) (v / 256 ^ k).floor.toNat := by
    rw [encodeTarget, hren]
    rfl
  refine ⟨k, hlt, hge, ?_, ?_⟩
  · rw [henc, exponentOf_compact _ hfits, Nat.mod_eq_of_lt (by omega)]
  · rw [henc, mantissaOf_compact _ hfits]

/-- The value's three leading digits to base 256 start with a set bit, which the encoder's mask
drops. -/
def Masked (v : ℚ) : Prop := ∃ k : Nat, 2 ^ 23 * 256 ^ k ≤ v ∧ v < 2 ^ 24 * 256 ^ k

/-- The number of divisions decides in which range a value can be masked. -/
private theorem masked_iff {v : ℚ} {k : Nat} (hlt : v < 2 ^ 24 * 256 ^ k)
    (hge : ∀ j, k = j + 1 → 2 ^ 24 * 256 ^ j ≤ v) : Masked v ↔ 2 ^ 23 * 256 ^ k ≤ v := by
  constructor
  · rintro ⟨j, hlow, hhigh⟩
    have hjk : k ≤ j := by
      cases k with
      | zero => exact Nat.zero_le _
      | succ i => exact pow_lt_of_bounds (hge i rfl) hhigh
    have hpow : (256 : ℚ) ^ k ≤ 256 ^ j := pow_le_pow_right₀ (by norm_num) hjk
    linarith
  · exact fun hlow ↦ ⟨k, hlow, hlt⟩

/-- Encoded value of a number, in terms of the number of divisions. -/
private theorem targetOf_encodeTarget {v : ℚ} (h0 : 0 ≤ v) (hv : v < 2 ^ 24 * 256 ^ 252) :
    ∃ k n : Nat, v < 2 ^ 24 * 256 ^ k ∧ (∀ j, k = j + 1 → 2 ^ 24 * 256 ^ j ≤ v) ∧
      exponentOf (encodeTarget v) - 3 = k ∧ targetOf (encodeTarget v) = n % 2 ^ 23 * 256 ^ k ∧
      n < 2 ^ 24 ∧ n * 256 ^ k ≤ v ∧ v < (n + 1) * 256 ^ k := by
  obtain ⟨k, hlt, hge, hexp, hman⟩ := encodeTarget_spec hv
  have hpos : (0 : ℚ) < 256 ^ k := by positivity
  have hfloor0 : 0 ≤ (v / 256 ^ k).floor :=
    Rat.le_floor_iff.mpr (by simpa using div_nonneg h0 hpos.le)
  have hcast : (((v / 256 ^ k).floor.toNat : Nat) : ℚ) = ((v / 256 ^ k).floor : ℚ) := by
    have hint : (((v / 256 ^ k).floor.toNat : Nat) : ℤ) = (v / 256 ^ k).floor := by omega
    exact_mod_cast congrArg (Int.cast : ℤ → ℚ) hint
  have hlow : ((v / 256 ^ k).floor : ℚ) ≤ v / 256 ^ k := Rat.le_floor_iff.mp (le_refl _)
  have hhigh : v / 256 ^ k < ((v / 256 ^ k).floor : ℚ) + 1 := by
    have h : (v / 256 ^ k).floor < (v / 256 ^ k).floor + 1 := by omega
    rw [Rat.floor_lt_iff] at h
    exact_mod_cast h
  refine ⟨k, (v / 256 ^ k).floor.toNat, hlt, hge, by omega, ?_, ?_, ?_, ?_⟩
  · rw [targetOf, hman, hexp, Nat.add_sub_cancel_left]
  · have := floor_lt hlt
    omega
  · rw [hcast]
    exact (le_div_iff₀ hpos).mp hlow
  · rw [hcast]
    exact (div_lt_iff₀ hpos).mp hhigh

/-- An encoded value is not above the number it stands for. -/
theorem targetOf_encodeTarget_le {v : ℚ} (h0 : 0 ≤ v) (hv : v < 2 ^ 24 * 256 ^ 252) :
    (targetOf (encodeTarget v) : ℚ) ≤ v := by
  obtain ⟨k, n, -, -, -, htarget, -, hlow, -⟩ := targetOf_encodeTarget h0 hv
  have hmod : ((n % 2 ^ 23 : Nat) : ℚ) ≤ n := Nat.cast_le.mpr (Nat.mod_le _ _)
  rw [htarget, Nat.cast_mul, Nat.cast_pow, Nat.cast_ofNat]
  exact le_trans (by gcongr) hlow

/-- The encoded value is the number rounded down to the last digit exactly when the mask drops
nothing. -/
theorem encodeTarget_rounds_iff {v : ℚ} (h0 : 0 ≤ v) (hv : v < 2 ^ 24 * 256 ^ 252) :
    ((targetOf (encodeTarget v) : ℚ) ≤ v ∧
        v < targetOf (encodeTarget v) + 256 ^ (exponentOf (encodeTarget v) - 3)) ↔
      ¬ Masked v := by
  obtain ⟨k, n, hlt, hge, hexp, htarget, hn, hlow, hhigh⟩ := targetOf_encodeTarget h0 hv
  have hpos : (0 : ℚ) < 256 ^ k := by positivity
  rw [masked_iff hlt hge, not_le, htarget, hexp, Nat.cast_mul, Nat.cast_pow, Nat.cast_ofNat,
    ← add_one_mul]
  rcases Nat.lt_or_ge n (2 ^ 23) with hsmall | hbig
  · have hone : (n : ℚ) + 1 ≤ 2 ^ 23 := by exact_mod_cast hsmall
    rw [Nat.mod_eq_of_lt hsmall]
    exact iff_of_true ⟨hlow, hhigh⟩ (lt_of_lt_of_le hhigh (by gcongr))
  · obtain ⟨m, rfl⟩ := Nat.exists_eq_add_of_le hbig
    have hmod : (2 ^ 23 + m) % 2 ^ 23 = m := by omega
    have hcast : ((2 ^ 23 + m : Nat) : ℚ) = 2 ^ 23 + m := by push_cast; rfl
    rw [hcast] at hlow
    have hm : (0 : ℚ) ≤ m := Nat.cast_nonneg m
    have hle : ((m : ℚ) + 1) * 256 ^ k ≤ (2 ^ 23 + m) * 256 ^ k :=
      mul_le_mul_of_nonneg_right (by linarith) hpos.le
    have hle' : (2 : ℚ) ^ 23 * 256 ^ k ≤ (2 ^ 23 + m) * 256 ^ k :=
      mul_le_mul_of_nonneg_right (by linarith) hpos.le
    rw [hmod]
    refine iff_of_false (fun h ↦ ?_) (not_lt.mpr (le_trans hle' hlow))
    exact absurd h.2 (not_lt.mpr (le_trans hle hlow))

/-- A larger number that the mask leaves alone has no smaller encoded value. -/
theorem targetOf_encodeTarget_mono {v w : ℚ} (h0 : 0 ≤ v) (hle : v ≤ w)
    (hw : w < 2 ^ 24 * 256 ^ 252) (hmask : ¬ Masked w) :
    targetOf (encodeTarget v) ≤ targetOf (encodeTarget w) := by
  obtain ⟨k, n, hltv, hgev, -, htv, hn, hlowv, -⟩ := targetOf_encodeTarget h0 (hle.trans_lt hw)
  obtain ⟨l, m, hltw, hgew, -, htw, -, hloww, hhighw⟩ :=
    targetOf_encodeTarget (h0.trans hle) hw
  have hbelow := targetOf_encodeTarget_le h0 (hle.trans_lt hw)
  rw [masked_iff hltw hgew, not_le] at hmask
  have hpos : (0 : ℚ) < 256 ^ l := by positivity
  have hm : m < 2 ^ 23 := by
    have hlt : (m : ℚ) * 256 ^ l < 2 ^ 23 * 256 ^ l := hloww.trans_lt hmask
    exact_mod_cast lt_of_mul_lt_mul_right hlt hpos.le
  rw [Nat.mod_eq_of_lt hm] at htw
  have hkl : k ≤ l := by
    cases k with
    | zero => exact Nat.zero_le _
    | succ j => exact pow_lt_of_bounds ((hgev j rfl).trans hle) hltw
  rcases hkl.lt_or_eq with hlt | rfl
  · obtain ⟨j, rfl⟩ : ∃ j, l = j + 1 := ⟨l - 1, by omega⟩
    -- the larger number keeps at least sixteen bits, which are above the smaller number's range
    have hpow : (256 : ℚ) ^ k ≤ 256 ^ j := pow_le_pow_right₀ (by norm_num) (by omega)
    have hj : (0 : ℚ) < 256 ^ j := by positivity
    have hbig : 2 ^ 16 ≤ m := by
      by_contra hsmall
      have hone : (m : ℚ) + 1 ≤ 2 ^ 16 := by exact_mod_cast Nat.lt_of_not_le hsmall
      have hup : w < 2 ^ 16 * 256 ^ (j + 1) :=
        hhighw.trans_le (mul_le_mul_of_nonneg_right hone hpos.le)
      have hdown := hgew j rfl
      rw [pow_succ (256 : ℚ) j] at hup
      linarith
    have hreach : (2 : ℚ) ^ 24 * 256 ^ j ≤ targetOf (encodeTarget w) := by
      have hcast : (2 : ℚ) ^ 16 ≤ m := by exact_mod_cast hbig
      rw [htw, Nat.cast_mul, Nat.cast_pow, Nat.cast_ofNat, pow_succ (256 : ℚ) j,
        ← mul_assoc]
      nlinarith
    have hfinal : (targetOf (encodeTarget v) : ℚ) ≤ targetOf (encodeTarget w) := by linarith
    exact_mod_cast hfinal
  · have hnm : n < m + 1 := by
      have hlt : (n : ℚ) * 256 ^ k < (m + 1) * 256 ^ k := (hlowv.trans hle).trans_lt hhighw
      exact_mod_cast lt_of_mul_lt_mul_right hlt hpos.le
    rw [htv, htw]
    exact Nat.mul_le_mul_right _ ((Nat.mod_le _ _).trans (by omega))

/-! ## What the retarget scales -/

/-- A target times the clamped time over the target time. -/
def scaledBy (bits : UInt32) (time : ℤ) (timespan : Nat) : ℚ :=
  targetOf bits * ((time : ℚ) / timespan)

theorem scaledTarget_eq_scaledBy {bits : UInt32} (h : 3 ≤ exponentOf bits) (time : ℤ)
    (timespan : Nat) : scaledTarget bits time timespan = scaledBy bits time timespan := by
  have hpow : (2 : ℚ) ^ (8 * ((exponentOf bits : ℤ) - 3)) = 256 ^ (exponentOf bits - 3) := by
    rw [show (8 : ℤ) * ((exponentOf bits : ℤ) - 3) = ((8 * (exponentOf bits - 3) : ℕ) : ℤ) by omega,
      zpow_natCast, pow_mul]
    norm_num
  rw [scaledTarget, scaledBy, targetOf, hpow, Nat.cast_mul, Nat.cast_pow, Nat.cast_ofNat]

theorem elapsed_nonneg (periodStart periodEnd : CBlockHeader) (timespan : Nat) :
    0 ≤ elapsed periodStart periodEnd timespan :=
  le_max_of_le_left (by omega)

theorem scaledBy_nonneg (bits : UInt32) {time : ℤ} (h : 0 ≤ time) (timespan : Nat) :
    0 ≤ scaledBy bits time timespan := by
  have htime : (0 : ℚ) ≤ time := Int.cast_nonneg h
  unfold scaledBy
  positivity

/-- A regular difficulty scaled by a clamped time stays in the encoder's range. -/
theorem scaledBy_lt {bits : UInt32} (h : Regular bits) (periodStart periodEnd : CBlockHeader)
    (timespan : Nat) :
    scaledBy bits (elapsed periodStart periodEnd timespan) timespan < 2 ^ 24 * 256 ^ 252 := by
  have hle := h.exponent_le
  have hm : (mantissaOf bits : ℚ) ≤ 2 ^ 23 := by exact_mod_cast (mantissaOf_lt bits).le
  have htarget : (targetOf bits : ℚ) ≤ 2 ^ 23 * 256 ^ 29 := by
    have hpow : (256 : ℚ) ^ (exponentOf bits - 3) ≤ 256 ^ 29 :=
      pow_le_pow_right₀ (by norm_num) (by omega)
    rw [targetOf, Nat.cast_mul, Nat.cast_pow, Nat.cast_ofNat]
    gcongr
  have hfour : (elapsed periodStart periodEnd timespan : ℚ) ≤ 4 * timespan := by
    have hint : elapsed periodStart periodEnd timespan ≤ 4 * timespan :=
      max_le (by omega) (min_le_left _ _)
    exact_mod_cast hint
  have hratio : (elapsed periodStart periodEnd timespan : ℚ) / timespan ≤ 4 :=
    div_le_of_le_mul₀ (Nat.cast_nonneg _) (by norm_num) hfour
  have hnonneg : (0 : ℚ) ≤ elapsed periodStart periodEnd timespan :=
    Int.cast_nonneg (elapsed_nonneg _ _ _)
  calc scaledBy bits (elapsed periodStart periodEnd timespan) timespan
      ≤ 2 ^ 23 * 256 ^ 29 * 4 := by
        unfold scaledBy
        gcongr
    _ < 2 ^ 24 * 256 ^ 252 := by norm_num

/-- A regular difficulty is scaled and encoded anew. -/
theorem Period.getNextWorkRequired {headers : List CBlockHeader} {interval : Nat}
    {periodStart periodEnd : CBlockHeader} (h : Period headers interval periodStart periodEnd)
    (hexp : 3 ≤ exponentOf periodEnd.nBits) (timespan : Nat) :
    getNextWorkRequired headers interval timespan =
      some (encodeTarget (scaledBy periodEnd.nBits (elapsed periodStart periodEnd timespan)
        timespan)) := by
  rw [h.retargets, scaledTarget_eq_scaledBy hexp]

/-- The new target is the old one scaled by the clamped time and rounded down to its own last
digit exactly when the encoder's mask drops nothing of it; it then grows with the time. -/
theorem retarget_scales_iff {interval timespan : Nat} (hpos : 0 < interval)
    {headers : List CBlockHeader} (hne : headers ≠ []) (hmod : headers.length % interval = 0)
    (hreg : ∀ tip, headers.getLast? = some tip → Regular tip.nBits) :
    ∃ periodStart periodEnd newBits, Period headers interval periodStart periodEnd ∧
      getNextWorkRequired headers interval timespan = some newBits ∧
      (((targetOf newBits : ℚ) ≤
            scaledBy periodEnd.nBits (elapsed periodStart periodEnd timespan) timespan ∧
          scaledBy periodEnd.nBits (elapsed periodStart periodEnd timespan) timespan <
            targetOf newBits + 256 ^ (exponentOf newBits - 3)) ↔
        ¬ Masked (scaledBy periodEnd.nBits (elapsed periodStart periodEnd timespan) timespan)) ∧
      (¬ Masked (scaledBy periodEnd.nBits (elapsed periodStart periodEnd timespan) timespan) →
        ∀ faster fastStart fastEnd fastBits, Period faster interval fastStart fastEnd →
          fastEnd.nBits = periodEnd.nBits →
          elapsed fastStart fastEnd timespan ≤ elapsed periodStart periodEnd timespan →
          getNextWorkRequired faster interval timespan = some fastBits →
          targetOf fastBits ≤ targetOf newBits) := by
  obtain ⟨periodStart, periodEnd, h⟩ := exists_period hpos hne hmod
  have hregular := hreg periodEnd h.last
  have hlt := scaledBy_lt hregular periodStart periodEnd timespan
  have h0 := scaledBy_nonneg periodEnd.nBits (elapsed_nonneg periodStart periodEnd timespan)
    timespan
  refine ⟨periodStart, periodEnd, _, h, h.getNextWorkRequired hregular.exponent_ge timespan,
    encodeTarget_rounds_iff h0 hlt, ?_⟩
  intro hmask faster fastStart fastEnd fastBits hfast hbits hle hnext
  rw [hfast.getNextWorkRequired (hbits ▸ hregular.exponent_ge), Option.some.injEq] at hnext
  subst hnext
  rw [hbits]
  refine targetOf_encodeTarget_mono (scaledBy_nonneg _ (elapsed_nonneg _ _ _) _) ?_ hlt hmask
  have hcast : (elapsed fastStart fastEnd timespan : ℚ) ≤ elapsed periodStart periodEnd timespan :=
    Int.cast_le.mpr hle
  unfold scaledBy
  gcongr

/-- Headers of the easiest difficulty at given times. -/
def headersAt (times : List UInt32) : List CBlockHeader :=
  times.map fun time ↦
    { nVersion := 1
      hashPrevBlock := Hash256.zero
      hashMerkleRoot := Hash256.zero
      nTime := time
      nBits := INITIAL_BITS
      nNonce := 0 }

private theorem regular_initialBits : Regular INITIAL_BITS :=
  ⟨by decide, by decide, by decide, by decide⟩

/-- Five blocks in 90 seconds should raise the target by half, and halve it. -/
theorem retarget_halves_lateHeaders :
    getNextWorkRequired (headersAt [0, 22, 45, 67, 90]) RETARGET_INTERVAL
        TARGET_TIMESPAN_SECONDS = some 0x203ffffe ∧
      ¬ (scaledBy INITIAL_BITS 90 TARGET_TIMESPAN_SECONDS <
        targetOf 0x203ffffe + 256 ^ (exponentOf 0x203ffffe - 3)) := by
  constructor
  · decide +kernel
  · have htarget : targetOf 0x203ffffe = 0x3ffffe * 256 ^ 29 := by decide +kernel
    have hinitial : targetOf INITIAL_BITS = 0x7fffff * 256 ^ 29 := by decide +kernel
    have hexp : exponentOf 0x203ffffe - 3 = 29 := by decide +kernel
    rw [scaledBy, htarget, hinitial, hexp, TARGET_TIMESPAN_SECONDS]
    norm_num

/-- Five blocks in a minute: the mask drops nothing. -/
theorem retarget_scales_iff_minute :
    ∃ periodStart periodEnd newBits,
      Period (headersAt [0, 15, 30, 45, 60]) RETARGET_INTERVAL periodStart periodEnd ∧
      getNextWorkRequired (headersAt [0, 15, 30, 45, 60]) RETARGET_INTERVAL
        TARGET_TIMESPAN_SECONDS = some newBits ∧
      (targetOf newBits : ℚ) ≤ scaledBy periodEnd.nBits
        (elapsed periodStart periodEnd TARGET_TIMESPAN_SECONDS) TARGET_TIMESPAN_SECONDS := by
  have hpos : 0 < RETARGET_INTERVAL := by decide
  have hreg : ∀ tip, (headersAt [0, 15, 30, 45, 60]).getLast? = some tip → Regular tip.nBits := by
    intro tip htip
    obtain rfl := Option.some.inj htip
    exact regular_initialBits
  obtain ⟨periodStart, periodEnd, newBits, h, hnext, hiff, -⟩ :=
    @retarget_scales_iff _ TARGET_TIMESPAN_SECONDS hpos _ (by decide) (by decide) hreg
  obtain rfl := Option.some.inj h.first
  obtain rfl := Option.some.inj h.last
  refine ⟨_, _, newBits, h, hnext, (hiff.mpr ?_).1⟩
  have hscaled : scaledBy INITIAL_BITS 60 TARGET_TIMESPAN_SECONDS = 0x7fffff * 256 ^ 29 := by
    have hinitial : targetOf INITIAL_BITS = 0x7fffff * 256 ^ 29 := by decide +kernel
    rw [scaledBy, hinitial, TARGET_TIMESPAN_SECONDS]
    norm_num
  change ¬ Masked (scaledBy INITIAL_BITS 60 TARGET_TIMESPAN_SECONDS)
  have hlt : (0x7fffff * 256 ^ 29 : ℚ) < 2 ^ 24 * 256 ^ 29 := by norm_num
  rw [hscaled, masked_iff hlt ?_]
  · norm_num
  · intro j hj
    obtain rfl : j = 28 := by omega
    norm_num

/-! ## Blocks on schedule -/

/-- Blocks at equal distances: the time between two of them. -/
theorem nTime_of_spaced {headers : List CBlockHeader} {spacing : Nat}
    (h : headers.IsChain fun earlier later ↦ later.nTime.toNat = earlier.nTime.toNat + spacing)
    {i : Nat} {first : CBlockHeader} (hfirst : headers[i]? = some first) (steps : Nat)
    {last : CBlockHeader} (hlast : headers[i + steps]? = some last) :
    last.nTime.toNat = first.nTime.toNat + steps * spacing := by
  induction steps generalizing last with
  | zero =>
    rw [Nat.add_zero, hfirst, Option.some.injEq] at hlast
    rw [hlast, Nat.zero_mul, Nat.add_zero]
  | succ steps ih =>
    obtain ⟨hlt, heq⟩ := List.getElem?_eq_some_iff.mp hlast
    have hprev : i + steps < headers.length := by omega
    have hstep : headers[i + steps + 1].nTime.toNat = headers[i + steps].nTime.toNat + spacing :=
      List.isChain_iff_getElem.mp h (i + steps) hlt
    calc last.nTime.toNat
        = headers[i + steps].nTime.toNat + spacing := by rw [← heq]; exact hstep
      _ = first.nTime.toNat + (steps + 1) * spacing := by
        rw [ih (List.getElem?_eq_getElem hprev), Nat.succ_mul, Nat.add_assoc]

/-- A period on schedule spans one distance less than its target time. -/
theorem elapsed_lt_of_spaced {headers : List CBlockHeader} {interval timespan : Nat}
    (h2 : 2 ≤ interval) (hdvd : interval ∣ timespan) (htime : 0 < timespan)
    (hspaced : headers.IsChain fun earlier later ↦
      later.nTime.toNat = earlier.nTime.toNat + timespan / interval)
    {periodStart periodEnd : CBlockHeader} (h : Period headers interval periodStart periodEnd) :
    elapsed periodStart periodEnd timespan < timespan := by
  have hpos : 0 < headers.length := by
    obtain ⟨hlt, -⟩ := List.getElem?_eq_some_iff.mp h.first
    omega
  have hlen : interval ≤ headers.length := Nat.le_of_dvd hpos (Nat.dvd_of_mod_eq_zero h.full)
  have hlast : headers[headers.length - interval + (interval - 1)]? = some periodEnd := by
    rw [show headers.length - interval + (interval - 1) = headers.length - 1 by omega,
      ← List.getLast?_eq_getElem?]
    exact h.last
  have htimes := nTime_of_spaced hspaced h.first (interval - 1) hlast
  have hwhole : (interval - 1) * (timespan / interval) + timespan / interval = timespan := by
    rw [← Nat.succ_mul, Nat.succ_eq_add_one, Nat.sub_add_cancel (by omega),
      Nat.mul_div_cancel' hdvd]
  have hspacing : 0 < timespan / interval := Nat.div_pos (Nat.le_of_dvd htime hdvd) (by omega)
  unfold elapsed
  omega

/-- On schedule the difficulty of the last block is kept exactly between the retargets: a period
is measured one distance short. -/
theorem schedule_keeps_bits_iff {interval timespan : Nat} (h2 : 2 ≤ interval)
    (hdvd : interval ∣ timespan) {bits : UInt32} (hreg : Regular bits)
    {headers : List CBlockHeader} (hbits : ∀ header ∈ headers, header.nBits = bits)
    (hspaced : headers.IsChain fun earlier later ↦
      later.nTime.toNat = earlier.nTime.toNat + timespan / interval) :
    getNextWorkRequired headers interval timespan = some bits ↔
      headers.length % interval ≠ 0 := by
  constructor
  · intro hkeep hmod
    rcases eq_or_ne headers [] with rfl | hne
    · exact absurd hkeep (by simp [getNextWorkRequired])
    obtain ⟨periodStart, periodEnd, h⟩ := exists_period (by omega) hne hmod
    obtain rfl : periodEnd.nBits = bits := hbits periodEnd (List.mem_of_getLast? h.last)
    have hnext := h.getNextWorkRequired hreg.exponent_ge timespan
    rw [hkeep, Option.some.injEq] at hnext
    have h0 := scaledBy_nonneg periodEnd.nBits (elapsed_nonneg periodStart periodEnd timespan)
      timespan
    have hle := targetOf_encodeTarget_le h0 (scaledBy_lt hreg periodStart periodEnd timespan)
    rw [← hnext] at hle
    have hratio : (elapsed periodStart periodEnd timespan : ℚ) / timespan < 1 := by
      rcases Nat.eq_zero_or_pos timespan with rfl | htime
      · simp
      · rw [div_lt_one (Nat.cast_pos.mpr htime)]
        exact_mod_cast elapsed_lt_of_spaced h2 hdvd htime hspaced h
    have hpos : (0 : ℚ) < targetOf periodEnd.nBits := Nat.cast_pos.mpr hreg.targetOf_pos
    exact absurd hle (not_le.mpr (mul_lt_of_lt_one_right hpos hratio))
  · intro hmod
    have hne : headers ≠ [] := by
      rintro rfl
      exact hmod (Nat.zero_mod _)
    rw [getNextWorkRequired, List.getLast?_eq_some_getLast hne]
    simp only [hmod, ne_eq, not_false_eq_true, ↓reduceIte, hbits _ (List.getLast_mem hne)]

/-- Five blocks twelve seconds apart, as a minute for five blocks has it, lower the target. -/
theorem schedule_lowers_fiveHeaders :
    getNextWorkRequired (headersAt [0, 12, 24, 36, 48]) RETARGET_INTERVAL
      TARGET_TIMESPAN_SECONDS = some 0x20666665 ∧ INITIAL_BITS ≠ 0x20666665 := by
  decide +kernel

/-- Four blocks on schedule. -/
theorem schedule_keeps_bits_iff_fourHeaders :
    getNextWorkRequired (headersAt [0, 12, 24, 36]) RETARGET_INTERVAL
      TARGET_TIMESPAN_SECONDS = some INITIAL_BITS :=
  (schedule_keeps_bits_iff (by decide) (by decide) regular_initialBits (by decide)
    (by decide)).mpr (by decide)

end Siliqua.Ledger
