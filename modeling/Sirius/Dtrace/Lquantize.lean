import Mathlib.Data.Int.Basic
import Mathlib.Tactic.Linarith

/-! # The linear quantization, from `dtrace.c`

    `lquantize()` counts values in buckets of equal width, with one below and one above.  The
    value has 64 bits, but its bucket is computed from the low 32 and a 32-bit difference.
    Both are exact if the value fits 32 bits and lies less than `2 ^ 31` above the base;
    otherwise the subscript is right by accident at most, and up to `2 ^ 31` words below the
    record. -/

namespace Sirius.Dtrace

open BitVec

/-- `DTRACE_LQUANTIZE_STEP`, `DTRACE_LQUANTIZE_LEVELS` and `DTRACE_LQUANTIZE_BASE`. -/
def lquantizeStep (arg : BitVec 64) : BitVec 16 := ((arg &&& 0xFFFF#64 <<< 48) >>> 48).setWidth 16
def lquantizeLevels (arg : BitVec 64) : BitVec 16 := ((arg &&& 0xFFFF#64 <<< 32) >>> 32).setWidth 16
def lquantizeBase (arg : BitVec 64) : BitVec 32 := (arg &&& 0xFFFFFFFF#64).setWidth 32

/-- `lquanta[cell] = word`. -/
structure Store where
  cell : ℤ
  word : BitVec 64
  deriving DecidableEq

/-- `dtrace_aggregate_lquantize`: the store it makes, or `none` for a failed `ASSERT`.  `lquanta`
    has moved past the encoded argument, which is its word `-1`. -/
def dtraceAggregateLquantize (lquanta : ℤ → BitVec 64) (nval incr : BitVec 64) : Option Store :=
  let arg := lquanta (-1)
  let base := lquantizeBase arg
  let step := lquantizeStep arg
  let levels := lquantizeLevels arg
  let val : BitVec 32 := nval.setWidth 32
  if step = 0 ∨ levels = 0 then none
  else if val.toInt < base.toInt then some ⟨0, lquanta 0 + incr⟩
  else
    -- a difference of `int32_t`, and a quotient that is truncated towards zero
    let level := (val - base).toInt.tdiv step.toNat
    if level < levels.toNat then some ⟨level + 1, lquanta (level + 1) + incr⟩
    else some ⟨levels.toNat + 1, lquanta (levels.toNat + 1) + incr⟩

/-! ## The bucket of a value -/

def bucket (base : ℤ) (step levels : ℕ) (value : ℤ) : ℤ :=
  if value < base then 0
  else if value < base + step * levels then 1 + (value - base) / step
  else levels + 1

section

variable {base v lo : ℤ} {step levels : ℕ}

theorem bucket_range (hs : 0 < step) : 0 ≤ bucket base step levels v ∧
    bucket base step levels v ≤ levels + 1 := by
  rw [bucket]
  split_ifs with hlow hmid
  · omega
  · have hnonneg : 0 ≤ (v - base) / (step : ℤ) := Int.ediv_nonneg (by omega) (by omega)
    have hlt : (v - base) / (step : ℤ) < levels := by
      refine Int.ediv_lt_of_lt_mul (by omega) ?_
      rw [mul_comm]
      omega
    omega
  · omega

theorem bucket_eq_iff (hs : 0 < step) (hs' : step < 2 ^ 16) (hmod : ∃ q, v = lo + 2 ^ 32 * q) :
    bucket base step levels v = bucket base step levels lo ↔ v = lo ∨ v < base ∧ lo < base ∨
      base + step * levels ≤ v ∧ base + step * levels ≤ lo := by
  obtain ⟨q, hq⟩ := hmod
  have hlt (x : ℤ) (hx : x < base + step * levels) : (x - base) / (step : ℤ) < levels := by
    refine Int.ediv_lt_of_lt_mul (by omega) ?_
    rw [mul_comm]
    omega
  have hnonneg (x : ℤ) (hx : ¬ x < base) : 0 ≤ (x - base) / (step : ℤ) :=
    Int.ediv_nonneg (by omega) (by omega)
  have htop : (0 : ℤ) ≤ step * levels := by positivity
  -- a quotient shared by two values leaves less than a step between them
  have hinner (h : (v - base) / (step : ℤ) = (lo - base) / (step : ℤ)) : v = lo := by
    have h1 := Int.mul_ediv_add_emod (v - base) step
    have h2 := Int.mul_ediv_add_emod (lo - base) step
    have h3 := Int.emod_lt_of_pos (v - base) (by omega : (0 : ℤ) < step)
    have h4 := Int.emod_lt_of_pos (lo - base) (by omega : (0 : ℤ) < step)
    have h5 := Int.emod_nonneg (v - base) (by omega : (step : ℤ) ≠ 0)
    have h6 := Int.emod_nonneg (lo - base) (by omega : (step : ℤ) ≠ 0)
    rw [h] at h1
    omega
  have hv := hlt v
  have hl := hlt lo
  have hv' := hnonneg v
  have hl' := hnonneg lo
  constructor
  · intro h
    rw [bucket, bucket] at h
    split_ifs at h <;> omega
  · rintro (rfl | h | h)
    · rfl
    · rw [bucket, bucket, if_pos h.1, if_pos h.2]
    · rw [bucket, bucket, if_neg (by omega), if_neg (by omega), if_neg (by omega),
        if_neg (by omega)]

end

/-! ## The bucket the code counts in -/

section

variable (lquanta : ℤ → BitVec 64) (nval incr : BitVec 64)

def low32 : ℤ := (nval.setWidth 32).toInt

/-- One call is right: `incr` is added to the bucket of the value, as a 64-bit number. -/
def CountsRight : Prop :=
  ∃ cell, cell = bucket (lquantizeBase (lquanta (-1))).toInt (lquantizeStep (lquanta (-1))).toNat
      (lquantizeLevels (lquanta (-1))).toNat nval.toInt ∧
    0 ≤ cell ∧ cell ≤ (lquantizeLevels (lquanta (-1))).toNat + 1 ∧
    dtraceAggregateLquantize lquanta nval incr = some ⟨cell, lquanta cell + incr⟩

/-- When 32 bits are enough.  In the last case the difference has wrapped, and truncation takes it
    to level `-1`, which stands for the bucket below. -/
def LowBitsSuffice (base : ℤ) (step levels : ℕ) : Prop :=
  (low32 nval < base ∧ nval.toInt < base) ∨
  (base ≤ low32 nval ∧ low32 nval - base < 2 ^ 31 ∧ (nval.toInt = low32 nval ∨
    base + step * levels ≤ low32 nval ∧ base + step * levels ≤ nval.toInt)) ∨
  (2 ^ 31 ≤ low32 nval - base ∧ nval.toInt < base ∧
    step ≤ base + 2 ^ 32 - low32 nval ∧ base + 2 ^ 32 - low32 nval < 2 * step)

theorem toInt_eq_low32 : ∃ q, nval.toInt = low32 nval + 2 ^ 32 * q := by
  refine ⟨(nval.toInt - low32 nval) / 2 ^ 32, ?_⟩
  have hlow : low32 nval = nval.toInt.bmod (2 ^ 32) := by
    rw [low32, toInt_setWidth, toInt_eq_toNat_bmod, Int.bmod_bmod_of_dvd ⟨2 ^ 32, by norm_num⟩]
  have hdvd : (2 ^ 32 : ℤ) ∣ nval.toInt - low32 nval := by
    rw [hlow]
    exact Int.dvd_self_sub_bmod
  rw [Int.mul_ediv_cancel' hdvd]
  omega

theorem low32_range : -2 ^ 31 ≤ low32 nval ∧ low32 nval < 2 ^ 31 :=
  ⟨le_toInt (nval.setWidth 32), toInt_lt⟩

theorem level_eq {x y : BitVec 32} {step : ℕ} (h : y.toInt ≤ x.toInt) :
    (x - y).toInt.tdiv step = if x.toInt - y.toInt < 2 ^ 31 then (x.toInt - y.toInt) / step
      else -((y.toInt + 2 ^ 32 - x.toInt) / step) := by
  have hx : x.toInt < 2 ^ 31 := toInt_lt
  have hy : -2 ^ 31 ≤ y.toInt := le_toInt y
  rw [toInt_sub]
  split_ifs with hlt
  · rw [Int.bmod_eq_of_le (by omega) (by omega), Int.tdiv_eq_ediv_of_nonneg (by omega)]
  · have hwrap : (x.toInt - y.toInt).bmod (2 ^ 32) = -(y.toInt + 2 ^ 32 - x.toInt) := by
      rw [← Int.sub_bmod_right]
      exact (Int.bmod_eq_of_le (by omega) (by omega)).trans (by omega)
    rw [hwrap, Int.neg_tdiv, Int.tdiv_eq_ediv_of_nonneg (by omega)]

theorem dtraceAggregateLquantize_eq (hs : lquantizeStep (lquanta (-1)) ≠ 0)
    (hl : lquantizeLevels (lquanta (-1)) ≠ 0) :
    ∃ cell, dtraceAggregateLquantize lquanta nval incr = some ⟨cell, lquanta cell + incr⟩ ∧
      cell = if low32 nval - (lquantizeBase (lquanta (-1))).toInt < 2 ^ 31 then
          bucket (lquantizeBase (lquanta (-1))).toInt (lquantizeStep (lquanta (-1))).toNat
            (lquantizeLevels (lquanta (-1))).toNat (low32 nval)
        else 1 - ((lquantizeBase (lquanta (-1))).toInt + 2 ^ 32 - low32 nval)
          / (lquantizeStep (lquanta (-1))).toNat := by
  rw [dtraceAggregateLquantize]
  generalize lquantizeBase (lquanta (-1)) = base, lquantizeStep (lquanta (-1)) = step,
    lquantizeLevels (lquanta (-1)) = levels at *
  have hstep : (0 : ℤ) < step.toNat := by
    have : step.toNat ≠ 0 := fun h => hs (eq_of_toNat_eq h)
    omega
  have hlevels : levels.toNat ≠ 0 := fun h => hl (eq_of_toNat_eq h)
  have hmul := Int.ediv_lt_iff_lt_mul (a := low32 nval - base.toInt) (b := levels.toNat) hstep
  rw [mul_comm] at hmul
  rw [if_neg (not_or.mpr ⟨hs, hl⟩), bucket]
  show ∃ cell, (if low32 nval < base.toInt then _ else _) = _ ∧ _
  by_cases hlow : low32 nval < base.toInt
  · exact ⟨0, if_pos hlow, by rw [if_pos (by omega), if_pos hlow]⟩
  have hlevel : (nval.setWidth 32 - base).toInt.tdiv step.toNat = _ := level_eq (not_lt.mp hlow)
  change _ = if low32 nval - base.toInt < 2 ^ 31 then (low32 nval - base.toInt) / (step.toNat : ℤ)
    else -((base.toInt + 2 ^ 32 - low32 nval) / (step.toNat : ℤ)) at hlevel
  rw [if_neg hlow, if_neg hlow]
  dsimp only
  rw [hlevel]
  by_cases hwrap : low32 nval - base.toInt < 2 ^ 31
  · rw [if_pos hwrap, if_pos hwrap]
    split_ifs with hmid htop htop
    · exact ⟨_, rfl, by omega⟩
    · omega
    · omega
    · exact ⟨_, rfl, rfl⟩
  · have hpos : 0 ≤ (base.toInt + 2 ^ 32 - low32 nval) / (step.toNat : ℤ) := by
      have := low32_range nval
      have := le_toInt base
      exact Int.ediv_nonneg (by omega) hstep.le
    rw [if_neg hwrap, if_neg hwrap, if_pos (by omega)]
    exact ⟨_, rfl, by omega⟩

/-- **HEADLINE**: `lquantize()` counts a value in its bucket exactly if 32 bits are enough. -/
theorem lquantize_counts_right_iff (hs : lquantizeStep (lquanta (-1)) ≠ 0)
    (hl : lquantizeLevels (lquanta (-1)) ≠ 0) :
    CountsRight lquanta nval incr ↔ LowBitsSuffice nval (lquantizeBase (lquanta (-1))).toInt
      (lquantizeStep (lquanta (-1))).toNat (lquantizeLevels (lquanta (-1))).toNat := by
  obtain ⟨cell, hstore, hcell⟩ := dtraceAggregateLquantize_eq lquanta nval incr hs hl
  rw [CountsRight, hstore]
  have hbase : -2 ^ 31 ≤ (lquantizeBase (lquanta (-1))).toInt := le_toInt _
  generalize (lquantizeBase (lquanta (-1))).toInt = base at *
  have hs' := (lquantizeStep (lquanta (-1))).isLt
  have hstep : 0 < (lquantizeStep (lquanta (-1))).toNat :=
    Nat.pos_of_ne_zero fun h => hs (eq_of_toNat_eq h)
  have hlevels : 0 < (lquantizeLevels (lquanta (-1))).toNat :=
    Nat.pos_of_ne_zero fun h => hl (eq_of_toNat_eq h)
  generalize (lquantizeStep (lquanta (-1))).toNat = step,
    (lquantizeLevels (lquanta (-1))).toNat = levels at *
  have hiff : (∃ k, k = bucket base step levels nval.toInt ∧ 0 ≤ k ∧ k ≤ levels + 1 ∧
      some (Store.mk cell (lquanta cell + incr)) = some ⟨k, lquanta k + incr⟩) ↔
      bucket base step levels nval.toInt = cell := by
    constructor
    · rintro ⟨k, rfl, -, -, hk⟩
      exact (congrArg Store.cell (Option.some.inj hk)).symm
    · rintro rfl
      exact ⟨_, rfl, (bucket_range hstep).1, (bucket_range hstep).2, rfl⟩
  rw [hiff, hcell, LowBitsSuffice]
  obtain ⟨q, hq⟩ := toInt_eq_low32 nval
  have hrange := low32_range nval
  have htop : (0 : ℤ) < step * levels := by positivity
  split_ifs with hwrap
  · rw [bucket_eq_iff hstep hs' ⟨q, hq⟩]
    omega
  · have hs0 : (0 : ℤ) < step := by omega
    have hone := Int.le_ediv_iff_mul_le (a := 1) (b := base + 2 ^ 32 - low32 nval) hs0
    have htwo := Int.ediv_lt_iff_lt_mul (a := base + 2 ^ 32 - low32 nval) (b := 2) hs0
    have hpos : 0 ≤ (base + 2 ^ 32 - low32 nval) / (step : ℤ) := Int.ediv_nonneg (by omega) hs0.le
    rw [bucket]
    split_ifs with hlow hmid
    · omega
    · -- a value above the base is at least `2 ^ 31` above it, past the first bucket
      have hfar := Int.le_ediv_iff_mul_le (a := 1) (b := nval.toInt - base) hs0
      omega
    · omega

end

/-- Ten buckets of width ten from zero. -/
theorem lquantize_counts_37 : CountsRight (fun _ => 0x000A000A00000000#64) 37 1 := by
  refine (lquantize_counts_right_iff _ 37 1 (by decide) (by decide)).mpr (.inr (.inl ?_))
  exact ⟨by decide, by decide, .inl (by decide)⟩

/-- One bucket of width one from `-2 ^ 31`: zero is `2 ^ 31` above the base, and is counted that
    many words before the record. -/
theorem lquantize_before_record :
    lquantizeStep 0x0001000180000000#64 ≠ 0 ∧ lquantizeLevels 0x0001000180000000#64 ≠ 0 ∧
    dtraceAggregateLquantize (fun _ => 0x0001000180000000#64) 0 1
      = some ⟨-2147483647, 0x0001000180000001#64⟩ ∧
    ¬ CountsRight (fun _ => 0x0001000180000000#64) 0 1 := by
  have hstore : dtraceAggregateLquantize (fun _ => 0x0001000180000000#64) 0 1
      = some ⟨-2147483647, 0x0001000180000001#64⟩ := by decide
  refine ⟨by decide, by decide, hstore, ?_⟩
  rintro ⟨cell, -, hnonneg, -, hcell⟩
  have : -2147483647 = cell := congrArg Store.cell (Option.some.inj (hstore.symm.trans hcell))
  omega

end Sirius.Dtrace
