import Mathlib.Algebra.BigOperators.Group.List.Basic
import Mathlib.Tactic.Ring

/-! # The standard deviation aggregation, from `dtrace.c`

    `stddev()` keeps a count, a sum and the sum of the squares.  The squares outgrow 64 bits
    and are added as two words: a product from four 32-bit partial products, and a sum whose
    carry is seen by comparing the low word with its addends. -/

namespace Sirius.Dtrace

open BitVec

structure U128 where
  lo : BitVec 64
  hi : BitVec 64
  deriving DecidableEq

def U128.val (a : U128) : ℕ := a.lo.toNat + 2 ^ 64 * a.hi.toNat

def dtMaskLo : BitVec 64 := 0xFFFFFFFF

def dtraceAdd128 (addend1 addend2 : U128) : U128 :=
  let lo := addend1.lo + addend2.lo
  ⟨lo, addend1.hi + addend2.hi + if lo < addend1.lo ∨ lo < addend2.lo then 1#64 else 0#64⟩

/-- `dtrace_shift_128`: to the left by a positive amount, to the right by a negative one. -/
def dtraceShift128 (a : U128) (b : ℤ) : U128 :=
  if b = 0 then a
  else if b < 0 then
    let b := b.natAbs
    if 64 ≤ b then ⟨a.hi >>> (b - 64), 0⟩
    else
      let mask := 1#64 <<< (64 - b) - 1
      ⟨a.lo >>> b ||| (a.hi &&& mask) <<< (64 - b), a.hi >>> b⟩
  else
    let b := b.natAbs
    if 64 ≤ b then ⟨0, a.lo <<< (b - 64)⟩
    else ⟨a.lo <<< b, a.hi <<< b ||| a.lo >>> (64 - b)⟩

def dtraceMultiply128 (factor1 factor2 : BitVec 64) : U128 :=
  let hi1 := factor1 >>> 32
  let hi2 := factor2 >>> 32
  let lo1 := factor1 &&& dtMaskLo
  let lo2 := factor2 &&& dtMaskLo
  let product : U128 := ⟨lo1 * lo2, hi1 * hi2⟩
  let product := dtraceAdd128 product (dtraceShift128 ⟨hi1 * lo2, 0⟩ 32)
  dtraceAdd128 product (dtraceShift128 ⟨hi2 * lo1, 0⟩ 32)

/-- The four words of a `stddev()` value. -/
structure Stddev where
  count : BitVec 64 := 0
  sum : BitVec 64 := 0
  squares : U128 := ⟨0, 0⟩
  deriving DecidableEq

/-- `dtrace_aggregate_stddev`.  The most negative value is its own negation. -/
def dtraceAggregateStddev (data : Stddev) (nval : BitVec 64) : Stddev :=
  let snval := if nval.toInt < 0 then -nval else nval
  { count := data.count + 1
    sum := data.sum + nval
    squares := dtraceAdd128 data.squares (dtraceMultiply128 snval snval) }

/-! ## What the two words hold -/

theorem dtraceAdd128_val (a b : U128) : (dtraceAdd128 a b).val = (a.val + b.val) % 2 ^ 128 := by
  simp only [dtraceAdd128, U128.val, lt_def, toNat_add]
  split_ifs <;> simp only [toNat_ofNat] <;> omega

theorem dtraceShift128_word (x : BitVec 64) :
    (dtraceShift128 ⟨x, 0⟩ 32).val = x.toNat * 2 ^ 32 := by
  have hlo : (x <<< 32).toNat = x.toNat * 2 ^ 32 % 2 ^ 64 := by
    rw [toNat_shiftLeft, Nat.shiftLeft_eq]
  have hhi : (0#64 <<< 32 ||| x >>> 32).toNat = x.toNat / 2 ^ 32 := by
    rw [zero_shiftLeft, zero_or, toNat_ushiftRight, Nat.shiftRight_eq_div_pow]
  show (x <<< 32).toNat + 2 ^ 64 * (0#64 <<< 32 ||| x >>> 32).toNat = _
  rw [hlo, hhi]
  omega

theorem half_mul_toNat {x y : BitVec 64} (hx : x.toNat < 2 ^ 32) (hy : y.toNat < 2 ^ 32) :
    (x * y).toNat = x.toNat * y.toNat := by
  rw [toNat_mul, Nat.mod_eq_of_lt]
  calc x.toNat * y.toNat < 2 ^ 32 * 2 ^ 32 := Nat.mul_lt_mul'' hx hy
    _ = 2 ^ 64 := by norm_num

theorem dtraceMultiply128_val (x y : BitVec 64) :
    (dtraceMultiply128 x y).val = x.toNat * y.toNat := by
  have hhi (z : BitVec 64) : (z >>> 32).toNat = z.toNat / 2 ^ 32 := by
    rw [toNat_ushiftRight, Nat.shiftRight_eq_div_pow]
  have hlo (z : BitVec 64) : (z &&& dtMaskLo).toNat = z.toNat % 2 ^ 32 := by
    rw [toNat_and]
    exact Nat.and_two_pow_sub_one_eq_mod z.toNat 32
  have hhi_lt (z : BitVec 64) : (z >>> 32).toNat < 2 ^ 32 := by
    rw [hhi]
    omega
  have hlo_lt (z : BitVec 64) : (z &&& dtMaskLo).toNat < 2 ^ 32 := by
    rw [hlo]
    exact Nat.mod_lt _ (by norm_num)
  have hsplit (z : BitVec 64) : z.toNat = (z >>> 32).toNat * 2 ^ 32 + (z &&& dtMaskLo).toNat := by
    rw [hhi, hlo, Nat.div_add_mod']
  have hlt : x.toNat * y.toNat < 2 ^ 64 * 2 ^ 64 := Nat.mul_lt_mul'' x.isLt y.isLt
  have hexp : x.toNat * y.toNat = (x &&& dtMaskLo).toNat * (y &&& dtMaskLo).toNat
      + 2 ^ 64 * ((x >>> 32).toNat * (y >>> 32).toNat)
      + (x >>> 32).toNat * (y &&& dtMaskLo).toNat * 2 ^ 32
      + (y >>> 32).toNat * (x &&& dtMaskLo).toNat * 2 ^ 32 := by
    rw [hsplit x, hsplit y]
    ring
  simp only [dtraceMultiply128, dtraceAdd128_val, dtraceShift128_word]
  simp only [U128.val, half_mul_toNat (hlo_lt x) (hlo_lt y), half_mul_toNat (hhi_lt x) (hhi_lt y),
    half_mul_toNat (hhi_lt x) (hlo_lt y), half_mul_toNat (hhi_lt y) (hlo_lt x)]
  omega

theorem dtraceAggregateStddev_adds (d : Stddev) (v : BitVec 64) :
    (dtraceAggregateStddev d v).count.toNat = (d.count.toNat + 1) % 2 ^ 64 ∧
      (dtraceAggregateStddev d v).sum.toNat = (d.sum.toNat + v.toNat) % 2 ^ 64 ∧
      (dtraceAggregateStddev d v).squares.val = (d.squares.val + v.toInt.natAbs ^ 2) % 2 ^ 128 := by
  -- negation wraps on the most negative value alone, to the magnitude it should have
  have habs : (if v.toInt < 0 then -v else v).toNat = v.toInt.natAbs := by
    rw [toInt_eq_toNat_cond, apply_ite BitVec.toNat, toNat_neg]
    split_ifs <;> omega
  refine ⟨toNat_add _ _, toNat_add _ _, ?_⟩
  rw [dtraceAggregateStddev, dtraceAdd128_val, dtraceMultiply128_val, habs, sq]

theorem stddev_run (vs : List (BitVec 64)) (d : Stddev) :
    (vs.foldl dtraceAggregateStddev d).count.toNat = (d.count.toNat + vs.length) % 2 ^ 64 ∧
      (vs.foldl dtraceAggregateStddev d).sum.toNat =
        (d.sum.toNat + (vs.map BitVec.toNat).sum) % 2 ^ 64 ∧
      (vs.foldl dtraceAggregateStddev d).squares.val =
        (d.squares.val + (vs.map fun v => v.toInt.natAbs ^ 2).sum) % 2 ^ 128 := by
  induction vs generalizing d with
  | nil =>
    simp only [List.foldl_nil, List.map_nil, List.sum_nil, List.length_nil, U128.val]
    omega
  | cons v vs ih =>
    obtain ⟨hcount, hsum, hsquares⟩ := dtraceAggregateStddev_adds d v
    obtain ⟨ihc, ihs, ihq⟩ := ih (dtraceAggregateStddev d v)
    rw [hcount] at ihc
    rw [hsum] at ihs
    rw [hsquares] at ihq
    simp only [List.foldl_cons, List.map_cons, List.sum_cons, List.length_cons]
    omega

/-- **HEADLINE**: `stddev()` accumulates exactly.  After any values the words hold their
    number, their sum modulo `2 ^ 64` and the sum of their squares modulo `2 ^ 128`, and the
    product of any two operands is the full one. -/
theorem stddev_accumulates_exactly :
    (∀ vs : List (BitVec 64), (vs.foldl dtraceAggregateStddev {}).count.toNat = vs.length % 2 ^ 64 ∧
      (vs.foldl dtraceAggregateStddev {}).sum.toNat = (vs.map BitVec.toNat).sum % 2 ^ 64 ∧
      (vs.foldl dtraceAggregateStddev {}).squares.val =
        (vs.map fun v => v.toInt.natAbs ^ 2).sum % 2 ^ 128) ∧
    ∀ x y, (dtraceMultiply128 x y).val = x.toNat * y.toNat := by
  refine ⟨fun vs => ?_, dtraceMultiply128_val⟩
  simpa [U128.val] using stddev_run vs {}

end Sirius.Dtrace
