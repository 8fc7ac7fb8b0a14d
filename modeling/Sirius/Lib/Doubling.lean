import Mathlib.Algebra.BigOperators.Intervals
import Mathlib.Algebra.BigOperators.Ring.Finset
import Mathlib.Data.Nat.ModEq
import Mathlib.Tactic.Abel

/-! # Doublings — erasure coding with one generator

    A DOUBLING is an additive map on a group of characteristic two whose iterates of one
    element run through everything nonzero.  That is all an erasure code with parities
    `P = Σ dᵢ` and `Q = Σ 2^(n-1-i) dᵢ` needs: it uses only powers of the generator and
    discrete logarithms. -/

namespace Sirius.Lib

open Finset

/-- An additive map of finite period that generates every nonzero element. -/
structure Doubling (V : Type*) [AddCommGroup V] where
  dbl : V →+ V
  one : V
  period : ℕ
  period_pos : 0 < period
  cycle : dbl^[period] one = one
  log : V → ℕ
  gen : ∀ v, v ≠ 0 → dbl^[log v] one = v
  char_two : ∀ v : V, v + v = 0

namespace Doubling

variable {V : Type*} [AddCommGroup V] (D : Doubling V)

/-- Multiplication by the `k`-th power of the generator. -/
def pow (k : ℕ) (v : V) : V := D.dbl^[k] v

theorem pow_zero (v : V) : D.pow 0 v = v := rfl

theorem pow_succ (k : ℕ) (v : V) : D.pow (k + 1) v = D.dbl (D.pow k v) :=
  Function.iterate_succ_apply' _ _ _

theorem pow_add (m n : ℕ) (v : V) : D.pow (m + n) v = D.pow m (D.pow n v) :=
  Function.iterate_add_apply _ _ _ _

theorem pow_comm (m n : ℕ) (v : V) : D.pow m (D.pow n v) = D.pow n (D.pow m v) := by
  rw [← pow_add, ← pow_add, add_comm]

@[simp] theorem pow_map_zero (k : ℕ) : D.pow k 0 = 0 := by
  induction k with
  | zero => rfl
  | succ k ih => rw [pow_succ, ih, map_zero]

@[simp] theorem pow_map_add (k : ℕ) (v w : V) : D.pow k (v + w) = D.pow k v + D.pow k w := by
  induction k with
  | zero => rfl
  | succ k ih => rw [pow_succ, pow_succ, pow_succ, ih, map_add]

theorem pow_period (v : V) : D.pow D.period v = v := by
  by_cases hv : v = 0
  · rw [hv, pow_map_zero]
  · rw [← D.gen v hv]
    show D.pow D.period (D.pow (D.log v) D.one) = D.pow (D.log v) D.one
    rw [pow_comm]
    exact congrArg _ D.cycle

theorem pow_mul_period (m : ℕ) (v : V) : D.pow (D.period * m) v = v := by
  induction m with
  | zero => rfl
  | succ m ih => rw [Nat.mul_succ, pow_add, pow_period, ih]

theorem pow_mod (k : ℕ) (v : V) : D.pow (k % D.period) v = D.pow k v := by
  conv_rhs => rw [← Nat.div_add_mod k D.period, pow_add, pow_mul_period]

theorem pow_modEq {m n : ℕ} (h : m ≡ n [MOD D.period]) (v : V) : D.pow m v = D.pow n v := by
  rw [← pow_mod, h, pow_mod]

/-- **CLOSURE**: `2^k v + v` is `v` times the power that `2^k + 1` is. -/
theorem pow_add_self {k : ℕ} (hk : D.pow k D.one + D.one ≠ 0) (v : V) :
    D.pow k v + v = D.pow (D.log (D.pow k D.one + D.one)) v := by
  by_cases hv : v = 0
  · rw [hv, pow_map_zero, pow_map_zero, add_zero]
  obtain ⟨l, rfl⟩ : ∃ l, v = D.pow l D.one := ⟨D.log v, (D.gen v hv).symm⟩
  calc D.pow k (D.pow l D.one) + D.pow l D.one
      = D.pow l (D.pow k D.one + D.one) := by rw [pow_map_add, pow_comm]
    _ = D.pow l (D.pow (D.log (D.pow k D.one + D.one)) D.one) :=
        congrArg (D.pow l) (D.gen _ hk).symm
    _ = _ := D.pow_comm _ _ _

theorem pow_ext {m n : ℕ} (h : D.pow m D.one = D.pow n D.one) (v : V) : D.pow m v = D.pow n v := by
  by_cases hv : v = 0
  · rw [hv, pow_map_zero, pow_map_zero]
  · obtain ⟨l, rfl⟩ : ∃ l, v = D.pow l D.one := ⟨D.log v, (D.gen v hv).symm⟩
    rw [D.pow_comm m, h, D.pow_comm l]

theorem pow_eq_zero {n : ℕ} {v : V} (h : D.pow n v = 0) : v = 0 := by
  have hle : n ≤ D.period * n := Nat.le_mul_of_pos_left n D.period_pos
  calc v = D.pow (D.period * n) v := (D.pow_mul_period n v).symm
    _ = D.pow (D.period * n - n) (D.pow n v) := by rw [← pow_add, Nat.sub_add_cancel hle]
    _ = 0 := by rw [h, pow_map_zero]

theorem pow_log_pow (n : ℕ) : D.pow (D.log (D.pow n D.one)) D.one = D.pow n D.one := by
  by_cases h : D.pow n D.one = 0
  · rw [D.pow_eq_zero h, pow_map_zero, pow_map_zero]
  · exact D.gen _ h

theorem solve_one {e i : ℕ} (h : e + i ≡ 0 [MOD D.period]) (v : V) : D.pow e (D.pow i v) = v := by
  rw [← pow_add, D.pow_modEq h, pow_zero]

/-- Two unknowns `x` and `y` from `x + y` and `2^i x + 2^j y`.  With `2^e` the
    inverse of `2^i`, `2^k` the ratio `2^(j-i)` and `2^t` the inverse of
    `2^k + 1`, the multipliers are `2^(k+t)` and `2^(e+t)`. -/
theorem solve_two {i j k t e a b : ℕ} (hk : D.pow k D.one + D.one ≠ 0)
    (ht : t + D.log (D.pow k D.one + D.one) ≡ 0 [MOD D.period]) (hei : e + i ≡ 0 [MOD D.period])
    (hej : e + j ≡ k [MOD D.period]) (ha : D.pow a D.one = D.pow (k + t) D.one)
    (hb : D.pow b D.one = D.pow (e + t) D.one) (x y : V) :
    D.pow a (x + y) + D.pow b (D.pow i x + D.pow j y) = x := by
  have hx : D.pow (k + t) x + D.pow t x = x := by
    calc D.pow (k + t) x + D.pow t x
        = D.pow t (D.pow k x + x) := by
          rw [pow_map_add, ← pow_add, add_comm k t]
      _ = D.pow t (D.pow (D.log (D.pow k D.one + D.one)) x) := by
          rw [D.pow_add_self hk]
      _ = x := D.solve_one ht x
  have hbi : D.pow b (D.pow i x) = D.pow t x := by
    rw [D.pow_ext hb, ← pow_add, add_right_comm, pow_add, D.pow_modEq hei, pow_zero]
  have hbj : D.pow b (D.pow j y) = D.pow (k + t) y := by
    rw [D.pow_ext hb, ← pow_add, add_right_comm, add_comm _ t, pow_add,
      D.pow_modEq hej, ← pow_add, add_comm t k]
  have hy : D.pow (k + t) y + D.pow (k + t) y = 0 := D.char_two _
  rw [D.pow_ext ha, pow_map_add, pow_map_add, hbi, hbj]
  calc D.pow (k + t) x + D.pow (k + t) y + (D.pow t x + D.pow (k + t) y)
      = (D.pow (k + t) x + D.pow t x) + (D.pow (k + t) y + D.pow (k + t) y) := by abel
    _ = x := by rw [hx, hy, add_zero]

section Sums

variable (d : ℕ → V)

/-- The weighted parity over columns `lo ≤ c < hi`: the last column has weight
    `2^0`, as Horner's rule leaves it. -/
def weighted (lo hi : ℕ) : V := ∑ c ∈ Finset.Ico lo hi, D.pow (hi - 1 - c) (d c)

theorem weighted_congr {d d' : ℕ → V} {lo hi : ℕ}
    (h : ∀ c, lo ≤ c → c < hi → d c = d' c) : D.weighted d lo hi = D.weighted d' lo hi := by
  refine sum_congr rfl ?_
  intro c hc
  rw [mem_Ico] at hc
  rw [h c hc.1 hc.2]

theorem weighted_succ {lo hi : ℕ} (h : lo ≤ hi) :
    D.weighted d lo (hi + 1) = D.dbl (D.weighted d lo hi) + d hi := by
  unfold weighted
  rw [sum_Ico_succ_top h, Nat.add_sub_cancel, Nat.sub_self, map_sum]
  congr 1
  refine sum_congr rfl ?_
  intro c hc
  rw [mem_Ico] at hc
  rw [← pow_succ]
  congr 1
  omega

theorem sum_add_sum_hide (D : Doubling V) {s h : Finset ℕ} (hs : h ⊆ s) :
    (∑ c ∈ s, d c) + ∑ c ∈ s, (if c ∈ h then 0 else d c) = ∑ c ∈ h, d c := by
  have hhide : ∑ c ∈ s, (if c ∈ h then 0 else d c) = ∑ c ∈ s \ h, d c := by
    have hout : ∑ c ∈ s \ h, (if c ∈ h then 0 else d c) = ∑ c ∈ s \ h, d c :=
      sum_congr rfl (fun c hc => if_neg (mem_sdiff.mp hc).2)
    have hin : ∑ c ∈ h, (if c ∈ h then 0 else d c) = 0 := sum_eq_zero (fun c hc => if_pos hc)
    rw [← sum_sdiff hs, hout, hin, add_zero]
  rw [hhide, ← sum_sdiff hs, add_right_comm, D.char_two, zero_add]

theorem weighted_add_weighted_hide {lo hi : ℕ} {h : Finset ℕ} (hs : h ⊆ Finset.Ico lo hi) :
    D.weighted d lo hi + D.weighted (fun c => if c ∈ h then 0 else d c) lo hi
      = ∑ c ∈ h, D.pow (hi - 1 - c) (d c) := by
  rw [← D.sum_add_sum_hide (fun c => D.pow (hi - 1 - c) (d c)) hs]
  congr 1
  refine sum_congr rfl ?_
  intro c _
  rw [apply_ite (D.pow (hi - 1 - c)), pow_map_zero]

end Sums

end Doubling

end Sirius.Lib
