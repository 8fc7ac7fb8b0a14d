import Mathlib.Data.Nat.Bitwise
import Mathlib.Tactic.Ring

/-! # Bit fields of a word

    A word put together with `|` from fields at fixed positions, and taken apart again: fields
    above and below a field contribute nothing to its decoding. -/

namespace Sirius.Lib

open Nat

variable {x low len low' len' : ℕ}

/-- The `len` bits of `x` from bit `low` on. -/
def bfDecode (x low len : ℕ) : ℕ := (x >>> low) % 2 ^ len

/-- The low `len` bits of `x`, moved to bit `low`. -/
def bfEncode (x low len : ℕ) : ℕ := (x % 2 ^ len) <<< low

theorem bfDecode_or (a b : ℕ) :
    bfDecode (a ||| b) low len = bfDecode a low len ||| bfDecode b low len := by
  rw [bfDecode, shiftRight_or_distrib, or_mod_two_pow]
  rfl

theorem bfEncode_lt : bfEncode x low len < 2 ^ (low + len) := by
  rw [bfEncode, shiftLeft_eq, pow_add, mul_comm]
  exact mul_lt_mul_of_pos_left (mod_lt _ (Nat.two_pow_pos _)) (Nat.two_pow_pos _)

/-- **ROUND TRIP** of one field. -/
theorem bfDecode_bfEncode (h : x < 2 ^ len) : bfDecode (bfEncode x low len) low len = x := by
  rw [bfDecode, bfEncode, shiftLeft_shiftRight, mod_eq_of_lt h, mod_eq_of_lt h]

theorem bfDecode_bfEncode_above (h : low' + len' ≤ low) :
    bfDecode (bfEncode x low' len') low len = 0 := by
  have hlt : bfEncode x low' len' < 2 ^ low :=
    bfEncode_lt.trans_le (Nat.pow_le_pow_right (by decide) h)
  rw [bfDecode, shiftRight_eq_div_pow, div_eq_of_lt hlt, zero_mod]

theorem bfDecode_bfEncode_below (h : low + len ≤ low') :
    bfDecode (bfEncode x low' len') low len = 0 := by
  obtain ⟨k, rfl⟩ := Nat.exists_eq_add_of_le h
  have hsplit : (x % 2 ^ len') <<< (low + len + k)
      = ((x % 2 ^ len') * 2 ^ k * 2 ^ len) <<< low := by
    rw [shiftLeft_eq, shiftLeft_eq]
    ring
  rw [bfDecode, bfEncode, hsplit, shiftLeft_shiftRight, mul_mod_left]

end Sirius.Lib
