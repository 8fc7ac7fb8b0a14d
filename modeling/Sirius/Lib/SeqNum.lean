import Mathlib.Data.BitVec

/-! # Sequence numbers that wrap

    Numbers of `n + 1` bits compared by the sign of their difference.  In a window of `2 ^ n`
    numbers the comparisons are those of the offsets from the start of the window, wherever the
    window wraps, and a half-open range of numbers is an interval of offsets. -/

namespace Sirius.Lib

variable {n : ℕ} {w w' a b e x : BitVec (n + 1)}

def seqLt (a b : BitVec (n + 1)) : Bool := (a - b).toInt < 0

def seqLeq (a b : BitVec (n + 1)) : Bool := (a - b).toInt ≤ 0

def seqGt (a b : BitVec (n + 1)) : Bool := (a - b).toInt > 0

def seqGeq (a b : BitVec (n + 1)) : Bool := (a - b).toInt ≥ 0

/-- The offset of a number in the window that starts at `w`. -/
def off (w a : BitVec (n + 1)) : ℕ := (a - w).toNat

/-- The numbers from `b` up to `e`, `e` not among them. -/
def seqRange (b e : BitVec (n + 1)) : Set (BitVec (n + 1)) :=
  {x | (x - b).toNat < (e - b).toNat}

/-- **SIGN OF A DIFFERENCE**: in a window it is the difference of the offsets. -/
theorem toInt_sub_of_window (ha : off w a < 2 ^ n) (hb : off w b < 2 ^ n) :
    (a - b).toInt = off w a - off w b := by
  have toInt_off : ∀ c, off w c < 2 ^ n → (c - w).toInt = off w c := fun c hc =>
    BitVec.toInt_eq_toNat_of_lt (by rw [pow_succ']; exact Nat.mul_lt_mul_of_pos_left hc Nat.two_pos)
  rw [← sub_sub_sub_cancel_right _ _ w, BitVec.toInt_sub, toInt_off a ha, toInt_off b hb]
  apply Int.bmod_eq_of_le <;> omega

theorem off_lt_iff (ha : off w a < 2 ^ n) (hb : off w b < 2 ^ n) (ha' : off w' a < 2 ^ n)
    (hb' : off w' b < 2 ^ n) : off w a < off w b ↔ off w' a < off w' b := by
  have h := (toInt_sub_of_window ha hb).symm.trans (toInt_sub_of_window ha' hb')
  omega

/-- **RANGE AS INTERVAL**: `x` itself need not be in the window. -/
theorem mem_seqRange (hbe : off w b ≤ off w e) (he : off w e < 2 ^ n) :
    x ∈ seqRange b e ↔ off w b ≤ off w x ∧ off w x < off w e := by
  have hlen : (e - b).toNat = off w e - off w b := by
    rw [← sub_sub_sub_cancel_right _ _ w, BitVec.toNat_sub_of_le hbe]; rfl
  show (x - b).toNat < (e - b).toNat ↔ _
  rw [hlen, ← sub_sub_sub_cancel_right x b w]
  rcases Nat.lt_or_ge (off w x) (off w b) with hlt | hle
  · -- `x` lies before `b`: the difference wraps and is more than half of all numbers
    have hwrap : (x - w - (b - w)).toNat = 2 ^ (n + 1) - off w b + off w x :=
      (BitVec.toNat_sub ..).trans (Nat.mod_eq_of_lt (by unfold off at *; omega))
    rw [pow_succ'] at hwrap
    omega
  · rw [BitVec.toNat_sub_of_le hle]
    show off w x - off w b < _ ↔ _
    omega

end Sirius.Lib
