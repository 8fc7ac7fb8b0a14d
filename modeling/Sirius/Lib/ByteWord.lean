import Mathlib.Data.BitVec
import Mathlib.Tactic.IntervalCases
import Sirius.Lib.ForLoop

/-! # Byte buffers read and written a word at a time

    A buffer is a function from byte offsets to bytes.  `ldWord` and `stWord` are accesses
    through a `uint64_t *` on a big-endian machine, `forWords` rewrites one word after the
    other, and `forWords_bytewise` says when that may be read byte by byte. -/

namespace Sirius.Lib

open BitVec

abbrev Byte := BitVec 8

abbrev Buf := Nat → Byte

/-- Byte `j` of a word, the most significant one first. -/
def wordByte (w : BitVec 64) (j : Nat) : Byte := w.extractLsb' (8 * (7 - j)) 8

/-- `n` consecutive bytes from offset `lo` as one number. -/
def ldBytes (buf : Buf) (lo : Nat) : (n : Nat) → BitVec (8 * n)
  | 0 => 0#0
  | n + 1 => ldBytes buf lo n ++ buf (lo + n)

/-- `((uint64_t *)buf)[i]`. -/
def ldWord (buf : Buf) (i : Nat) : BitVec 64 := ldBytes buf (8 * i) 8

/-- `((uint64_t *)buf)[i] = w`. -/
def stWord (buf : Buf) (i : Nat) (w : BitVec 64) : Buf :=
  fun k => if k / 8 = i then wordByte w (k % 8) else buf k

theorem ldBytes_extract (buf : Buf) (lo : Nat) {n j : Nat} (hj : j < n) :
    (ldBytes buf lo n).extractLsb' (8 * (n - 1 - j)) 8 = buf (lo + j) := by
  induction n with
  | zero => exact absurd hj (Nat.not_lt_zero j)
  | succ n ih =>
    rw [ldBytes]
    apply eq_of_getLsbD_eq
    intro b hb
    rw [getLsbD_extractLsb', getLsbD_append, decide_eq_true hb, Bool.true_and]
    by_cases hjn : j = n
    · subst hjn
      rw [if_pos (by omega)]
      congr 1
      omega
    · have hlt : j < n := by omega
      rw [if_neg (by omega), ← ih hlt, getLsbD_extractLsb', decide_eq_true hb]
      congr 1
      omega

@[simp] theorem wordByte_ldWord (buf : Buf) (i : Nat) {j : Nat} (hj : j < 8) :
    wordByte (ldWord buf i) j = buf (8 * i + j) :=
  ldBytes_extract buf (8 * i) hj

theorem eq_of_bytes {n : Nat} {v w : BitVec (8 * n)}
    (h : ∀ j < n, v.extractLsb' (8 * (n - 1 - j)) 8 = w.extractLsb' (8 * (n - 1 - j)) 8) :
    v = w := by
  apply eq_of_getLsbD_eq
  intro p hp
  have hbit := congrArg (fun u => u.getLsbD (p % 8)) (h (n - 1 - p / 8) (by omega))
  simp only [getLsbD_extractLsb', decide_eq_true (Nat.mod_lt p (show 0 < 8 by omega))] at hbit
  rwa [show 8 * (n - 1 - (n - 1 - p / 8)) + p % 8 = p by omega] at hbit

theorem eq_of_wordByte {w w' : BitVec 64} (h : ∀ j < 8, wordByte w j = wordByte w' j) :
    w = w' := eq_of_bytes (n := 8) h

theorem wordByte_and (w w' : BitVec 64) (j : Nat) :
    wordByte (w &&& w') j = wordByte w j &&& wordByte w' j := extractLsb'_and

theorem wordByte_xor (w w' : BitVec 64) (j : Nat) :
    wordByte (w ^^^ w') j = wordByte w j ^^^ wordByte w' j := extractLsb'_xor

theorem wordByte_zero (j : Nat) : wordByte 0#64 j = 0#8 := extractLsb'_zero

/-- Apply a byte function to each byte of a word, through a byte pointer. -/
def mapWord (f : Byte → Byte) (w : BitVec 64) : BitVec 64 := ldWord (fun j => f (wordByte w j)) 0

theorem wordByte_mapWord (f : Byte → Byte) (w : BitVec 64) {j : Nat} (hj : j < 8) :
    wordByte (mapWord f w) j = f (wordByte w j) := by
  rw [mapWord, wordByte_ldWord _ _ hj, Nat.zero_add]

/-- The word whose byte `j` is `v` where bit `j` of `s` (from the top) is set. -/
def spread (v s : Byte) : BitVec 64 := ldWord (fun k => if s.getMsbD k then v else 0#8) 0

theorem wordByte_spread (v s : Byte) {j : Nat} (hj : j < 8) :
    wordByte (spread v s) j = if s.getMsbD j then v else 0#8 := by
  rw [spread, wordByte_ldWord _ _ hj, Nat.zero_add]

theorem exists_bits (f : Nat → Bool) : ∃ s : Byte, ∀ j < 8, s.getMsbD j = f j := by
  refine ⟨ofBoolListBE [f 0, f 1, f 2, f 3, f 4, f 5, f 6, f 7], ?_⟩
  intro j hj
  simp only [getMsbD_ofBoolListBE]
  interval_cases j <;> rfl

theorem spread_fill : ∀ s : Byte,
    (spread 0x80#8 s <<< 1) - (spread 0x80#8 s >>> 7) = spread 0xff#8 s := by
  decide +kernel

theorem wordByte_shiftLeft_mask (w : BitVec 64) {j : Nat} (hj : j < 8) :
    wordByte ((w <<< 1) &&& 0xfefefefefefefefe#64) j = wordByte w j <<< 1 := by
  have hconst : ∀ k < 8, wordByte 0xfefefefefefefefe#64 k = 0xfe#8 := by decide
  have hbit : ∀ b < 8, (0xfe#8).getLsbD b = decide (b ≠ 0) := by decide
  rw [wordByte_and, hconst j hj]
  apply eq_of_getLsbD_eq
  intro b hb
  rw [getLsbD_and, hbit b hb, wordByte, getLsbD_extractLsb',
    getLsbD_shiftLeft, getLsbD_shiftLeft, wordByte, getLsbD_extractLsb']
  rcases eq_zero_or_pos b with rfl | hpos
  · simp
  have h1 : ¬ (8 * (7 - j) + b < 1) := by omega
  have h2 : 8 * (7 - j) + b < 64 := by omega
  have h3 : b - 1 < 8 := by omega
  have h4 : ¬ b < 1 := by omega
  have h5 : b ≠ 0 := by omega
  simp only [h1, h2, h3, h4, h5, decide_true, decide_false, Bool.not_false, ne_eq,
    not_false_eq_true, Bool.and_true]
  rw [Nat.add_sub_assoc hpos]

/-- `for (i = lo; i < hi; i++) buf[i] = f(i, buf[i])` over 64-bit words. -/
def forWords (lo hi : Nat) (f : Nat → BitVec 64 → BitVec 64) (buf : Buf) : Buf :=
  forRange lo hi (fun i b => stWord b i (f i (ldWord b i))) buf

theorem forWords_bytewise {lo hi : Nat} {f : Nat → BitVec 64 → BitVec 64} {g : Nat → Byte → Byte}
    (hf : ∀ i w j, j < 8 → wordByte (f i w) j = g (8 * i + j) (wordByte w j)) (buf : Buf)
    (k : Nat) :
    forWords lo hi f buf k = if lo ≤ k / 8 ∧ k / 8 < hi then g k (buf k) else buf k := by
  rcases lt_or_ge hi lo with hlt | hle
  · rw [forWords, forRange_of_le (le_of_lt hlt), if_neg (by omega)]
  · -- words below the counter are done, the others untouched
    refine forRange_inv hle
      (fun i (b : Buf) => b k = if lo ≤ k / 8 ∧ k / 8 < i then g k (buf k) else buf k) ?_ ?_
    · rw [if_neg (by omega)]
    intro i b hlo hhi hinv
    have hk : 8 * (k / 8) + k % 8 = k := Nat.div_add_mod k 8
    have hmod : k % 8 < 8 := Nat.mod_lt k (by omega)
    by_cases hi : k / 8 = i
    · subst hi
      rw [if_neg (by omega)] at hinv
      rw [if_pos ⟨hlo, Nat.lt_succ_self _⟩]
      show (if k / 8 = k / 8 then _ else _) = _
      rw [if_pos rfl, hf _ _ _ hmod, wordByte_ldWord _ _ hmod, hk, hinv]
    · show (if k / 8 = i then _ else b k) = _
      rw [if_neg hi, hinv]
      congr 1
      exact propext ⟨fun h => ⟨h.1, by omega⟩, fun h => ⟨h.1, by omega⟩⟩

end Sirius.Lib
