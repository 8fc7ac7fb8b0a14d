import Mathlib.Order.CompletePartialOrder
import Mathlib.Algebra.BigOperators.Intervals
import Mathlib.Tactic.Ring
import Mathlib.Tactic.Linarith

/-! # The RAID-Z column map — where a logical block lands on the children

    `vdev_raidz_map_alloc` scatters a linear range of the top-level vdev over the children:
    parity first, then data, with a rotating start column, a row carry, big and small columns
    and (for single parity) a swap of the first two columns on every odd megabyte.
    `vdev_raidz_asize` is a second formula, which the allocator uses for the same range.

    Non-overlap comes from one number: sector `s` of child `d` has the LINEAR INDEX
    `s * dcols + d`.  Column `c`, row `k` of an I/O that starts at unit `b` has
    `b + c + k * dcols`, so a whole map occupies a contiguous run of linear indices that the
    allocator's range contains. -/

namespace Sirius.Raidz

open Nat

/-- Where a column's `rc_data` points: a parity buffer of its own, or a byte
    offset into the caller's `io_data`. -/
inductive RcData where
  | zioBuf (size : Nat)
  | ioData (off : Nat)
  deriving DecidableEq

/-- `raidz_col_t`. -/
structure RaidzCol where
  rcDevidx : Nat
  rcOffset : Nat
  rcSize : Nat
  rcData : RcData
  rcError : Nat
  rcTried : Bool
  rcSkipped : Bool
  deriving DecidableEq

/-- `raidz_map_t`; `rm_col` is the flexible array, read below `rm_cols`. -/
structure RaidzMap where
  rmCols : Nat
  rmBigcols : Nat
  rmAsize : Nat
  rmMissingdata : Nat
  rmMissingparity : Nat
  rmFirstdatacol : Nat
  rmCol : Nat → RaidzCol

/-- The fields of `zio_t` that the column map reads. -/
structure Zio where
  ioOffset : Nat
  ioSize : Nat
  deriving DecidableEq

/-- The `roundup` macro of `sysmacros.h`. -/
def roundup (x y : Nat) : Nat := (x + (y - 1)) / y * y

/-- Size of column `c`: `(q + (c < bc)) << unit_shift`. -/
def colSize (q bc unitShift c : Nat) : Nat := (q + if c < bc then 1 else 0) <<< unitShift

/-- The pointer walk `rc_data[c] = rc_data[c - 1] + rc_size[c - 1]`, as the
    offset into `io_data` of data column `nparity + i`. -/
def dataOff (size : Nat → Nat) (nparity : Nat) : Nat → Nat
  | 0 => 0
  | i + 1 => dataOff size nparity i + size (nparity + i)

/-- Column `c` before the single-parity swap. -/
def colAlloc (b q bc unitShift dcols nparity c : Nat) : RaidzCol :=
  let f := b % dcols
  let o := (b / dcols) <<< unitShift
  let col := f + c
  { rcDevidx := if dcols ≤ col then col - dcols else col
    rcOffset := if dcols ≤ col then o + 1 <<< unitShift else o
    rcSize := colSize q bc unitShift c
    rcData := if c < nparity then .zioBuf (colSize q bc unitShift c)
      else .ioData (dataOff (colSize q bc unitShift) nparity (c - nparity))
    rcError := 0
    rcTried := false
    rcSkipped := false }

def swapFirst (col : Nat → RaidzCol) : Nat → RaidzCol
  | 0 => { col 0 with rcDevidx := (col 1).rcDevidx, rcOffset := (col 1).rcOffset }
  | 1 => { col 1 with rcDevidx := (col 0).rcDevidx, rcOffset := (col 0).rcOffset }
  | c + 2 => col (c + 2)

/-- Full rows of a stripe of `s` units. -/
def mapQ (s dcols nparity : Nat) : Nat := s / (dcols - nparity)

def mapR (s dcols nparity : Nat) : Nat := s - mapQ s dcols nparity * (dcols - nparity)

def mapBc (s dcols nparity : Nat) : Nat :=
  if mapR s dcols nparity = 0 then 0 else mapR s dcols nparity + nparity

def mapAcols (s dcols nparity : Nat) : Nat :=
  if mapQ s dcols nparity = 0 then mapBc s dcols nparity else dcols

def ioCols (zio : Zio) (unitShift dcols nparity : Nat) : Nat → RaidzCol :=
  let b := zio.ioOffset >>> unitShift
  let s := zio.ioSize >>> unitShift
  colAlloc b (mapQ s dcols nparity) (mapBc s dcols nparity) unitShift dcols nparity

def vdevRaidzMapAlloc (zio : Zio) (unitShift dcols nparity : Nat) : RaidzMap :=
  let s := zio.ioSize >>> unitShift
  let bc := mapBc s dcols nparity
  let acols := mapAcols s dcols nparity
  let col := ioCols zio unitShift dcols nparity
  let asize := (List.range acols).foldl (fun a c => a + (col c).rcSize) 0
  { rmCols := acols
    rmBigcols := bc
    rmAsize := roundup asize ((nparity + 1) <<< unitShift)
    rmMissingdata := 0
    rmMissingparity := 0
    rmFirstdatacol := nparity
    -- parity alternates every 1MB, an on-disk format quirk of single parity
    rmCol := if nparity = 1 ∧ zio.ioOffset &&& (1 <<< 20) ≠ 0 then swapFirst col
      else col }

/-- `vdev_raidz_asize`: what the allocator reserves for `psize` bytes. -/
def vdevRaidzAsize (ashift cols nparity psize : Nat) : Nat :=
  let asize := ((psize - 1) >>> ashift) + 1
  let asize := asize + nparity * ((asize + cols - nparity - 1) / (cols - nparity))
  roundup asize (nparity + 1) <<< ashift

def colSectors (unitShift : Nat) (rc : RaidzCol) : Set (Nat × Nat) :=
  { p | p.1 = rc.rcDevidx ∧ rc.rcOffset >>> unitShift ≤ p.2
      ∧ p.2 < (rc.rcOffset + rc.rcSize) >>> unitShift }

def mapSectors (unitShift : Nat) (rm : RaidzMap) : Set (Nat × Nat) :=
  { p | ∃ c < rm.rmCols, p ∈ colSectors unitShift (rm.rmCol c) }

/-- The I/Os the pipeline hands to RAID-Z: whole units at unit-aligned offsets
    (`zio_vdev_io_start` pads and then asserts exactly this). -/
structure UnitAligned (unitShift : Nat) (zio : Zio) : Prop where
  offset : 2 ^ unitShift ∣ zio.ioOffset
  size : 2 ^ unitShift ∣ zio.ioSize
  pos : 0 < zio.ioSize

/-! ## The geometry of one I/O -/

/-- The quotient, remainder and column counts of an I/O of `s` units over
    `dcols` children, as the source computes them. -/
structure Geometry (dcols nparity s q r bc acols : Nat) : Prop where
  parity : 0 < nparity
  width : nparity < dcols
  units : s = q * (dcols - nparity) + r
  rem_lt : r < dcols - nparity
  pos : 0 < s
  big : bc = if r = 0 then 0 else r + nparity
  cols : acols = if q = 0 then bc else dcols

variable {dcols nparity s q r bc acols c : Nat} {p : Nat × Nat}

theorem geometry_of_units (hp : 0 < nparity) (hw : nparity < dcols) (hs : 0 < s) :
    Geometry dcols nparity s (mapQ s dcols nparity) (mapR s dcols nparity)
      (mapBc s dcols nparity) (mapAcols s dcols nparity) := by
  have hle : mapQ s dcols nparity * (dcols - nparity) ≤ s := div_mul_le_self _ _
  have hmod : mapR s dcols nparity = s % (dcols - nparity) := by
    have := div_add_mod' s (dcols - nparity)
    unfold mapR mapQ
    omega
  exact
    { parity := hp
      width := hw
      units := by unfold mapR; omega
      rem_lt := by rw [hmod]; exact mod_lt _ (by omega)
      pos := hs
      big := rfl
      cols := rfl }

namespace Geometry

variable (g : Geometry dcols nparity s q r bc acols)
include g

theorem bigcols_le : bc ≤ acols := by
  have h1 := g.rem_lt
  have h2 := g.big
  have h3 := g.cols
  split_ifs at h2 h3 <;> omega

theorem cols_le : acols ≤ dcols := by
  have h1 := g.rem_lt
  have h2 := g.big
  have h3 := g.cols
  split_ifs at h2 h3 <;> omega

theorem parity_lt_cols : nparity < acols := by
  have h2 := g.big
  have h3 := g.cols
  have h4 := g.width
  have h5 := g.units
  have h6 := g.pos
  by_cases hq : q = 0
  · rw [if_pos hq] at h3
    rw [hq, zero_mul] at h5
    rw [if_neg (by omega)] at h2
    omega
  · rw [if_neg hq] at h3
    omega

theorem big_iff_of_le_parity (hc : c ≤ nparity) : c < bc ↔ r ≠ 0 := by
  have h2 := g.big
  split_ifs at h2 with hr <;> omega

theorem total_units : q * acols + bc = s + nparity * (q + if r = 0 then 0 else 1) := by
  have h1 := g.units
  have h2 := g.big
  have h3 := g.cols
  have h4 := g.width
  obtain ⟨d, hd⟩ : ∃ d, dcols = nparity + d := ⟨dcols - nparity, by omega⟩
  subst hd
  rw [Nat.add_sub_cancel_left] at h1
  by_cases hq : q = 0
  · subst hq
    split_ifs at h2 ⊢ with hr <;> simp only [zero_mul] at * <;> omega
  subst h3
  have hexp : q * (nparity + d) = q * d + nparity * q := by ring
  split_ifs at h2 ⊢ with hr
  · rw [add_zero]; omega
  · rw [hexp, mul_add]; omega

/-- The rounded-up quotient of `vdev_raidz_asize` counts the rows. -/
theorem rows_eq : (s + dcols - nparity - 1) / (dcols - nparity) = q + if r = 0 then 0 else 1 := by
  have h1 := g.units
  have h2 := g.rem_lt
  obtain ⟨d, hd⟩ : ∃ d, dcols = nparity + d := ⟨dcols - nparity, by omega⟩
  subst hd
  rw [Nat.add_sub_cancel_left] at h1 h2 ⊢
  split_ifs with hr
  · rw [show s + (nparity + d) - nparity - 1 = (d - 1) + q * d by omega,
      add_mul_div_right _ _ (by omega), div_eq_of_lt (by omega)]
    omega
  · rw [show s + (nparity + d) - nparity - 1 = (r - 1) + (q + 1) * d by
        rw [add_mul]; omega,
      add_mul_div_right _ _ (by omega), div_eq_of_lt (by omega)]
    omega

theorem linear_lt {k : Nat} (hc : c < acols) (hk : k < q + if c < bc then 1 else 0) :
    c + k * dcols < q * acols + bc := by
  have h3 := g.cols
  by_cases hq : q = 0
  · split_ifs at hk with hcb
    · have hk0 : k = 0 := by omega
      subst hk0
      omega
    · omega
  rw [if_neg hq] at h3
  subst h3
  by_cases hkq : k < q
  · have : (k + 1) * acols ≤ q * acols := mul_le_mul_right _ hkq
    rw [add_mul] at this
    omega
  split_ifs at hk with hcb
  · have hkq' : k = q := by omega
    subst hkq'
    omega
  · omega

end Geometry

/-! ## Sizes: the two formulas agree -/

theorem colSize_eq (unitShift c : Nat) :
    colSize q bc unitShift c = (q + if c < bc then 1 else 0) * 2 ^ unitShift :=
  shiftLeft_eq _ _

theorem foldl_colSize (unitShift n : Nat) :
    (List.range n).foldl (fun a c => a + colSize q bc unitShift c) 0
      = (q * n + min n bc) * 2 ^ unitShift := by
  induction n with
  | zero => simp
  | succ n ih =>
    rw [List.range_succ, List.foldl_append, ih]
    show (q * n + min n bc) * 2 ^ unitShift + colSize q bc unitShift n = _
    rw [colSize_eq, ← add_mul]
    congr 1
    rw [mul_add]
    split_ifs <;> omega

theorem le_roundup (x y : Nat) : x ≤ roundup x (y + 1) := by
  have h1 := div_add_mod' (x + y) (y + 1)
  have h2 := mod_lt (x + y) (show 0 < y + 1 by omega)
  show x ≤ (x + y) / (y + 1) * (y + 1)
  omega

theorem roundup_mul {u : Nat} (hu : 0 < u) (x y : Nat) :
    roundup (x * u) ((y + 1) * u) = roundup x (y + 1) * u := by
  have hu1 : (x + y + 1) * u - 1 = (u - 1) + (x + y) * u := by
    rw [add_mul _ 1]
    omega
  have hdiv : (x * u + ((y + 1) * u - 1)) / ((y + 1) * u) = (x + y) / (y + 1) := by
    have hsum : x * u + ((y + 1) * u - 1) = (x + y + 1) * u - 1 := by
      have : 0 < (y + 1) * u := mul_pos (by omega) hu
      rw [show (x + y + 1) * u = x * u + (y + 1) * u by ring]
      omega
    rw [hsum, hu1, mul_comm (y + 1) u, ← Nat.div_div_eq_div_mul,
      add_mul_div_right _ _ hu, div_eq_of_lt (sub_lt hu one_pos), zero_add]
  unfold roundup
  rw [hdiv, Nat.add_sub_cancel, Nat.mul_assoc]

section OneIo

variable {unitShift : Nat} {zio : Zio}

section

variable (h : UnitAligned unitShift zio)

include h

theorem UnitAligned.units :
    zio.ioSize = (zio.ioSize >>> unitShift) * 2 ^ unitShift
      ∧ zio.ioOffset = (zio.ioOffset >>> unitShift) * 2 ^ unitShift
      ∧ 0 < zio.ioSize >>> unitShift := by
  rw [shiftRight_eq_div_pow, shiftRight_eq_div_pow,
    Nat.div_mul_cancel h.size, Nat.div_mul_cancel h.offset]
  refine ⟨rfl, rfl, ?_⟩
  exact div_pos (le_of_dvd h.pos h.size) (Nat.two_pow_pos _)

omit h in
theorem vdevRaidzAsize_units {size : Nat} (g : Geometry dcols nparity s q r bc acols)
    (hsize : size = s * 2 ^ unitShift) :
    vdevRaidzAsize unitShift dcols nparity size
      = roundup (q * acols + bc) (nparity + 1) * 2 ^ unitShift := by
  subst hsize
  have hu : 0 < 2 ^ unitShift := Nat.two_pow_pos _
  have hs : ((s * 2 ^ unitShift - 1) >>> unitShift) + 1 = s := by
    obtain ⟨t, rfl⟩ : ∃ t, s = t + 1 := ⟨s - 1, by have := g.pos; omega⟩
    rw [shiftRight_eq_div_pow, add_mul, one_mul, show t * 2 ^ unitShift + 2 ^ unitShift - 1
        = (2 ^ unitShift - 1) + t * 2 ^ unitShift by omega,
      add_mul_div_right _ _ hu, div_eq_of_lt (by omega), zero_add]
  show roundup (_ + nparity * ((_ + dcols - nparity - 1) / (dcols - nparity))) _
    <<< unitShift = _
  rw [hs, g.rows_eq, g.total_units, shiftLeft_eq]

theorem rmAsize_eq_vdevRaidzAsize (hp : 0 < nparity) (hw : nparity < dcols) :
    (vdevRaidzMapAlloc zio unitShift dcols nparity).rmAsize
      = vdevRaidzAsize unitShift dcols nparity zio.ioSize := by
  have g := geometry_of_units hp hw h.units.2.2
  rw [vdevRaidzAsize_units g h.units.1]
  show roundup ((List.range _).foldl (fun a c => a + colSize _ _ unitShift c) 0) _ = _
  rw [foldl_colSize, min_eq_right g.bigcols_le, shiftLeft_eq, roundup_mul (Nat.two_pow_pos _)]

end

theorem dataOff_total (g : Geometry dcols nparity s q r bc acols) (n : Nat) :
    dataOff (colSize q bc unitShift) nparity n
      = (q * n + min n (bc - nparity)) * 2 ^ unitShift := by
  have hb := g.big
  induction n with
  | zero => simp [dataOff]
  | succ n ih =>
    rw [dataOff, ih, colSize_eq, ← add_mul]
    congr 1
    rw [mul_add]
    split_ifs at hb ⊢ <;> omega

theorem dataOff_end (g : Geometry dcols nparity s q r bc acols) :
    dataOff (colSize q bc unitShift) nparity (acols - nparity) = s * 2 ^ unitShift := by
  rw [dataOff_total g]
  congr 1
  have h1 := g.units
  have h2 := g.big
  have h3 := g.cols
  have h4 := g.rem_lt
  by_cases hq : q = 0
  · subst hq
    split_ifs at h2 h3 <;> omega
  · rw [if_neg hq] at h3
    subst h3
    split_ifs at h2 <;> omega

end OneIo

section Placement

variable {b unitShift : Nat}

theorem colAlloc_offset_units (c : Nat) :
    (colAlloc b q bc unitShift dcols nparity c).rcOffset
      = (b / dcols + if dcols ≤ b % dcols + c then 1 else 0) * 2 ^ unitShift := by
  show (if dcols ≤ b % dcols + c then (b / dcols) <<< unitShift + 1 <<< unitShift
    else (b / dcols) <<< unitShift) = _
  rw [shiftLeft_eq, shiftLeft_eq]
  split_ifs
  · rw [add_mul, one_mul]
  · rw [add_zero]

theorem mem_colSectors (h : p ∈ colSectors unitShift (colAlloc b q bc unitShift dcols nparity c)) :
    ∃ k < q + (if c < bc then 1 else 0), p.2 * dcols + p.1 = b + c + k * dcols := by
  obtain ⟨hdev, hlo, hhi⟩ := h
  have hu : 0 < 2 ^ unitShift := Nat.two_pow_pos _
  have hsize : (colAlloc b q bc unitShift dcols nparity c).rcSize
      = (q + if c < bc then 1 else 0) * 2 ^ unitShift := colSize_eq _ _
  rw [colAlloc_offset_units, Nat.shiftRight_eq_div_pow, Nat.mul_div_cancel _ hu] at hlo
  rw [colAlloc_offset_units, hsize, ← add_mul, shiftRight_eq_div_pow,
    Nat.mul_div_cancel _ hu] at hhi
  have hdev' : p.1 = if dcols ≤ b % dcols + c then b % dcols + c - dcols
      else b % dcols + c := hdev
  have hb := div_add_mod' b dcols
  refine ⟨p.2 - (b / dcols + if dcols ≤ b % dcols + c then 1 else 0), by omega, ?_⟩
  obtain ⟨k, hk⟩ : ∃ k, p.2 = (b / dcols + if dcols ≤ b % dcols + c then 1 else 0) + k :=
    ⟨_, (add_sub_of_le hlo).symm⟩
  rw [hk, Nat.add_sub_cancel_left, hdev']
  split_ifs with hwrap
  · rw [add_mul, add_mul]
    omega
  · rw [add_zero, add_mul]
    omega

theorem colAlloc_devidx_inj {c' : Nat} (hc : c < dcols) (hc' : c' < dcols)
    (h : (colAlloc b q bc unitShift dcols nparity c).rcDevidx
      = (colAlloc b q bc unitShift dcols nparity c').rcDevidx) : c = c' := by
  have h' : (if dcols ≤ b % dcols + c then b % dcols + c - dcols else b % dcols + c)
      = (if dcols ≤ b % dcols + c' then b % dcols + c' - dcols
        else b % dcols + c') := h
  split_ifs at h' <;> omega

end Placement

/-! ## The swap keeps the set of sectors -/

section Swap

variable {unitShift : Nat} {col : Nat → RaidzCol}

/-- Which column's place column `c` takes after the swap. -/
def swapIdx : Nat → Nat
  | 0 => 1
  | 1 => 0
  | c + 2 => c + 2

theorem swapIdx_swapIdx : ∀ c, swapIdx (swapIdx c) = c
  | 0 | 1 | _ + 2 => rfl

theorem swapIdx_lt {n : Nat} (hn : 2 ≤ n) : ∀ {c}, c < n → swapIdx c < n
  | 0, _ => by show 1 < n; omega
  | 1, _ => by show 0 < n; omega
  | _ + 2, h => h

theorem swapFirst_devidx : ∀ c, (swapFirst col c).rcDevidx = (col (swapIdx c)).rcDevidx
  | 0 | 1 | _ + 2 => rfl

theorem swapFirst_offset : ∀ c, (swapFirst col c).rcOffset = (col (swapIdx c)).rcOffset
  | 0 | 1 | _ + 2 => rfl

theorem swapFirst_size : ∀ c, (swapFirst col c).rcSize = (col c).rcSize
  | 0 | 1 | _ + 2 => rfl

theorem swapFirst_data : ∀ c, (swapFirst col c).rcData = (col c).rcData
  | 0 | 1 | _ + 2 => rfl

theorem colSectors_swapFirst (hsz : (col 0).rcSize = (col 1).rcSize) (c : Nat) :
    colSectors unitShift (swapFirst col c) = colSectors unitShift (col (swapIdx c)) := by
  have hs : (swapFirst col c).rcSize = (col (swapIdx c)).rcSize := by
    match c with
    | 0 => exact hsz
    | 1 => exact hsz.symm
    | _ + 2 => rfl
  ext p
  unfold colSectors
  rw [Set.mem_ofPred_eq, Set.mem_ofPred_eq, swapFirst_devidx, swapFirst_offset, hs]

end Swap

section Layout

variable {unitShift : Nat} {zio zio₁ zio₂ : Zio}

theorem rmCol_eq :
    (vdevRaidzMapAlloc zio unitShift dcols nparity).rmCol
      = if nparity = 1 ∧ zio.ioOffset &&& (1 <<< 20) ≠ 0 then
          swapFirst (ioCols zio unitShift dcols nparity)
        else ioCols zio unitShift dcols nparity := rfl

theorem rmCol_size (c : Nat) :
    ((vdevRaidzMapAlloc zio unitShift dcols nparity).rmCol c).rcSize
      = colSize (mapQ (zio.ioSize >>> unitShift) dcols nparity)
        (mapBc (zio.ioSize >>> unitShift) dcols nparity) unitShift c := by
  rw [rmCol_eq]
  split_ifs
  · exact swapFirst_size c
  · rfl

theorem rmCol_data (c : Nat) :
    ((vdevRaidzMapAlloc zio unitShift dcols nparity).rmCol c).rcData
      = (ioCols zio unitShift dcols nparity c).rcData := by
  rw [rmCol_eq]
  split_ifs
  · exact swapFirst_data c
  · rfl

section

variable (h : UnitAligned unitShift zio) (hp : 0 < nparity) (hw : nparity < dcols)

include h hp hw

theorem rmCol_place : let rm := vdevRaidzMapAlloc zio unitShift dcols nparity
    ∃ π : Nat → Nat, (∀ c, π (π c) = c) ∧ (∀ c < rm.rmCols, π c < rm.rmCols)
      ∧ ∀ c, (rm.rmCol c).rcDevidx = (ioCols zio unitShift dcols nparity (π c)).rcDevidx
          ∧ colSectors unitShift (rm.rmCol c)
            = colSectors unitShift (ioCols zio unitShift dcols nparity (π c)) := by
  intro rm
  have g := geometry_of_units hp hw h.units.2.2
  have hcols := g.parity_lt_cols
  by_cases hsw : nparity = 1 ∧ zio.ioOffset &&& (1 <<< 20) ≠ 0
  · -- the odd megabyte: the first two columns trade places
    refine ⟨swapIdx, swapIdx_swapIdx,
      fun c hc => swapIdx_lt (by show 2 ≤ mapAcols _ _ _; omega) hc, ?_⟩
    intro c
    rw [rmCol_eq, if_pos hsw]
    refine ⟨swapFirst_devidx c, colSectors_swapFirst ?_ c⟩
    show colSize _ _ _ 0 = colSize _ _ _ 1
    rw [colSize_eq, colSize_eq]
    simp only [g.big_iff_of_le_parity (zero_le _),
      g.big_iff_of_le_parity (show 1 ≤ nparity by omega)]
  · refine ⟨id, fun _ => rfl, fun c hc => hc, ?_⟩
    intro c
    rw [rmCol_eq, if_neg hsw]
    exact ⟨rfl, rfl⟩

/-- **CONTAINMENT**: every sector of a map has its linear index in the range
    the allocator reserved. -/
theorem mapSectors_linear
    (hmem : p ∈ mapSectors unitShift (vdevRaidzMapAlloc zio unitShift dcols nparity)) :
    zio.ioOffset ≤ (p.2 * dcols + p.1) * 2 ^ unitShift
      ∧ (p.2 * dcols + p.1) * 2 ^ unitShift
        < zio.ioOffset + vdevRaidzAsize unitShift dcols nparity zio.ioSize := by
  have g := geometry_of_units hp hw h.units.2.2
  obtain ⟨π, -, hπlt, hπ⟩ := rmCol_place h hp hw
  obtain ⟨c, hc, hpc⟩ := hmem
  rw [(hπ c).2] at hpc
  obtain ⟨k, hk, hlin⟩ := mem_colSectors hpc
  have hlt := g.linear_lt (hπlt c hc) hk
  have hasize : _ ≤ vdevRaidzAsize unitShift dcols nparity zio.ioSize :=
    (mul_le_mul_right _ (le_roundup _ _)).trans_eq (vdevRaidzAsize_units g h.units.1).symm
  have hoff := h.units.2.1
  rw [hlin]
  constructor
  · calc zio.ioOffset = (zio.ioOffset >>> unitShift) * 2 ^ unitShift := hoff
      _ ≤ _ := mul_le_mul_right _ (by omega)
  · have hstep := mul_lt_mul_of_pos_right
      (Nat.add_lt_add_left hlt (zio.ioOffset >>> unitShift)) (Nat.two_pow_pos unitShift)
    rw [← add_assoc, add_mul _ (_ + _)] at hstep
    omega

omit h in
theorem mapSectors_disjoint (h₁ : UnitAligned unitShift zio₁) (h₂ : UnitAligned unitShift zio₂)
    (hdisj : zio₁.ioOffset + vdevRaidzAsize unitShift dcols nparity zio₁.ioSize ≤ zio₂.ioOffset
      ∨ zio₂.ioOffset + vdevRaidzAsize unitShift dcols nparity zio₂.ioSize ≤ zio₁.ioOffset) :
    Disjoint (mapSectors unitShift (vdevRaidzMapAlloc zio₁ unitShift dcols nparity))
      (mapSectors unitShift (vdevRaidzMapAlloc zio₂ unitShift dcols nparity)) := by
  rw [Set.disjoint_left]
  intro p hp₁ hp₂
  have l₁ := mapSectors_linear h₁ hp hw hp₁
  have l₂ := mapSectors_linear h₂ hp hw hp₂
  omega

theorem rmCol_devidx_inj : let rm := vdevRaidzMapAlloc zio unitShift dcols nparity
    ∀ c < rm.rmCols, ∀ c' < rm.rmCols, (rm.rmCol c).rcDevidx = (rm.rmCol c').rcDevidx → c = c' := by
  intro rm c hc c' hc' heq
  have g := geometry_of_units hp hw h.units.2.2
  obtain ⟨π, hinv, hπlt, hπ⟩ := rmCol_place h hp hw
  rw [(hπ c).1, (hπ c').1] at heq
  have hle : rm.rmCols ≤ dcols := g.cols_le
  have := colAlloc_devidx_inj ((hπlt c hc).trans_le hle) ((hπlt c' hc').trans_le hle) heq
  rw [← hinv c, ← hinv c', this]

/-- Every column is on one of the `dcols` children. -/
theorem rmCol_devidx_lt : let rm := vdevRaidzMapAlloc zio unitShift dcols nparity
    ∀ c < rm.rmCols, (rm.rmCol c).rcDevidx < dcols := by
  intro rm c hc
  have g := geometry_of_units hp hw h.units.2.2
  obtain ⟨π, -, hπlt, hπ⟩ := rmCol_place h hp hw
  have hlt : π c < dcols := (hπlt c hc).trans_le g.cols_le
  have hmod := mod_lt (zio.ioOffset >>> unitShift) (show 0 < dcols by omega)
  rw [(hπ c).1]
  show (if dcols ≤ _ then _ else _) < dcols
  split_ifs <;> omega

/-- What it means for the data columns to cut `io_data` into consecutive pieces: there is
    one, and each starts where the one before it ends, from 0 to `io_size`. -/
def PartitionsIoData (rm : RaidzMap) (ioSize : Nat) : Prop :=
  rm.rmFirstdatacol < rm.rmCols ∧
  ∃ off : Nat → Nat, off rm.rmFirstdatacol = 0 ∧ off rm.rmCols = ioSize
    ∧ ∀ c, rm.rmFirstdatacol ≤ c → c < rm.rmCols →
        (rm.rmCol c).rcData = .ioData (off c) ∧ off (c + 1) = off c + (rm.rmCol c).rcSize

theorem partitionsIoData :
    PartitionsIoData (vdevRaidzMapAlloc zio unitShift dcols nparity) zio.ioSize := by
  have g := geometry_of_units hp hw h.units.2.2
  refine ⟨g.parity_lt_cols,
    fun c => dataOff (colSize (mapQ (zio.ioSize >>> unitShift) dcols nparity)
    (mapBc (zio.ioSize >>> unitShift) dcols nparity) unitShift) nparity (c - nparity), ?_, ?_, ?_⟩
  · show dataOff _ nparity (nparity - nparity) = 0
    rw [Nat.sub_self]
    rfl
  · exact (dataOff_end g).trans h.units.1.symm
  intro c hlo hhi
  have hlo' : nparity ≤ c := hlo
  constructor
  · rw [rmCol_data]
    show (if c < nparity then _ else _) = _
    rw [if_neg (by omega)]
  · rw [rmCol_size]
    show dataOff _ nparity (c + 1 - nparity) = _
    rw [show c + 1 - nparity = (c - nparity) + 1 by omega, dataOff,
      show nparity + (c - nparity) = c by omega]

end

/-- **RAID-Z LAYOUT NEVER OVERLAPS.**  For every width, parity and unit: disjoint allocations get
    disjoint sectors; within one I/O the columns sit on distinct children and are disjoint, the data
    columns partition `io_data` in order, and `rm_asize` is the allocator's size. -/
theorem raidz_layout_never_overlaps (unitShift dcols nparity : Nat) (hp : nparity = 1 ∨ nparity = 2)
    (hw : nparity < dcols) :
    (∀ zio₁ zio₂ : Zio, UnitAligned unitShift zio₁ → UnitAligned unitShift zio₂ →
      (zio₁.ioOffset + vdevRaidzAsize unitShift dcols nparity zio₁.ioSize ≤ zio₂.ioOffset
        ∨ zio₂.ioOffset + vdevRaidzAsize unitShift dcols nparity zio₂.ioSize
          ≤ zio₁.ioOffset) →
      Disjoint (mapSectors unitShift (vdevRaidzMapAlloc zio₁ unitShift dcols nparity))
        (mapSectors unitShift (vdevRaidzMapAlloc zio₂ unitShift dcols nparity)))
    ∧ ∀ zio : Zio, UnitAligned unitShift zio →
      let rm := vdevRaidzMapAlloc zio unitShift dcols nparity
      (∀ c < rm.rmCols, (rm.rmCol c).rcDevidx < dcols
        ∧ ∀ c' < rm.rmCols, c ≠ c' → (rm.rmCol c).rcDevidx ≠ (rm.rmCol c').rcDevidx
          ∧ Disjoint (colSectors unitShift (rm.rmCol c)) (colSectors unitShift (rm.rmCol c')))
      ∧ PartitionsIoData rm zio.ioSize
      ∧ rm.rmAsize = vdevRaidzAsize unitShift dcols nparity zio.ioSize := by
  have hp' : 0 < nparity := by omega
  refine ⟨fun z₁ z₂ h₁ h₂ hd => mapSectors_disjoint hp' hw h₁ h₂ hd, ?_⟩
  intro zio h
  refine ⟨?_, partitionsIoData h hp' hw, rmAsize_eq_vdevRaidzAsize h hp' hw⟩
  refine fun c hc => ⟨rmCol_devidx_lt h hp' hw c hc, fun c' hc' hne => ?_⟩
  have hdev := fun heq => hne (rmCol_devidx_inj h hp' hw c hc c' hc' heq)
  refine ⟨hdev, ?_⟩
  rw [Set.disjoint_left]
  intro p h1 h2
  exact hdev (h1.1.symm.trans h2.1)

/-- Two neighbouring I/Os on a five-wide single-parity vdev, the second one on
    an odd megabyte so that its first two columns are swapped. -/
theorem raidz_layout_odd_megabyte :
    Disjoint (mapSectors 9 (vdevRaidzMapAlloc ⟨0x100000 - 1024, 512⟩ 9 5 1))
      (mapSectors 9 (vdevRaidzMapAlloc ⟨0x100000, 3072⟩ 9 5 1)) :=
  (raidz_layout_never_overlaps 9 5 1 (.inl rfl) (by decide)).1 _ _
    ⟨by decide, by decide, by decide⟩ ⟨by decide, by decide, by decide⟩
    (.inl (by decide))

end Layout

end Sirius.Raidz
