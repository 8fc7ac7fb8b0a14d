import Sirius.Lib.AvlTree
import Sirius.Zfs.Metaslab

/-! # First fit finds a fit if there is one

    `metaslab_ff_alloc` as it computes in 64 bits, on the tree that it searches.  The search
    from the cursor may land on any segment that overlaps `[cursor, cursor + size)` and pass
    over earlier ones; from cursor zero those end before `size`, and are too short.  No sum is
    checked for a wrap, so the results are about sizes for which none wraps; `first_fit_wraps`
    is a size for which one does. -/

namespace Sirius.Alloc

open Sirius.Lib Sirius.Space Function List Nat

/-- `-x`, in 64 bits. -/
def neg64 (x : ℕ) : ℕ := (2 ^ 64 - x) % 2 ^ 64

/-- `P2ROUNDUP(x, align)` as it is written: `-(-(x) & -(align))`. -/
def p2Roundup64 (x align : ℕ) : ℕ := neg64 (neg64 x &&& neg64 align)

/-- `while (ss != NULL)`, from the segment `ss` on. -/
def ffScan64 (align size : ℕ) : List Seg → Option ℕ
  | [] => none
  | ss :: rest =>
    let offset := p2Roundup64 ss.start align
    if (offset + size) % 2 ^ 64 ≤ ss.stop then some offset else ffScan64 align size rest

/-- Where the search starts: `avl_find`, or else `avl_nearest(t, where, AVL_AFTER)`. -/
def ffFrom64 (tree : BalTree Seg) (cursor size : ℕ) : List Seg :=
  let ssearch : Seg := ⟨cursor, (cursor + size) % 2 ^ 64⟩
  match tree.search (spaceMapSegCompare ssearch) with
  | some ss => tree.toList.filter fun t => ss.start ≤ t.start
  | none => tree.toList.filter fun t => spaceMapSegCompare ssearch t == .lt

/-- `metaslab_ff_alloc`: the offset and the cursors. -/
def metaslabFfAlloc64 (tree : BalTree Seg) (smPpd : ℕ → ℕ) (size : ℕ) : Option ℕ × (ℕ → ℕ) :=
  let align := lowBit size
  let i := align.log2
  match ffScan64 align size (ffFrom64 tree (smPpd i) size) with
  | some offset => (some offset, update smPpd i ((offset + size) % 2 ^ 64))
  | none =>
    if smPpd i = 0 then (none, smPpd)
    else match ffScan64 align size (ffFrom64 tree 0 size) with
      | some offset => (some offset, update smPpd i ((offset + size) % 2 ^ 64))
      | none => (none, update smPpd i 0)

structure Fits (segs : List Seg) (size off : ℕ) : Prop where
  aligned : ∀ k, 2 ^ k ∣ size → 2 ^ k ∣ off
  inside : ∃ ss ∈ segs, ss.start ≤ off ∧ off + size ≤ ss.stop

variable {g : SpaceGeom} {size align off cursor : ℕ} {segs : List Seg} {tree : BalTree Seg}

theorem and_neg64_two_pow {y k : ℕ} (hy : y < 2 ^ 64) (hk : k < 64) :
    y &&& neg64 (2 ^ k) = 2 ^ k * (y / 2 ^ k) := by
  have hneg : neg64 (2 ^ k) = 2 ^ k * (2 ^ (64 - k) - 1) := by
    rw [neg64, Nat.mul_sub, ← Nat.pow_add, Nat.add_sub_of_le hk.le, Nat.mul_one]
    exact Nat.mod_eq_of_lt (Nat.sub_lt (Nat.two_pow_pos 64) (Nat.two_pow_pos k))
  refine eq_of_testBit_eq fun i => ?_
  rw [hneg, testBit_and, testBit_two_pow_mul, testBit_two_pow_mul, testBit_two_pow_sub_one,
    testBit_div_two_pow]
  by_cases hki : k ≤ i
  · rw [Nat.sub_add_cancel hki]
    by_cases hi : i < 64
    · simp [hki, show i - k < 64 - k by omega]
    · simp [testBit_lt_two_pow (hy.trans_le (Nat.pow_le_pow_right (by decide) (not_lt.mp hi)))]
  · simp [hki]

theorem p2Roundup64_eq {x k : ℕ} (hk : k < 64) (hx : p2Roundup x (2 ^ k) < 2 ^ 64) :
    p2Roundup64 x (2 ^ k) = p2Roundup x (2 ^ k) := by
  have hneg : neg64 x < 2 ^ 64 := mod_lt _ (Nat.two_pow_pos 64)
  rw [p2Roundup64, and_neg64_two_pow hneg hk]
  rcases Nat.eq_zero_or_pos x with rfl | hpos
  · have hzero : p2Roundup 0 (2 ^ k) = 0 := by
      rw [p2Roundup, Nat.zero_add, Nat.div_eq_of_lt (Nat.sub_lt (Nat.two_pow_pos k) one_pos),
        zero_mul]
    rw [hzero]
    simp [neg64]
  -- `2 ^ 64 - x` is the multiple below plus a rest, and the multiple is `2 ^ 64` less the rounded
  obtain ⟨M, hM⟩ : 2 ^ k ∣ 2 ^ 64 := pow_dvd_pow 2 hk.le
  have hmod := div_add_mod (x + 2 ^ k - 1) (2 ^ k)
  rw [p2Roundup] at hx ⊢
  rw [mul_comm] at hx
  generalize (x + 2 ^ k - 1) / 2 ^ k = c at *
  have hx64 : neg64 x = 2 ^ 64 - x := mod_eq_of_lt (by omega)
  have hdiv : (2 ^ 64 - x) / 2 ^ k = M - c := by
    refine Nat.div_eq_of_lt_le ?_ ?_
    · rw [Nat.mul_comm, Nat.mul_sub, ← hM]
      omega
    · rw [Nat.succ_mul, Nat.mul_comm, Nat.mul_sub, ← hM]
      omega
  rw [hx64, hdiv, Nat.mul_sub, ← hM, neg64, Nat.mul_comm c, Nat.sub_sub_self hx.le,
    mod_eq_of_lt hx]

theorem p2Roundup_le {x : ℕ} (halign : 0 < align) (hdvd : align ∣ off) (hx : x ≤ off) :
    p2Roundup x align ≤ off := by
  obtain ⟨q, rfl⟩ := hdvd
  rw [p2Roundup, mul_comm]
  refine Nat.mul_le_mul_left _ (Nat.lt_succ_iff.mp ((Nat.div_lt_iff_lt_mul halign).mpr ?_))
  rw [Nat.succ_mul, Nat.mul_comm q]
  omega

/-- No segment's rounded start wraps, nor the end of the range there. -/
def NoWrap (segs : List Seg) (size : ℕ) : Prop :=
  ∀ ss ∈ segs, p2Roundup ss.start (lowBit size) + size < 2 ^ 64

instance : Decidable (NoWrap segs size) :=
  inferInstanceAs (Decidable (∀ ss ∈ segs, p2Roundup ss.start (lowBit size) + size < 2 ^ 64))

theorem ffScan64_eq (hpos : 0 < size) (hlt : size < 2 ^ 64) (h : NoWrap segs size) :
    ffScan64 (lowBit size) size segs = ffScan (lowBit size) size segs := by
  obtain ⟨k, hk, halign, -⟩ := exists_lowBit_eq hpos hlt
  induction segs with
  | nil => rfl
  | cons ss segs ih =>
    have hss := h ss mem_cons_self
    rw [halign] at hss
    have hround := p2Roundup64_eq hk ((le_add_right _ _).trans_lt hss)
    rw [ffScan64, ffScan, ih fun t ht => h t (mem_cons_of_mem _ ht), halign, hround,
      mod_eq_of_lt hss]

theorem ffScan_ne_none {ss : Seg} (hss : ss ∈ segs)
    (h : p2Roundup ss.start align + size ≤ ss.stop) : ffScan align size segs ≠ none := by
  induction segs with
  | nil => exact nomatch hss
  | cons t segs ih =>
    rw [ffScan]
    split_ifs with hfit
    · exact Option.some_ne_none _
    · rcases mem_cons.mp hss with rfl | hss
      · exact absurd h hfit
      · exact ih hss

theorem mem_of_mem_ffFrom64 {ss : Seg} (h : ss ∈ ffFrom64 tree cursor size) : ss ∈ tree.toList := by
  rw [ffFrom64] at h
  split at h <;> exact mem_of_mem_filter h

/-- **THE RESTART**: from cursor zero, every segment with room for the size is reached. -/
theorem mem_ffFrom64_zero {sm : SpaceMap g} (htree : tree.toList = sm.smRoot.segs)
    (hlt : size < 2 ^ 64) {ss : Seg} (hss : ss ∈ sm.smRoot.segs) (hroom : size ≤ ss.stop) :
    ss ∈ ffFrom64 tree 0 size := by
  have hsep := sm.smRoot.separated
  have hsearch := BalTree.search_spec (t := tree) (htree ▸ segCompare_monotone hsep ⟨0, size⟩)
  rw [ffFrom64, zero_add, mod_eq_of_lt hlt, htree]
  split
  · rename_i t ht
    obtain ⟨hmem, heq⟩ := hsearch.1 t ht
    rw [htree] at hmem
    refine mem_filter.mpr ⟨hss, decide_eq_true (not_lt.mp fun hlt' => ?_)⟩
    -- a segment before the one that was met ends before `size`
    have hgap := hsep.gap hss hmem hlt'
    dsimp only [spaceMapSegCompare] at heq
    rw [if_pos (by omega)] at heq
    split_ifs at heq
    omega
  · rename_i hnone
    refine mem_filter.mpr ⟨hss, ?_⟩
    have hne := hsearch.2 hnone ss (htree ▸ hss)
    dsimp only [spaceMapSegCompare] at hne ⊢
    split_ifs at hne ⊢ <;> first | rfl | exact absurd rfl hne | omega

/-- **HEADLINE**: unless a sum wraps, first fit returns a range inside one free segment, at the
    alignment of its size, and gives up only if there is none in the whole map. -/
theorem first_fit_complete (sm : SpaceMap g) (htree : tree.toList = sm.smRoot.segs)
    (smPpd : ℕ → ℕ) (hpos : 0 < size) (hlt : size < 2 ^ 64) (hwrap : NoWrap sm.smRoot.segs size) :
    (∀ off, (metaslabFfAlloc64 tree smPpd size).1 = some off → Fits sm.smRoot.segs size off) ∧
      ((metaslabFfAlloc64 tree smPpd size).1 = none ↔ ¬ ∃ off, Fits sm.smRoot.segs size off) := by
  obtain ⟨k, hk, halign, hdvd⟩ := exists_lowBit_eq hpos hlt
  have hscan : ∀ cursor, ffScan64 (lowBit size) size (ffFrom64 tree cursor size)
      = ffScan (lowBit size) size (ffFrom64 tree cursor size) := fun cursor =>
    ffScan64_eq hpos hlt fun ss hss => hwrap ss (htree ▸ mem_of_mem_ffFrom64 hss)
  have hfits : ∀ cursor off, ffScan (lowBit size) size (ffFrom64 tree cursor size) = some off →
      Fits sm.smRoot.segs size off := by
    intro cursor off hoff
    obtain ⟨hal, ss, hss, hin⟩ := ffScan_spec (lowBit_pos hpos hlt) hoff
    exact ⟨fun j hj => (dvd_lowBit hj).trans hal, ss, htree ▸ mem_of_mem_ffFrom64 hss, hin⟩
  -- the search from zero fails only if nothing fits
  have hnone : ffScan (lowBit size) size (ffFrom64 tree 0 size) = none →
      ¬ ∃ off, Fits sm.smRoot.segs size off := by
    rintro hz ⟨off, hal, ss, hss, hlo, hhi⟩
    have hround := p2Roundup_le (halign ▸ Nat.two_pow_pos k) (halign ▸ hal k hdvd) hlo
    exact ffScan_ne_none (mem_ffFrom64_zero htree hlt hss (by omega)) (by omega) hz
  have hsome : ∀ {off}, Fits sm.smRoot.segs size off →
      (some off = none ↔ ¬ ∃ off, Fits sm.smRoot.segs size off) :=
    fun hf => ⟨nofun, fun h => absurd ⟨_, hf⟩ h⟩
  rw [metaslabFfAlloc64, hscan, hscan]
  cases hfirst : ffScan (lowBit size) size (ffFrom64 tree (smPpd (lowBit size).log2) size) with
  | some off =>
    refine ⟨?_, hsome (hfits _ _ hfirst)⟩
    rintro _ ⟨⟩
    exact hfits _ _ hfirst
  | none =>
    split_ifs with hzero
    · rw [hzero] at hfirst
      exact ⟨nofun, fun _ => hnone hfirst, fun _ => rfl⟩
    cases hsecond : ffScan (lowBit size) size (ffFrom64 tree 0 size) with
    | some off =>
      refine ⟨?_, hsome (hfits _ _ hsecond)⟩
      rintro _ ⟨⟩
      exact hfits _ _ hsecond
    | none => exact ⟨nofun, fun _ => hnone hsecond, fun _ => rfl⟩

/-- Free segments of one, three and one sectors in a map of a megabyte. -/
def threeSegs : SpaceMap ⟨0, 2 ^ 20, 9, by decide, by decide, by decide, by decide⟩ where
  smRoot := ⟨[⟨512, 1024⟩, ⟨2048, 3584⟩, ⟨8192, 8704⟩], by simp [Separated]⟩
  smSpace := 2560
  space_eq := rfl
  onMap := by decide

def threeTree : BalTree Seg :=
  .node 0 (.node 0 .nil ⟨512, 1024⟩ .nil) ⟨2048, 3584⟩ (.node 0 .nil ⟨8192, 8704⟩ .nil)

/-- From a stale cursor the search starts over and finds two of the three sectors; four sectors
    are not to be had. -/
theorem first_fit_sector :
    (metaslabFfAlloc64 threeTree (fun _ => 4096) 1024).1 = some 2048 ∧
      Fits threeSegs.smRoot.segs 1024 2048 ∧ ¬ ∃ off, Fits threeSegs.smRoot.segs 2048 off := by
  have htree : threeTree.toList = threeSegs.smRoot.segs := rfl
  have hfound : (metaslabFfAlloc64 threeTree (fun _ => 4096) 1024).1 = some 2048 := by
    decide +kernel
  have htwo := first_fit_complete threeSegs htree (fun _ => 4096) (by decide : 0 < 1024)
    (by decide) (by decide +kernel)
  have hfour := first_fit_complete threeSegs htree (fun _ => 4096) (by decide : 0 < 2048)
    (by decide) (by decide +kernel)
  exact ⟨hfound, htwo.1 2048 hfound, hfour.2.mp (by decide +kernel)⟩

/-- One free segment, `[512, 1024)`. -/
def oneSector : SpaceMap ⟨0, 2 ^ 20, 9, by decide, by decide, by decide, by decide⟩ where
  smRoot := ⟨[⟨512, 1024⟩], by simp [Separated]⟩
  smSpace := 512
  space_eq := rfl
  onMap := by decide

/-- A size close to `2 ^ 64`: the end of the range wraps to zero, and the sector is handed out. -/
theorem first_fit_wraps :
    (metaslabFfAlloc64 (.node 0 .nil ⟨512, 1024⟩ .nil) (fun _ => 0) (2 ^ 64 - 512)).1 = some 512 ∧
      ¬ Fits oneSector.smRoot.segs (2 ^ 64 - 512) 512 := by
  refine ⟨by decide +kernel, ?_⟩
  rintro ⟨-, ss, hss, -, hhi⟩
  obtain rfl := mem_singleton.mp hss
  exact absurd hhi (by decide)

end Sirius.Alloc
