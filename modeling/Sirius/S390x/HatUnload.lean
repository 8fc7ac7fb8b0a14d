import Sirius.S390x.BootDat

/-! # Unloading a range of pages with a callback, from `hat_s390x.c`

    `hat_unload_callback` unmaps the pages of a range and collects them as runs of contiguous
    pages, at most `MAX_UNLOAD_CNT` at a time; `handle_ranges` turns each run into the two
    addresses of a callback.  Addresses are asserted to be page aligned, so the scan counts
    pages; only level 0 maps pages (`mmu.max_page_level`).

    The byte length of a run is `rng_cnt << LEVEL_SIZE(level)`, a shift by 4096 where
    `LEVEL_SHIFT` was meant.  The machine shifts modulo 64, so a run of `n` pages is reported
    as `n` bytes. -/

namespace Sirius.Unload

def maxUnloadCnt : ℕ := 8

def pageCount : ℕ := 2 ^ 52

/-- `range_info_t`. -/
structure RangeInfo where
  va : ℕ
  cnt : ℕ
  level : ℕ

/-- `x << n` of a doubleword, as `sllg` computes it. -/
def sllg (x n : ℕ) : ℕ := x <<< (n % 64) % 2 ^ 64

/-- `hcb_start_addr` and `hcb_end_addr` of one call in `handle_ranges`. -/
def RangeInfo.call (r : RangeInfo) : ℕ × ℕ :=
  (4096 * r.va, (4096 * r.va + sllg r.cnt (2 ^ Boot.levelShift r.level)) % 2 ^ 64)

/-- `handle_ranges`, on the array with its last element first: it counts down. -/
def handleRanges (r : List RangeInfo) : List (ℕ × ℕ) := r.map RangeInfo.call

/-- The mapped pages, the locals of `hat_unload_callback` (`r` with its last element first,
    `contigVa` none for the initial `-1`) and the calls made so far. -/
structure Scan where
  mapped : ℕ → Bool
  vaddr : ℕ
  contigVa : Option ℕ := none
  r : List RangeInfo := []
  calls : List (ℕ × ℕ) := []

/-- `htable_walk`: the first mapped page at or above `va` and below `eaddr`. -/
def htableWalk (mapped : ℕ → Bool) (va eaddr : ℕ) : Option ℕ :=
  (List.range' va (eaddr - va)).find? mapped

/-- The start of a new run, after the callbacks for a full array. -/
def Scan.newRange (s : Scan) (p : ℕ) : Scan :=
  let s := if s.r.length = maxUnloadCnt then
    { s with calls := s.calls ++ handleRanges s.r, r := [] } else s
  { s with r := ⟨p, 0, 0⟩ :: s.r }

/-- The loop's body for the page `p` that the walk returned. -/
def Scan.unloadPage (s : Scan) (p : ℕ) : Scan :=
  let s := if s.contigVa ≠ some p ∨ s.r.head?.any (·.level ≠ 0) then s.newRange p else s
  { s with
    mapped := Function.update s.mapped p false
    vaddr := p + 1
    contigVa := some (p + 1)
    r := s.r.modifyHead fun r => { r with cnt := r.cnt + 1 } }

theorem htableWalk_some {mapped : ℕ → Bool} {va eaddr p : ℕ}
    (h : htableWalk mapped va eaddr = some p) : mapped p = true ∧ va ≤ p ∧ p < eaddr := by
  have hmem := List.mem_of_find?_eq_some h
  rw [List.mem_range'_1] at hmem
  exact ⟨List.find?_some h, by omega⟩

def Scan.run (eaddr : ℕ) (s : Scan) : Scan :=
  match _h : htableWalk s.mapped s.vaddr eaddr with
  | none => s
  | some p => (s.unloadPage p).run eaddr
termination_by eaddr - s.vaddr
decreasing_by
  have := htableWalk_some _h
  simp only [Scan.unloadPage]
  omega

/-- `hat_unload_callback` with a callback, on `len` pages from `addr`: the pages it leaves
    mapped and the calls it makes.  The end address wraps. -/
def hatUnloadCallback (mapped : ℕ → Bool) (addr len : ℕ) : (ℕ → Bool) × List (ℕ × ℕ) :=
  let s := Scan.run ((addr + len) % pageCount) { mapped, vaddr := addr }
  (s.mapped, s.calls ++ handleRanges s.r)

/-! ## What the callbacks have to say -/

/-- The callbacks describe the unload: the mapped pages of the range are unmapped and no
    others, the reported ranges are disjoint, and their bytes are those of the pages. -/
structure Described (mapped : ℕ → Bool) (addr len : ℕ) : Prop where
  unloaded : ∀ p < pageCount, (hatUnloadCallback mapped addr len).1 p =
    (mapped p && !decide (addr ≤ p ∧ p < addr + len))
  disjoint : (hatUnloadCallback mapped addr len).2.Pairwise fun c d =>
    ∀ x, c.1 ≤ x → x < c.2 → ¬ (d.1 ≤ x ∧ x < d.2)
  union : ∀ x, (∃ c ∈ (hatUnloadCallback mapped addr len).2, c.1 ≤ x ∧ x < c.2) ↔
    x / 4096 < pageCount ∧ addr ≤ x / 4096 ∧ x / 4096 < addr + len ∧ mapped (x / 4096) = true

/-- What the scan keeps: a run lies below the page it has reached, and so no call covers the
    last byte before that page. -/
structure Short (mapped : ℕ → Bool) (addr eaddr : ℕ) (s : Scan) : Prop where
  start : addr ≤ s.vaddr
  still : ∀ p, s.mapped p = true → mapped p = true
  last : s.mapped = mapped ∨ ∃ p, addr ≤ p ∧ p < eaddr ∧ mapped p = true ∧ s.vaddr = p + 1
  runs : ∀ r ∈ s.r, r.va + r.cnt ≤ s.vaddr ∧ r.level = 0
  calls : ∀ c ∈ s.calls, c.2 ≤ c.1 ∨ c.2 < 4096 * s.vaddr

section Scan

variable {mapped : ℕ → Bool} {addr eaddr p : ℕ} {s : Scan}

theorem RangeInfo.call_short {r : RangeInfo} {k : ℕ} (hr : r.va + r.cnt ≤ k ∧ r.level = 0) :
    r.call.2 ≤ r.call.1 ∨ r.call.2 < 4096 * k := by
  have hshift : 2 ^ Boot.levelShift r.level % 64 = 0 := by rw [hr.2]; rfl
  simp only [call, sllg, hshift, Nat.shiftLeft_zero]
  omega

theorem Short.handleRanges (h : Short mapped addr eaddr s) :
    ∀ c ∈ s.calls ++ handleRanges s.r, c.2 ≤ c.1 ∨ c.2 < 4096 * s.vaddr := by
  intro c hc
  rcases List.mem_append.1 hc with hc | hc
  · exact h.calls c hc
  · obtain ⟨r, hr, rfl⟩ := List.mem_map.1 hc
    exact r.call_short (h.runs r hr)

theorem Short.newRange (h : Short mapped addr eaddr s) (hp : s.vaddr ≤ p) :
    (∀ r ∈ (s.newRange p).r, r.va + r.cnt ≤ p ∧ r.level = 0) ∧
      ∀ c ∈ (s.newRange p).calls, c.2 ≤ c.1 ∨ c.2 < 4096 * s.vaddr := by
  have hold : ∀ r ∈ s.r, r.va + r.cnt ≤ p ∧ r.level = 0 := fun r hr =>
    ⟨(h.runs r hr).1.trans hp, (h.runs r hr).2⟩
  unfold Scan.newRange
  split
  · exact ⟨by simp, h.handleRanges⟩
  · exact ⟨List.forall_mem_cons.2 ⟨by simp, hold⟩, h.calls⟩

theorem Short.unloadPage (h : Short mapped addr eaddr s) (hm : s.mapped p = true)
    (hp : s.vaddr ≤ p) (he : p < eaddr) : Short mapped addr eaddr (s.unloadPage p) := by
  obtain ⟨t, ht, hmapped, hruns, hcalls⟩ : ∃ t : Scan,
      t = (if s.contigVa ≠ some p ∨ s.r.head?.any (·.level ≠ 0) then s.newRange p else s) ∧
      t.mapped = s.mapped ∧ (∀ r ∈ t.r, r.va + r.cnt ≤ p ∧ r.level = 0) ∧
      ∀ c ∈ t.calls, c.2 ≤ c.1 ∨ c.2 < 4096 * s.vaddr := by
    refine ⟨_, rfl, ?_⟩
    split
    · exact ⟨by unfold Scan.newRange; split <;> rfl, h.newRange hp⟩
    · exact ⟨rfl, fun r hr => ⟨(h.runs r hr).1.trans hp, (h.runs r hr).2⟩, h.calls⟩
  unfold Scan.unloadPage
  simp only [← ht]
  refine ⟨(h.start.trans hp).trans p.le_succ, fun q hq => h.still q ?_,
    .inr ⟨p, h.start.trans hp, he, h.still p hm, rfl⟩, ?_, fun c hc => ?_⟩
  · rcases eq_or_ne q p with rfl | hne
    · exact hm
    · rw [← hmapped, ← hq]
      exact (Function.update_of_ne hne _ _).symm
  · cases hr : t.r with
    | nil => simp
    | cons r rest =>
      rw [hr] at hruns
      obtain ⟨hhead, htail⟩ := List.forall_mem_cons.1 hruns
      exact List.forall_mem_cons.2 ⟨⟨Nat.succ_le_succ hhead.1, hhead.2⟩,
        fun r hr => ⟨(htail r hr).1.trans p.le_succ, (htail r hr).2⟩⟩
  · exact (hcalls c hc).imp_right fun hc => by simp only; omega

theorem Short.run (h : Short mapped addr eaddr s) : Short mapped addr eaddr (s.run eaddr) := by
  fun_induction Scan.run with
  | case1 s => exact h
  | case2 s p hw ih =>
    obtain ⟨hm, hp, he⟩ := htableWalk_some hw
    exact ih (h.unloadPage hm hp he)

end Scan

/-- **HEADLINE**: the callbacks describe an unload exactly when there is nothing to unload.
    Otherwise the last byte of the last page unloaded lies in no reported range, or, where
    the end address wraps, no page is unloaded at all. -/
theorem unload_described_iff (mapped : ℕ → Bool) (addr len : Fin pageCount) :
    Described mapped addr len ↔ ∀ p < pageCount, addr ≤ p → p < addr + len → mapped p = false := by
  have hlt : (addr + len : ℕ) % pageCount < pageCount := Nat.mod_lt _ (by decide)
  have hle : (addr + len : ℕ) % pageCount ≤ addr + len := Nat.mod_le _ _
  constructor
  · intro hd p hp ha hl
    by_contra hm
    have hshort : Short mapped addr ((addr + len : ℕ) % pageCount)
        (Scan.run ((addr + len : ℕ) % pageCount) { mapped, vaddr := addr }) :=
      Short.run ⟨le_rfl, fun _ => id, .inl rfl, by simp, by simp⟩
    rcases hshort.last with hsame | ⟨q, hq, hqe, hqm, hv⟩
    · have hun := hd.unloaded p hp
      rw [hatUnloadCallback, hsame, decide_eq_true ⟨ha, hl⟩, Bool.not_true, Bool.and_false] at hun
      exact hm hun
    · have hdiv : (4096 * q + 4095) / 4096 = q := by omega
      obtain ⟨c, hc, hcx⟩ := (hd.union (4096 * q + 4095)).2
        (by rw [hdiv]; exact ⟨by omega, hq, by omega, hqm⟩)
      have := hshort.handleRanges c hc
      omega
  · intro hnone
    have hwalk : htableWalk mapped addr ((addr + len : ℕ) % pageCount) = none := by
      refine List.find?_eq_none.2 fun p hp => ?_
      rw [List.mem_range'_1] at hp
      simp [hnone p (by omega) hp.1 (by omega)]
    have hrun : hatUnloadCallback mapped addr len = (mapped, []) := by
      unfold hatUnloadCallback Scan.run
      split
      · rfl
      · simp_all
    refine ⟨fun p hp => ?_, by simp [hrun], fun x => ?_⟩
    · rw [hrun]
      by_cases h : addr ≤ p ∧ p < addr + len
      · simp [hnone p hp h.1 h.2]
      · simp [h]
    · rw [hrun]
      simp only [List.not_mem_nil, false_and, exists_false, false_iff]
      rintro ⟨hx, ha, hl, hm⟩
      simp [hnone _ hx ha hl] at hm

/-- One mapped page is reported as its first byte. -/
theorem one_page_one_byte : (hatUnloadCallback (· == 1) 1 1).2 = [(4096, 4097)] ∧
    ¬ Described (· == 1) 1 1 := by
  have hcalls : (hatUnloadCallback (· == 1) 1 1).2 = [(4096, 4097)] := by decide +kernel
  refine ⟨hcalls, fun h => ?_⟩
  have hlast := (h.union 4097).2 (by decide)
  simp [hcalls] at hlast

end Sirius.Unload
