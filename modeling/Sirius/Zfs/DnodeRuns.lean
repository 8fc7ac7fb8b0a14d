import Sirius.Zfs.DnodeFree

/-! # The freed ranges of a txg

    The meaning of the loop in `dnode_sync`: `punch` says what one range takes out of the tree of
    block pointers, and the loop punches out its ranges one after the other, with one
    `dsl_dataset_block_kill` for each pointer that becomes a hole. -/

namespace Sirius.DnodeSync

open Sirius.Lib List Nat

variable {B : Type} {g : Geometry B} {o o' o1 o2 : Object B} {r r : Range} {k : Cut} {e : Nat}

def Range.cut (r : Range) (maxblkid : Nat) (h : r.blkid ≤ maxblkid) : Cut where
  lo := r.blkid
  last := min (r.blkid + r.nblks - 1) maxblkid
  trunc := maxblkid < r.blkid + r.nblks
  le := by
    have := r.pos
    omega

def Range.Mem (r : Range) (i : Nat) : Prop := r.blkid ≤ i ∧ i < r.blkid + r.nblks

/-- The block pointers of an object and the bound on its blocks. -/
structure Image (B : Type) where
  bp : Nat → Nat → Option B
  maxblkid : Nat

def Object.image (o : Object B) : Image B := ⟨o.bp, o.maxblkid⟩

open Classical in
/-- What one range takes out of the tree: the blocks it dooms, and the end of the object if it
    reaches it. -/
noncomputable def punch (e : Nat) (v : Image B) (r : Range) : Image B :=
  if h : r.blkid ≤ v.maxblkid then
    { bp := fun l i => if Dies (r.cut v.maxblkid h) e v.bp l i then none else v.bp l i
      maxblkid := if v.maxblkid < r.blkid + r.nblks then r.blkid - 1 else v.maxblkid }
  else v

/-- From `o` to `o'` pointers became holes, each with one call of `dsl_dataset_block_kill`. -/
structure Synced (o o' : Object B) : Prop where
  kept : ∀ l i, o'.bp l i = none ∨ o'.bp l i = o.bp l i
  killed : ∃ new, o'.kills = o.kills ++ new ∧ new.Nodup ∧
    ∀ l i b, (l, i, b) ∈ new ↔ o.bp l i = some b ∧ o'.bp l i = none

namespace Synced

theorem refl (o : Object B) : Synced o o where
  kept _ _ := .inr rfl
  killed := by
    refine ⟨[], by simp, nodup_nil, fun l i b => ?_⟩
    simp only [not_mem_nil, false_iff]
    rintro ⟨h1, h2⟩
    exact absurd (h1.symm.trans h2) (Option.some_ne_none b)

theorem of_freed {P : Nat → Nat → Prop} (h : Freed g o o' P) : Synced o o' := by
  constructor
  · intro l i
    by_cases hp : P l i
    · exact .inl (h.gone l i hp).2
    · exact .inr (h.kept l i hp)
  obtain ⟨new, hk, -, hn, hm⟩ := h.killed
  refine ⟨new, hk, hn, fun l i b => ?_⟩
  rw [hm]
  constructor
  · rintro ⟨hp, hb⟩
    exact ⟨hb, (h.gone l i hp).2⟩
  rintro ⟨hb, hnone⟩
  refine ⟨?_, hb⟩
  by_contra hp
  rw [h.kept l i hp, hb] at hnone
  exact Option.some_ne_none b hnone

theorem trans (h₁ : Synced o o1) (h₂ : Synced o1 o2) : Synced o o2 := by
  have hkept : ∀ l i, o2.bp l i = none ∨ o2.bp l i = o.bp l i := by
    intro l i
    rcases h₂.kept l i with h | h
    · exact .inl h
    · rw [h]
      exact h₁.kept l i
  obtain ⟨new1, hk1, hn1, hm1⟩ := h₁.killed
  obtain ⟨new2, hk2, hn2, hm2⟩ := h₂.killed
  refine ⟨hkept, new1 ++ new2, by rw [hk2, hk1, append_assoc], ?_, ?_⟩
  · refine nodup_append.mpr ⟨hn1, hn2, ?_⟩
    rintro ⟨l, i, b⟩ ha _ hb rfl
    have h1 := ((hm1 l i b).mp ha).2
    have h2 := ((hm2 l i b).mp hb).1
    exact Option.some_ne_none b (h2.symm.trans h1)
  intro l i b
  rw [mem_append, hm1, hm2]
  constructor
  · rintro (⟨h1, h2⟩ | ⟨h1, h2⟩)
    · refine ⟨h1, ?_⟩
      rcases h₂.kept l i with h | h
      · exact h
      · exact h.trans h2
    · refine ⟨?_, h2⟩
      rcases h₁.kept l i with h | h
      · exact absurd (h1.symm.trans h) (Option.some_ne_none b)
      · exact h.symm.trans h1
  · rintro ⟨h1, h2⟩
    rcases h₁.kept l i with h | h
    · exact .inl ⟨h1, h⟩
    · exact .inr ⟨h.trans h1, h2⟩

end Synced

theorem dies_of_covered {bp : Nat → Nat → Option B} (l : Nat) :
    ∀ {i : Nat}, k.lo ≤ i <<< (l * e) → (i + 1) <<< (l * e) ≤ k.last + 1 ∨ k.trunc = true →
      bp l i ≠ none → Dies k e bp l i := by
  have hmeets : ∀ l i, k.lo ≤ i <<< (l * e) →
      (i + 1) <<< (l * e) ≤ k.last + 1 ∨ k.trunc = true → Meets k e l i := by
    intro l i hi hend
    have h1 := shiftRight_mono hi (l * e)
    rw [Nat.shiftLeft_shiftRight] at h1
    refine ⟨h1, hend.imp_left fun hend => ?_⟩
    have hlt := shiftLeft_lt_succ i (l * e)
    have h2 := shiftRight_mono (show i <<< (l * e) ≤ k.last by omega) (l * e)
    rwa [Nat.shiftLeft_shiftRight] at h2
  induction l with
  | zero =>
    intro i hi hend hne
    exact ⟨hne, hmeets 0 i hi hend⟩
  | succ l ih =>
    intro i hi hend hne
    refine ⟨hne, fun c hc => ?_⟩
    obtain ⟨h1, h2⟩ := shiftRight_eq_iff.mp hc
    have hup : ∀ a, a <<< ((l + 1) * e) = (a <<< e) * 2 ^ (l * e) := by
      intro a
      rw [succ_mul, add_comm (l * e), shiftLeft_add, shiftLeft_eq _ (l * e)]
    rw [hup] at hi
    rw [hup] at hend
    have hi' : k.lo ≤ c <<< (l * e) := by
      rw [shiftLeft_eq c]
      exact hi.trans (mul_le_mul_right _ h1)
    have hend' : (c + 1) <<< (l * e) ≤ k.last + 1 ∨ k.trunc = true := by
      refine hend.imp_left fun hend => ?_
      rw [shiftLeft_eq (c + 1)]
      exact (mul_le_mul_right _ h2).trans hend
    exact ⟨hmeets l c hi' hend', ih hi' hend'⟩

theorem WellFormed.lower (hwf : WellFormed g o) (hlo : k.lo ≤ o.maxblkid)
    (hf : Freed g o o' (Dies k g.epbs o.bp)) : WellFormed g (lower k.trunc k.lo o') := by
  have hwf' : WellFormed g o' := hf.wellFormed hwf fun _ _ hd hc => hd.below hc
  cases ht : k.trunc with
  | false => exact hwf'
  | true =>
    have hmax : (if k.lo ≠ 0 then k.lo - 1 else 0) = k.lo - 1 := by split <;> omega
    rw [DnodeSync.lower, if_pos rfl, hmax]
    refine { hwf' with top := ?_, bounded := ?_ }
    · refine lt_of_le_of_lt (shiftRight_mono ?_ _) hwf.top
      exact (sub_le _ _).trans hlo
    intro l i hne
    refine ⟨(hwf'.bounded l i hne).1, ?_⟩
    by_contra hcon
    have hd : Dies k g.epbs o.bp l i := by
      refine dies_of_covered l ?_ (.inr ht) ?_
      · have hlt : (k.lo - 1) >>> (l * g.epbs) < i := not_le.mp hcon
        rw [shiftRight_eq_div_pow, div_lt_iff_lt_mul (Nat.two_pow_pos _), ← shiftLeft_eq] at hlt
        omega
      · rcases (Synced.of_freed hf).kept l i with h | h
        · exact absurd h hne
        · rwa [← h]
    exact hne (hf.gone l i hd).2

/-- **ONE RANGE**: `dnode_sync_free_range` kills what the range dooms. -/
theorem dnodeSyncFreeRange_freed (hwf : WellFormed g o) (h : r.blkid ≤ o.maxblkid) :
    ∃ o', dnodeSyncFreeRange g r.blkid r.nblks o
        = some (lower (r.cut o.maxblkid h).trunc r.blkid o') ∧
      Freed g o o' (Dies (r.cut o.maxblkid h) g.epbs o.bp) := by
  have hpos := r.pos
  generalize hk : r.cut o.maxblkid h = k
  have hlo : k.lo = r.blkid := hk ▸ rfl
  have hlast : k.last ≤ o.maxblkid := hk ▸ min_le_right _ _
  have htrunc : k.trunc = decide (o.maxblkid < r.blkid + r.nblks) := hk ▸ rfl
  have hmax : k.trunc = true → k.last = o.maxblkid := by
    intro ht
    rw [htrunc, decide_eq_true_eq] at ht
    rw [← hk]
    exact min_eq_right (by omega)
  -- `nblks` as the code cuts it
  generalize hn : (if k.trunc then o.maxblkid - r.blkid + 1 else r.nblks) = n
  have hnblks : k.lo + n - 1 = k.last := by
    rw [← hn, ← hk]
    simp only [Range.cut, decide_eq_true_eq]
    split <;> omega
  have hnpos : 0 < n := by
    rw [← hn]
    split <;> omega
  have hle := k.le
  rw [dnodeSyncFreeRange, if_neg (not_lt.mpr h)]
  simp only [← htrunc, hn]
  by_cases hone : g.nlevels = 1
  · have htop := hwf.top
    rw [hone, Nat.zero_mul] at htop
    have hsize : r.blkid + n ≤ Buf.dnode.size g := by
      rw [Buf.size]
      omega
    obtain ⟨o', _, hrun, hf⟩ := freeBlocks_spec hsize o
    refine ⟨o', ?_, hf.congr fun l i => ?_⟩
    · rw [if_pos hone, if_neg (by omega)]
      exact congrArg (Option.bind · _) hrun
    constructor
    · rintro ⟨hne, j, h1, h2, hp⟩
      obtain ⟨rfl, rfl⟩ := Prod.mk.inj hp
      rw [hone] at hne ⊢
      refine ⟨hne, ?_, .inl ?_⟩
      · simpa [hlo] using h1
      · simp
        omega
    · intro hd
      have hl : l = 0 := by
        have := (hwf.bounded l i hd.ptr).1
        omega
      subst hl
      have h1 : k.lo ≤ i := by simpa using hd.meets.1
      have h2 : i ≤ k.last := by simpa using hwf.le_last hmax hd.ptr hd.meets
      exact ⟨hd.ptr, i, by omega, by omega, by rw [Buf.pointee, hone]⟩
  · obtain ⟨m, hm⟩ : ∃ m, g.nlevels = m + 2 := by
      have := hwf.levels
      exact ⟨g.nlevels - 2, by omega⟩
    have htop := hwf.top
    rw [hm] at htop
    have hslot : ∀ i, r.blkid >>> ((m + 1) * g.epbs) ≤ i → i ≤ k.last >>> ((m + 1) * g.epbs) →
        r.blkid >>> ((m + 1) * g.epbs) + (i - r.blkid >>> ((m + 1) * g.epbs)) < Buf.dnode.size g ∧
        Buf.dnode.pointee g (r.blkid >>> ((m + 1) * g.epbs) +
          (i - r.blkid >>> ((m + 1) * g.epbs))) = (m + 1, i) := by
      intro i h1 h2
      have hi := h2.trans (shiftRight_mono hlast ((m + 1) * g.epbs))
      rw [add_sub_of_le h1, Buf.pointee, hm]
      exact ⟨lt_of_le_of_lt hi htop, rfl⟩
    have hsub : ∀ i o1, r.blkid >>> ((m + 1) * g.epbs) ≤ i → i ≤ k.last >>> ((m + 1) * g.epbs) →
        WellFormed g o1 → o1.maxblkid = o.maxblkid → o1.bp (m + 1) i ≠ none →
        FreesBelow k g (freeChildren g k.lo n k.trunc m) (m + 1) i o1 :=
      fun i o1 h1 h2 hwf1 hmax1 hne =>
        freeChildren_spec hnblks m hwf1 (by omega) (hmax1 ▸ hmax) (hlo ▸ h1) h2 hne
    obtain ⟨o', _, _, hrun, hf, -⟩ := freeSlots_spec hwf (by omega) hslot hsub
      (hlo ▸ shiftRight_mono hle _) true
    refine ⟨o', ?_, hf.congr fun l i => ⟨fun hd => hd.2.2.2, fun hd => ?_⟩⟩
    · simp only [hm, ← hlo, hnblks] at hrun ⊢
      exact congrArg (Option.bind · _) hrun
    have hl : l ≤ m + 1 := by
      have := (hwf.bounded l i hd.ptr).1
      omega
    have hup : ∀ a, a >>> (l * g.epbs) >>> ((m + 1 - l) * g.epbs)
        = a >>> ((m + 1) * g.epbs) := by
      intro a
      rw [← shiftRight_add, ← add_mul, add_sub_of_le hl]
    have h1 := shiftRight_mono hd.meets.1 ((m + 1 - l) * g.epbs)
    have h2 := shiftRight_mono (hwf.le_last hmax hd.ptr hd.meets) ((m + 1 - l) * g.epbs)
    rw [hup] at h1 h2
    exact ⟨hl, hlo ▸ h1, lt_succ_of_le h2, hd⟩

theorem dnodeSyncFreeRange_spec (hwf : WellFormed g o) (r : Range) :
    ∃ o', dnodeSyncFreeRange g r.blkid r.nblks o = some o' ∧ WellFormed g o' ∧ Synced o o' ∧
      o'.image = punch g.epbs o.image r := by
  by_cases h : r.blkid ≤ o.maxblkid
  · obtain ⟨o', hrun, hf⟩ := dnodeSyncFreeRange_freed hwf h
    have hsync : Synced o (lower (r.cut o.maxblkid h).trunc r.blkid o') := by
      have := Synced.of_freed hf
      rw [DnodeSync.lower]
      split
      · exact ⟨this.kept, this.killed⟩
      · exact this
    refine ⟨_, hrun, hwf.lower h hf, hsync, ?_⟩
    rw [punch, dif_pos (show r.blkid ≤ o.image.maxblkid from h)]
    have hbp : o'.bp = (punch g.epbs o.image r).bp := by
      funext l i
      rw [punch, dif_pos (show r.blkid ≤ o.image.maxblkid from h)]
      by_cases hd : Dies (r.cut o.maxblkid h) g.epbs o.bp l i
      · rw [(hf.gone l i hd).2]
        exact (if_pos hd).symm
      · rw [hf.kept l i hd]
        exact (if_neg hd).symm
    rw [punch, dif_pos (show r.blkid ≤ o.image.maxblkid from h)] at hbp
    have hmax : (if r.blkid ≠ 0 then r.blkid - 1 else 0) = r.blkid - 1 := by split <;> omega
    simp only [DnodeSync.lower, Range.cut, decide_eq_true_eq, hmax]
    by_cases ht : o.maxblkid < r.blkid + r.nblks
    · rw [if_pos ht, if_pos (show o.image.maxblkid < r.blkid + r.nblks from ht), hbp]
      rfl
    · rw [if_neg ht, if_neg (show ¬ o.image.maxblkid < r.blkid + r.nblks from ht), Object.image,
        hbp, hf.maxblkid]
      rfl
  · refine ⟨o, ?_, hwf, Synced.refl o, ?_⟩
    · rw [dnodeSyncFreeRange, if_pos (not_le.mp h)]
    · rw [punch, dif_neg (show ¬ r.blkid ≤ o.image.maxblkid from h)]

/-! ## What a range takes out -/

theorem punch_bp_eq_none (h : r.blkid ≤ o.maxblkid) {l i : Nat} :
    (punch e o.image r).bp l i = none ↔ o.bp l i = none ∨ Dies (r.cut o.maxblkid h) e o.bp l i := by
  rw [punch, dif_pos (show r.blkid ≤ o.image.maxblkid from h)]
  by_cases hd : Dies (r.cut o.maxblkid h) e o.bp l i
  · exact (iff_true_left (if_pos hd)).mpr (.inr hd)
  · rw [or_iff_left hd]
    exact iff_of_eq (congrArg (· = none) (if_neg hd))

theorem punch_of_lt {v : Image B} (h : ¬ r.blkid ≤ v.maxblkid) : punch e v r = v :=
  dif_neg h

theorem punch_level_zero (hwf : WellFormed g o) (r : Range) (i : Nat) :
    (punch g.epbs o.image r).bp 0 i = none ↔ o.bp 0 i = none ∨ r.Mem i := by
  have hpos := r.pos
  have hbound : o.bp 0 i ≠ none → i ≤ o.maxblkid := fun hne => by
    simpa using (hwf.bounded 0 i hne).2
  by_cases h : r.blkid ≤ o.maxblkid
  · refine (punch_bp_eq_none h).trans (or_congr_right' fun hne => ?_)
    refine (and_iff_right hne).trans ?_
    have hi := hbound hne
    simp only [Meets, Range.cut, Range.Mem, zero_mul, decide_eq_true_eq]
    omega
  · rw [punch_of_lt (v := o.image) h]
    refine (or_iff_left_of_imp fun hm => ?_).symm
    by_contra hne
    exact h ((hm.1).trans (hbound hne))

theorem punch_maxblkid_le (e : Nat) (v : Image B) (r : Range) :
    (punch e v r).maxblkid ≤ v.maxblkid := by
  rw [punch]
  split
  · next h =>
      simp only
      split <;> omega
  · exact le_rfl

theorem punch_maxblkid_of_end (e : Nat) (v : Image B)
    (h : v.maxblkid < r.blkid + r.nblks) : (punch e v r).maxblkid ≤ r.blkid - 1 := by
  rw [punch]
  split
  · exact le_rfl
  · next h' => exact le_sub_one_of_lt (not_le.mp h')

theorem punch_of_covered (hwf : WellFormed g o) {l i : Nat} (hlo : r.blkid ≤ i <<< (l * g.epbs))
    (hend : (i + 1) <<< (l * g.epbs) ≤ r.blkid + r.nblks ∨ o.maxblkid < r.blkid + r.nblks) :
    (punch g.epbs o.image r).bp l i = none := by
  by_cases h : r.blkid ≤ o.maxblkid
  · refine (punch_bp_eq_none h).mpr ?_
    by_contra hcon
    obtain ⟨hne, hd⟩ := not_or.mp hcon
    refine hd (dies_of_covered l hlo ?_ hne)
    simp only [Range.cut, decide_eq_true_eq]
    omega
  rw [punch_of_lt (v := o.image) h]
  by_contra hne
  have hi : i <<< (l * g.epbs) ≤ o.maxblkid := by
    rw [shiftLeft_eq]
    refine (mul_le_mul_right _ (hwf.bounded l i hne).2).trans ?_
    rw [shiftRight_eq_div_pow]
    exact div_mul_le_self ..
  exact h (hlo.trans hi)

/-! ## The loop of `dnode_sync` -/

structure Punched (g : Geometry B) (ranges : List Range) (o o' : Object B) : Prop where
  wellFormed : WellFormed g o'
  synced : Synced o o'
  image : o'.image = ranges.foldl (punch g.epbs) o.image
  /-- Of the level-0 blocks exactly those in the ranges are gone. -/
  level_zero : ∀ i, o'.bp 0 i = none ↔ o.bp 0 i = none ∨ ∃ r ∈ ranges, r.Mem i
  /-- Blocks that lie wholly in a range are gone. -/
  covered : ∀ r ∈ ranges, ∀ l i, r.blkid ≤ i <<< (l * g.epbs) →
    (i + 1) <<< (l * g.epbs) ≤ r.blkid + r.nblks ∨ o.maxblkid < r.blkid + r.nblks → o'.bp l i = none
  maxblkid_le : o'.maxblkid ≤ o.maxblkid
  /-- The bound falls below a range that reaches the last block. -/
  lowered : ∀ r ∈ ranges, o.maxblkid < r.blkid + r.nblks → o'.maxblkid ≤ r.blkid - 1

theorem foldlM_punched (ranges : List Range) {o : Object B} (hwf : WellFormed g o) : ∃ o',
    ranges.foldlM (fun o (r : Range) => dnodeSyncFreeRange g r.blkid r.nblks o) o = some o' ∧
    Punched g ranges o o' := by
  induction ranges generalizing o with
  | nil =>
    exact ⟨o, rfl, hwf, Synced.refl o, rfl, by simp, by simp, le_rfl, by simp⟩
  | cons r ranges ih =>
    obtain ⟨o1, hrun1, hwf1, hs1, him1⟩ := dnodeSyncFreeRange_spec hwf r
    obtain ⟨o', hrun, h⟩ := ih hwf1
    have hbp : ∀ l i, o1.bp l i = (punch g.epbs o.image r).bp l i := fun l i => by rw [← him1]; rfl
    have hmax : o1.maxblkid = (punch g.epbs o.image r).maxblkid := by rw [← him1]; rfl
    have hmax1 : o1.maxblkid ≤ o.maxblkid := hmax ▸ punch_maxblkid_le g.epbs o.image r
    refine ⟨o', ?_, ?_⟩
    · rw [foldlM_cons, hrun1]
      exact hrun
    constructor
    · exact h.wellFormed
    · exact hs1.trans h.synced
    · rw [h.image, him1, foldl_cons]
    · intro i
      rw [h.level_zero, hbp, punch_level_zero hwf]
      simp only [mem_cons, exists_eq_or_imp, or_assoc]
    · intro q hq l i hlo hend
      rcases mem_cons.mp hq with rfl | hq
      · rcases h.synced.kept l i with hn | hn
        · exact hn
        · rw [hn, hbp]
          exact punch_of_covered hwf hlo hend
      · exact h.covered q hq l i hlo (hend.imp_right fun hend => lt_of_le_of_lt hmax1 hend)
    · exact h.maxblkid_le.trans hmax1
    · intro q hq hend
      rcases mem_cons.mp hq with rfl | hq
      · refine h.maxblkid_le.trans ?_
        rw [hmax]
        exact punch_maxblkid_of_end g.epbs o.image hend
      · exact h.lowered q hq (lt_of_le_of_lt hmax1 hend)

/-- **SYNCING THE FREED RANGES**: for every dnode in order and every set of ranges the loop of
    `dnode_sync` stays inside the arrays of block pointers; it kills, once each, exactly the
    pointers that become holes and leaves the others alone.  Of the level-0 blocks those in the
    ranges become holes; of the indirect blocks those that a range dooms in its turn (`punch`),
    among them all that lie wholly in a range, and none with a level-0 block left.
    `dn_maxblkid` bounds what remains, and falls below a range that reaches the last block. -/
theorem dnode_sync_frees (g : Geometry B) (o : Object B) (ranges : List Range)
    (hwf : WellFormed g o) :
    ∃ o' new, dnodeSyncRanges g ranges o = some o' ∧ o'.kills = o.kills ++ new ∧ new.Nodup ∧
      (∀ l i b, (l, i, b) ∈ new ↔ o.bp l i = some b ∧ o'.bp l i = none) ∧
      (∀ l i, o'.bp l i = none ∨ o'.bp l i = o.bp l i) ∧
      (∀ i b, (0, i, b) ∈ new ↔ o.bp 0 i = some b ∧ ∃ r ∈ ranges, r.Mem i) ∧
      (∀ l i b, (l, i, b) ∈ new → ∀ c, c >>> (l * g.epbs) = i → o'.bp 0 c = none) ∧
      (∀ r ∈ ranges, ∀ l i b, o.bp l i = some b → r.blkid ≤ i <<< (l * g.epbs) →
        (i + 1) <<< (l * g.epbs) ≤ r.blkid + r.nblks ∨ o.maxblkid < r.blkid + r.nblks →
        (l, i, b) ∈ new) ∧ o'.image = ranges.reverse.foldl (punch g.epbs) o.image ∧
      WellFormed g o' ∧
      ∀ r ∈ ranges, o.maxblkid < r.blkid + r.nblks → o'.maxblkid ≤ r.blkid - 1 := by
  obtain ⟨o', hrun, h⟩ := foldlM_punched ranges.reverse hwf
  obtain ⟨new, hkills, hnodup, hnew⟩ := h.synced.killed
  refine ⟨o', new, hrun, hkills, hnodup, hnew, h.synced.kept, ?_, ?_, ?_, h.image, h.wellFormed, ?_⟩
  · intro i b
    rw [hnew, h.level_zero]
    refine and_congr_right fun hb => ?_
    simp only [hb, mem_reverse, reduceCtorEq, false_or]
  · rintro l i b hm c rfl
    obtain ⟨hb, hgone⟩ := (hnew l _ b).mp hm
    by_contra hne
    have hl := (hwf.bounded l _ (hb ▸ Option.some_ne_none b)).1
    refine h.wellFormed.above hne l (by omega) ?_
    rwa [zero_add]
  · intro r hr l i b hb hlo hend
    exact (hnew l i b).mpr ⟨hb, h.covered r (mem_reverse.mpr hr) l i hlo hend⟩
  · intro r hr hend
    exact h.lowered r (mem_reverse.mpr hr) hend

def smallGeometry : Geometry Nat := ⟨2, 3, 3, fun _ => 512⟩

/-- The blocks 4 and 8, each the only one of its indirect block. -/
def sparseObject : Object Nat where
  bp l i :=
    if l = 0 then (if i = 4 ∨ i = 8 then some i else none)
    else if l = 1 then (if i < 2 then some (100 + i) else none)
    else none
  maxblkid := 8
  used := 2048
  kills := []

theorem sparseObject_wellFormed : WellFormed smallGeometry sparseObject := by
  constructor
  · decide
  · decide
  · intro l i hne
    match l with
    | 0 =>
      have hi : i = 4 ∨ i = 8 := by
        by_contra hcon
        simp [sparseObject, hcon] at hne
      rcases hi with rfl | rfl <;> decide
    | 1 =>
      have hi : i < 2 := by
        by_contra hcon
        exact hne (if_neg hcon)
      refine ⟨by decide, le_trans (le_of_lt_succ hi) (by decide)⟩
    | l + 2 => simp [sparseObject] at hne
  · intro l i hne hl
    have hl : l = 0 := by
      have : l + 1 < 2 := hl
      omega
    subst hl
    have hi : i = 4 ∨ i = 8 := by
      by_contra hcon
      simp [sparseObject, hcon] at hne
    rcases hi with rfl | rfl <;> decide

theorem dnode_sync_frees_sparse :
    ∃ o' new, dnodeSyncRanges smallGeometry [⟨2, 5, by decide⟩, ⟨8, 1, by decide⟩] sparseObject
        = some o' ∧ o'.kills = new ∧
      ∀ i b, (0, i, b) ∈ new ↔ sparseObject.bp 0 i = some b ∧
        ∃ r ∈ [(⟨2, 5, by decide⟩ : Range), ⟨8, 1, by decide⟩], r.Mem i := by
  obtain ⟨o', new, hrun, hkills, -, -, -, hzero, -⟩ := dnode_sync_frees smallGeometry sparseObject
    [⟨2, 5, by decide⟩, ⟨8, 1, by decide⟩] sparseObject_wellFormed
  exact ⟨o', new, hrun, hkills, hzero⟩

/-- **AN EMPTY INDIRECT BLOCK STAYS**: the range frees block 4, the only one below the indirect
    block `(1, 0)`, but does not meet the first slots of it; the block is not killed. -/
theorem empty_indirect_stays :
    WellFormed smallGeometry sparseObject ∧
    (dnodeSyncRanges smallGeometry [⟨4, 1, by decide⟩] sparseObject).map (fun o' =>
      ((range 8).map (o'.bp 0), o'.bp 1 0, o'.kills))
      = some (replicate 8 none, some 100, [(0, 4, 4)]) :=
  ⟨sparseObject_wellFormed, by decide⟩

end Sirius.DnodeSync
