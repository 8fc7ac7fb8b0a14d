import Sirius.Lib.SegSet
import Mathlib.Data.Nat.ModEq
import Mathlib.Tactic.Linarith

/-! # Space maps — the in-core tree of segments

    `space_map.c` keeps a set of disk offsets as an AVL tree of segments, modelled by its
    in-order list; a `Seg` has `ss_start` and `ss_end` as `start` and `stop`.  Every `VERIFY`
    and every `zfs_panic_recover` is an error of the model, so that "the map was updated"
    always means "and nothing panicked".

    * `SpaceMap g` carries what the `VERIFY`s of `space_map_add` establish: the segments lie
      inside the map and on its sectors, and `sm_space` is the sum of their lengths;
    * `spaceMapAdd_spec` and `spaceMapRemove_spec` say what the updates do to the set. -/

namespace Sirius.Space

open Sirius.Lib Finset

/-- `sm_start`, `sm_size` and `sm_shift`, which `space_map_create` fixes for the
    life of a map.  Its callers pass a nonempty range of whole sectors, and the
    64-bit end of the range does not wrap. -/
structure SpaceGeom where
  smStart : ℕ
  smSize : ℕ
  smShift : ℕ
  size_pos : 0 < smSize
  fits : smStart + smSize < 2 ^ 64
  start_dvd : 2 ^ smShift ∣ smStart
  size_dvd : 2 ^ smShift ∣ smSize

/-- The offsets `[sm_start, sm_start + sm_size)`. -/
def SpaceGeom.whole (g : SpaceGeom) : Finset ℕ := Ico g.smStart (g.smStart + g.smSize)

theorem SpaceGeom.card_whole (g : SpaceGeom) : g.whole.card = g.smSize := by
  rw [SpaceGeom.whole, Nat.card_Ico, Nat.add_sub_cancel_left]

/-- A range of whole sectors of the map: what `space_map_add` insists on. -/
@[mk_iff]
structure OnMap (g : SpaceGeom) (ss : Seg) : Prop where
  lt : ss.start < ss.stop
  lo : g.smStart ≤ ss.start
  hi : ss.stop ≤ g.smStart + g.smSize
  start_dvd : 2 ^ g.smShift ∣ ss.start
  stop_dvd : 2 ^ g.smShift ∣ ss.stop

instance (g : SpaceGeom) (ss : Seg) : Decidable (OnMap g ss) :=
  decidable_of_iff _ (onMap_iff g ss).symm

variable {ss : Seg} {g : SpaceGeom}

theorem OnMap.len_ne_zero (h : OnMap g ss) : ss.len ≠ 0 := Nat.sub_ne_zero_of_lt h.lt

theorem OnMap.len_dvd (h : OnMap g ss) : 2 ^ g.smShift ∣ ss.len :=
  Nat.dvd_sub h.stop_dvd h.start_dvd

theorem OnMap.start_add_len (h : OnMap g ss) :
    ss.start + ss.len = ss.stop := Nat.add_sub_of_le h.lt.le

theorem OnMap.points_subset (h : OnMap g ss) : ss.points ⊆ g.whole := Ico_subset_Ico h.lo h.hi

/-- `space_map_t`: the tree and the running sum of its segments. -/
structure SpaceMap (g : SpaceGeom) where
  smRoot : SegSet
  smSpace : ℕ
  space_eq : smSpace = smRoot.total
  onMap : ∀ ss ∈ smRoot.segs, OnMap g ss

/-- The failed checks: the `VERIFY`s, the calls of `zfs_panic_recover`, a call through an ops vector
    that is not set, and the `ASSERT`s of `metaslab_sync_done`. -/
inductive SmPanic
  | zeroSize | beforeStart | pastEnd | overfull | startPhase | sizePhase
  | allocatingAllocated | overlapsNeighbor
  | freeingFree | startsBeforeSeg | endsPastSeg | underflow
  | spaceNotZero | spaceMismatch | entryPhase | noOps | notSynced
  deriving DecidableEq

section Maps

variable {g : SpaceGeom} {sm : SpaceMap g} {start size stop : ℕ} {ss : Seg}
  {before after segs : List Seg}

def SpaceMap.points (sm : SpaceMap g) : Finset ℕ := sm.smRoot.points

theorem SpaceMap.card_points (sm : SpaceMap g) : sm.points.card = sm.smSpace := by
  rw [sm.space_eq]
  exact sm.smRoot.card_points

theorem SpaceMap.points_subset (sm : SpaceMap g) : sm.points ⊆ g.whole := by
  intro x hx
  obtain ⟨ss, hss, hx⟩ := mem_cover.mp hx
  obtain ⟨hlo, hhi⟩ := Seg.mem_points.mp hx
  exact mem_Ico.mpr ⟨(sm.onMap ss hss).lo.trans hlo, hhi.trans_le (sm.onMap ss hss).hi⟩

theorem SpaceMap.space_zero_iff : sm.smSpace = 0 ↔ sm.points = ∅ := by
  rw [← sm.card_points, card_eq_zero]

def spaceMapCreate (g : SpaceGeom) : SpaceMap g where
  smRoot := SegSet.empty
  smSpace := 0
  space_eq := rfl
  onMap := by
    intro ss hss
    exact nomatch hss

@[simp] theorem points_spaceMapCreate : (spaceMapCreate g).points = ∅ := rfl

/-- `space_map_seg_compare`: overlapping segments compare equal. -/
def spaceMapSegCompare (s1 s2 : Seg) : Ordering :=
  if s1.start < s2.start then
    if s2.start < s1.stop then .eq else .lt
  else if s2.start < s1.start then
    if s1.start < s2.stop then .eq else .gt
  else .eq

theorem segCompare_monotone {segs : List Seg} (hsep : Separated segs) (q : Seg) :
    segs.Pairwise fun a b => (spaceMapSegCompare q a = .lt → spaceMapSegCompare q b = .lt) ∧
      (spaceMapSegCompare q b = .gt → spaceMapSegCompare q a = .gt) := by
  refine hsep.2.imp_of_mem fun {a b} ha hb hab => ?_
  have h1 := hsep.1 a ha
  rw [spaceMapSegCompare, spaceMapSegCompare]
  split_ifs <;> simp <;> omega

theorem spaceMapSegCompare_eq_iff {s1 s2 : Seg} (h1 : s1.start < s1.stop)
    (h2 : s2.start < s2.stop) :
    spaceMapSegCompare s1 s2 = .eq ↔ s1.start < s2.stop ∧ s2.start < s1.stop := by
  unfold spaceMapSegCompare
  split_ifs <;> simp <;> omega

/-- `avl_find` for the range `[start, stop)`.  Several segments may overlap the range, and the
    tree's shape decides which is met first; the callers only tell apart "none", "one that contains
    the range", which is then the only one, and "another", which is fatal whichever it is. -/
def avlFind (sm : SpaceMap g) (start stop : ℕ) : Option Seg :=
  sm.smRoot.segs.find? fun ss => spaceMapSegCompare ⟨start, stop⟩ ss == .eq

theorem avlFind_eq_none_iff (hlt : start < stop) :
    avlFind sm start stop = none ↔ Disjoint sm.points (Ico start stop) := by
  rw [avlFind, List.find?_eq_none, disjoint_left]
  constructor
  · intro h x hx hmem
    obtain ⟨ss, hss, hx⟩ := mem_cover.mp hx
    obtain ⟨hlo, hhi⟩ := Seg.mem_points.mp hx
    obtain ⟨hxlo, hxhi⟩ := mem_Ico.mp hmem
    refine h ss hss (beq_iff_eq.mpr ?_)
    exact (spaceMapSegCompare_eq_iff hlt (sm.onMap ss hss).lt).mpr
      ⟨hxlo.trans_lt hhi, hlo.trans_lt hxhi⟩
  · intro h ss hss heq
    obtain ⟨h1, h2⟩ := (spaceMapSegCompare_eq_iff hlt (sm.onMap ss hss).lt).mp (beq_iff_eq.mp heq)
    -- the larger of the two starts lies in both ranges
    refine h (a := max start ss.start) (mem_cover.mpr ⟨ss, hss, Seg.mem_points.mpr ?_⟩)
      (mem_Ico.mpr ?_)
    · exact ⟨le_max_right _ _, max_lt h1 (sm.onMap ss hss).lt⟩
    · exact ⟨le_max_left _ _, max_lt hlt h2⟩

theorem avlFind_of_subset (hlt : start < stop) (hsub : Ico start stop ⊆ sm.points) :
    ∃ ss ∈ sm.smRoot.segs, avlFind sm start stop = some ss ∧ ss.start ≤ start ∧ stop ≤ ss.stop := by
  obtain ⟨ss, hss, hlo, hhi⟩ := sm.smRoot.separated.exists_of_subset hlt hsub
  cases hf : avlFind sm start stop with
  | none =>
    have hdisj := (avlFind_eq_none_iff hlt).mp hf
    have hmem := left_mem_Ico.mpr hlt
    exact absurd hmem (disjoint_left.mp hdisj (hsub hmem))
  | some tt =>
    have htt := List.mem_of_find?_eq_some hf
    have hcmp := List.find?_some hf
    obtain ⟨h1, h2⟩ := (spaceMapSegCompare_eq_iff hlt (sm.onMap tt htt).lt).mp (beq_iff_eq.mp hcmp)
    rcases sm.smRoot.separated.trichotomy hss htt with rfl | hgap | hgap
    · exact ⟨ss, hss, rfl, hlo, hhi⟩
    · exact absurd (hhi.trans_lt hgap) (lt_asymm h2)
    · exact absurd (hgap.trans_le hlo) (lt_asymm h1)

/-! ## `space_map_add` -/

/-- The neighbour before the new range: merged with it if it ends where the range
    starts.  Returns the segments left of the range and where the merged one starts. -/
def mergeBefore (before : List Seg) (start : ℕ) : List Seg × ℕ :=
  match before.getLast? with
  | some ssBefore => if ssBefore.stop = start then (before.dropLast, ssBefore.start)
    else (before, start)
  | none => (before, start)

def mergeAfter (after : List Seg) (stop : ℕ) : ℕ × List Seg :=
  match after with
  | ssAfter :: rest => if ssAfter.start = stop then (ssAfter.stop, rest) else (stop, after)
  | [] => (stop, [])

/-- The tree after `[start, stop)` was added: each neighbour is merged or kept. -/
def insertSegs (segs : List Seg) (start stop : ℕ) : List Seg :=
  let b := mergeBefore (segs.filter fun ss => ss.start < start) start
  let a := mergeAfter (segs.filter fun ss => start ≤ ss.start) stop
  b.1 ++ ⟨b.2, a.1⟩ :: a.2

theorem mergeBefore_spec (hsep : Separated before) (hb : ∀ p ∈ before, p.stop ≤ start) :
    (mergeBefore before start).1.Sublist before
      ∧ (∀ p ∈ (mergeBefore before start).1, p.stop < (mergeBefore before start).2)
      ∧ (mergeBefore before start).2 ≤ start
      ∧ cover (mergeBefore before start).1 ∪ Ico (mergeBefore before start).2 start
          = cover before
      ∧ ∀ P : ℕ → Prop, P start → (∀ p ∈ before, P p.start) → P (mergeBefore before start).2 := by
  cases hl : before.getLast? with
  | none =>
    obtain rfl := List.getLast?_eq_none_iff.mp hl
    exact ⟨List.Sublist.refl _, by simp [mergeBefore], le_rfl, by simp [mergeBefore],
      fun P hP _ => hP⟩
  | some p =>
    obtain ⟨pre, rfl⟩ := List.getLast?_eq_some_iff.mp hl
    have hp : p ∈ pre ++ [p] := List.mem_append_right _ (List.mem_singleton_self p)
    have hpre : ∀ q ∈ pre, q.stop < p.start := fun q hq =>
      (List.pairwise_append.mp hsep.2).2.2 q hq p (List.mem_singleton_self p)
    by_cases hstop : p.stop = start
    · have heq : mergeBefore (pre ++ [p]) start = (pre, p.start) := by
        rw [mergeBefore]
        simp [hstop]
      rw [heq]
      refine ⟨List.sublist_append_left _ _, hpre, ?_, ?_, fun P _ hP => hP p hp⟩
      · exact (hsep.1 p hp).le.trans hstop.le
      · rw [cover_append, cover_cons, cover_nil, union_empty, Seg.points, hstop]
    · have heq : mergeBefore (pre ++ [p]) start = (pre ++ [p], start) := by
        rw [mergeBefore]
        simp [hstop]
      rw [heq]
      have hlt : p.stop < start := lt_of_le_of_ne (hb p hp) hstop
      refine ⟨List.Sublist.refl _, ?_, le_rfl, by simp, fun P hP _ => hP⟩
      intro q hq
      rcases List.mem_append.mp hq with hq | hq
      · exact (hpre q hq).trans ((hsep.1 p hp).trans hlt)
      · exact (List.mem_singleton.mp hq) ▸ hlt

theorem mergeAfter_spec (hsep : Separated after) (ha : ∀ q ∈ after, stop ≤ q.start) :
    (mergeAfter after stop).2.Sublist after
      ∧ (∀ q ∈ (mergeAfter after stop).2, (mergeAfter after stop).1 < q.start)
      ∧ stop ≤ (mergeAfter after stop).1
      ∧ Ico stop (mergeAfter after stop).1 ∪ cover (mergeAfter after stop).2
          = cover after
      ∧ ∀ P : ℕ → Prop, P stop → (∀ q ∈ after, P q.stop) → P (mergeAfter after stop).1 := by
  cases after with
  | nil => exact ⟨List.Sublist.refl _, by simp [mergeAfter], le_rfl, by simp [mergeAfter],
        fun P hP _ => hP⟩
  | cons q rest =>
    obtain ⟨hq, hrest, -⟩ := separated_cons.mp hsep
    have hmem : q ∈ q :: rest := List.mem_cons_self
    by_cases hstart : q.start = stop
    · have heq : mergeAfter (q :: rest) stop = (q.stop, rest) := if_pos hstart
      rw [heq]
      refine ⟨List.sublist_cons_self _ _, hrest, ?_, ?_, fun P _ hP => hP q hmem⟩
      · exact hstart ▸ hq.le
      · rw [cover_cons, Seg.points, hstart]
    have heq : mergeAfter (q :: rest) stop = (stop, q :: rest) := if_neg hstart
    rw [heq]
    have hlt : stop < q.start := lt_of_le_of_ne (ha q hmem) (Ne.symm hstart)
    refine ⟨List.Sublist.refl _, ?_, le_rfl, by simp, fun P hP _ => hP⟩
    intro t ht
    rcases List.mem_cons.mp ht with rfl | ht
    · exact hlt
    · exact hlt.trans (hq.trans (hrest t ht))

/-- What the checks of `space_map_add` leave to be true of an added range. -/
structure Insertable (sm : SpaceMap g) (ss : Seg) : Prop where
  onMap : OnMap g ss
  clear : Disjoint sm.points ss.points

section

variable (h : Insertable sm ss)

include h

theorem Insertable.before_le :
    ∀ p ∈ sm.smRoot.segs.filter (fun t => t.start < ss.start), p.stop ≤ ss.start := by
  intro p hp
  obtain ⟨hmem, hlt⟩ := List.mem_filter.mp hp
  by_contra hgt
  -- otherwise the first offset of the range is in `p`
  have hin : ss.start ∈ p.points := Seg.mem_points.mpr ⟨(of_decide_eq_true hlt).le, not_le.mp hgt⟩
  exact disjoint_left.mp h.clear (points_subset_cover hmem hin)
    (Seg.mem_points.mpr ⟨le_rfl, h.onMap.lt⟩)

theorem Insertable.le_after :
    ∀ q ∈ sm.smRoot.segs.filter (fun t => ss.start ≤ t.start), ss.stop ≤ q.start := by
  intro q hq
  obtain ⟨hmem, hle⟩ := List.mem_filter.mp hq
  by_contra hgt
  -- otherwise the first offset of `q` is in the range
  have hin : q.start ∈ ss.points := Seg.mem_points.mpr ⟨of_decide_eq_true hle, not_le.mp hgt⟩
  exact disjoint_left.mp h.clear
    (points_subset_cover hmem (Seg.mem_points.mpr ⟨le_rfl, (sm.onMap q hmem).lt⟩)) hin

theorem Insertable.separated : Separated (insertSegs sm.smRoot.segs ss.start ss.stop) := by
  have hsep := sm.smRoot.separated
  obtain ⟨hsub, hgap, hle, -, -⟩ := mergeBefore_spec (hsep.filter _) h.before_le
  obtain ⟨hsub', hgap', hle', -, -⟩ := mergeAfter_spec (hsep.filter _) h.le_after
  exact Separated.splice ((hsep.filter _).sublist hsub) ((hsep.filter _).sublist hsub')
    (hle.trans_lt (h.onMap.lt.trans_le hle')) hgap hgap'

theorem Insertable.cover_eq :
    cover (insertSegs sm.smRoot.segs ss.start ss.stop) = sm.points ∪ ss.points := by
  have hsep := sm.smRoot.separated
  obtain ⟨-, -, hle, hcov, -⟩ := mergeBefore_spec (hsep.filter _) h.before_le
  obtain ⟨-, -, hle', hcov', -⟩ := mergeAfter_spec (hsep.filter _) h.le_after
  have hpoints : sm.points = _ := congrArg cover (hsep.eq_filter_append ss.start)
  rw [hpoints, cover_append, ← hcov, ← hcov', insertSegs, cover_append, cover_cons, Seg.points,
    Seg.points, ← Ico_union_Ico_eq_Ico hle (h.onMap.lt.le.trans hle'),
    ← Ico_union_Ico_eq_Ico h.onMap.lt.le hle']
  ac_rfl

theorem Insertable.onMap_insert : ∀ t ∈ insertSegs sm.smRoot.segs ss.start ss.stop, OnMap g t := by
  have hsep := sm.smRoot.separated
  obtain ⟨hsub, -, hle, -, hfrom⟩ := mergeBefore_spec (hsep.filter _) h.before_le
  obtain ⟨hsub', -, hle', -, hfrom'⟩ := mergeAfter_spec (hsep.filter _) h.le_after
  intro t ht
  rcases List.mem_append.mp ht with ht | ht
  · exact sm.onMap t (List.mem_of_mem_filter (hsub.subset ht))
  rcases List.mem_cons.mp ht with rfl | ht
  · obtain ⟨hlo, hdvd⟩ := hfrom (fun x => g.smStart ≤ x ∧ 2 ^ g.smShift ∣ x)
      ⟨h.onMap.lo, h.onMap.start_dvd⟩ fun p hp =>
        ⟨(sm.onMap p (List.mem_of_mem_filter hp)).lo,
          (sm.onMap p (List.mem_of_mem_filter hp)).start_dvd⟩
    obtain ⟨hhi, hdvd'⟩ := hfrom' (fun x => x ≤ g.smStart + g.smSize ∧ 2 ^ g.smShift ∣ x)
      ⟨h.onMap.hi, h.onMap.stop_dvd⟩ fun q hq =>
        ⟨(sm.onMap q (List.mem_of_mem_filter hq)).hi,
          (sm.onMap q (List.mem_of_mem_filter hq)).stop_dvd⟩
    exact ⟨hle.trans_lt (h.onMap.lt.trans_le hle'), hlo, hhi, hdvd, hdvd'⟩
  · exact sm.onMap t (List.mem_of_mem_filter (hsub'.subset ht))

/-- The update of `space_map_add` once its checks have passed. -/
def SpaceMap.insert (sm : SpaceMap g) (ss : Seg) (h : Insertable sm ss) : SpaceMap g where
  smRoot := ⟨insertSegs sm.smRoot.segs ss.start ss.stop, h.separated⟩
  smSpace := sm.smSpace + ss.len
  space_eq := by
    rw [← SegSet.card_points, SegSet.points, h.cover_eq, card_union_of_disjoint h.clear,
      sm.card_points, Seg.card_points]
  onMap := h.onMap_insert

@[simp] theorem SpaceMap.points_insert :
    (sm.insert ss h).points = sm.points ∪ ss.points := h.cover_eq

def spaceMapAdd (sm : SpaceMap g) (start size : ℕ) : Except SmPanic (SpaceMap g) :=
  if hz : size = 0 then .error .zeroSize
  else if hlo : start < g.smStart then .error .beforeStart
  else if hhi : g.smStart + g.smSize < start + size then .error .pastEnd
  else if g.smSize < sm.smSpace + size then .error .overfull
  else if hp : ¬ 2 ^ g.smShift ∣ start then .error .startPhase
  else if hq : ¬ 2 ^ g.smShift ∣ size then .error .sizePhase
  else match hf : avlFind sm start (start + size) with
    | some ss =>
      if ss.start ≤ start ∧ start + size ≤ ss.stop then .error .allocatingAllocated
      else .error .overlapsNeighbor
    | none =>
      have hlt : start < start + size := Nat.lt_add_of_pos_right (Nat.pos_of_ne_zero hz)
      .ok (sm.insert ⟨start, start + size⟩
        { onMap := ⟨hlt, not_lt.mp hlo, not_lt.mp hhi, not_not.mp hp,
            (Nat.dvd_add_right (not_not.mp hp)).mpr (not_not.mp hq)⟩
          clear := (avlFind_eq_none_iff hlt).mp hf })

/-- **ADD**: a range of whole sectors that the map does not meet is added, and no check fires. -/
theorem spaceMapAdd_spec :
    ∃ sm', spaceMapAdd sm ss.start ss.len = .ok sm' ∧ sm'.points = sm.points ∪ ss.points := by
  have hon := h.onMap
  have hstop := hon.start_add_len
  have hspace : sm.smSpace + ss.len ≤ g.smSize := by
    rw [← sm.card_points, ← Seg.card_points, ← card_union_of_disjoint h.clear, ← g.card_whole]
    exact card_le_card (union_subset sm.points_subset hon.points_subset)
  have hfind : avlFind sm ss.start (ss.start + ss.len) = none := by
    rw [hstop]
    exact (avlFind_eq_none_iff hon.lt).mpr h.clear
  refine ⟨sm.insert ss h, ?_, sm.points_insert h⟩
  rw [spaceMapAdd, dif_neg hon.len_ne_zero, dif_neg (not_lt.mpr hon.lo),
    dif_neg (not_lt.mpr (hstop ▸ hon.hi)), if_neg (not_lt.mpr hspace),
    dif_neg (not_not.mpr hon.start_dvd), dif_neg (not_not.mpr hon.len_dvd)]
  split
  · rename_i heq
    rw [hfind] at heq
    cases heq
  · simp only [hstop]

end

/-! ## `space_map_remove` -/

/-- What is left of the segment `ss` before `start`. -/
def leftOver (ss : Seg) (start : ℕ) : List Seg :=
  if ss.start = start then [] else [⟨ss.start, start⟩]

/-- What is left of the segment `ss` from `stop` on. -/
def rightOver (ss : Seg) (stop : ℕ) : List Seg :=
  if ss.stop = stop then [] else [⟨stop, ss.stop⟩]

/-- The tree after `[start, stop)` was cut out of its segment `ss`. -/
def removeSegs (segs : List Seg) (ss : Seg) (start stop : ℕ) : List Seg :=
  segs.filter (fun t => t.start < ss.start) ++ (leftOver ss start ++ (rightOver ss stop ++
    segs.filter (fun t => ss.start < t.start)))

theorem cover_leftOver : cover (leftOver ss start) = Ico ss.start start := by
  rw [leftOver]
  split_ifs with heq
  · rw [heq, Ico_self, cover_nil]
  · rw [cover_cons, cover_nil, union_empty, Seg.points]

theorem cover_rightOver : cover (rightOver ss stop) = Ico stop ss.stop := by
  rw [rightOver]
  split_ifs with heq
  · rw [heq, Ico_self, cover_nil]
  · rw [cover_cons, cover_nil, union_empty, Seg.points]

/-- What the checks of `space_map_remove` leave to be true: the range `r` lies in
    the segment `ss` of the tree. -/
structure Removable (sm : SpaceMap g) (ss r : Seg) : Prop where
  mem : ss ∈ sm.smRoot.segs
  lt : r.start < r.stop
  lo : ss.start ≤ r.start
  hi : r.stop ≤ ss.stop
  start_dvd : 2 ^ g.smShift ∣ r.start
  stop_dvd : 2 ^ g.smShift ∣ r.stop

variable {r : Seg}

section

variable (h : Removable sm ss r)

include h

theorem Removable.gaps :
    (∀ p ∈ sm.smRoot.segs.filter (fun t => t.start < ss.start), p.stop < ss.start)
      ∧ ∀ q ∈ sm.smRoot.segs.filter (fun t => ss.start < t.start), ss.stop < q.start := by
  have hsep := sm.smRoot.separated
  constructor
  · intro p hp
    obtain ⟨hmem, hlt⟩ := List.mem_filter.mp hp
    exact hsep.gap hmem h.mem (of_decide_eq_true hlt)
  · intro q hq
    obtain ⟨hmem, hlt⟩ := List.mem_filter.mp hq
    exact hsep.gap h.mem hmem (of_decide_eq_true hlt)

theorem Removable.separated_right :
    Separated (rightOver ss r.stop ++ sm.smRoot.segs.filter fun t => ss.start < t.start)
      ∧ ∀ t ∈ rightOver ss r.stop ++ sm.smRoot.segs.filter fun t => ss.start < t.start,
          r.stop ≤ t.start := by
  obtain ⟨-, hpost⟩ := h.gaps
  have hsep := sm.smRoot.separated.filter fun t => ss.start < t.start
  rw [rightOver]
  split_ifs with heq
  · exact ⟨hsep, fun t ht => h.hi.trans (hpost t ht).le⟩
  refine ⟨separated_cons.mpr ⟨lt_of_le_of_ne h.hi (Ne.symm heq), hpost, hsep⟩, ?_⟩
  intro t ht
  rcases List.mem_cons.mp ht with rfl | ht
  · exact le_rfl
  · exact h.hi.trans (hpost t ht).le

theorem Removable.separated : Separated (removeSegs sm.smRoot.segs ss r.start r.stop) := by
  obtain ⟨hpre, -⟩ := h.gaps
  obtain ⟨hright, hge⟩ := h.separated_right
  have hsep := sm.smRoot.separated.filter fun t => t.start < ss.start
  rw [removeSegs, leftOver]
  split_ifs with heq
  · refine hsep.append hright ?_
    intro p hp q hq
    exact (hpre p hp).trans_le (h.lo.trans (h.lt.le.trans (hge q hq)))
  · refine hsep.splice hright (lt_of_le_of_ne h.lo heq) hpre ?_
    exact fun q hq => h.lt.trans_le (hge q hq)

theorem Removable.cover_eq :
    cover (removeSegs sm.smRoot.segs ss r.start r.stop) = sm.points \ r.points := by
  obtain ⟨hpre, hpost⟩ := h.gaps
  have hpoints : sm.points = _ := congrArg cover (sm.smRoot.separated.eq_filter_cons h.mem)
  -- the range meets neither the segments before `ss` nor those after it
  have hbefore : ∀ x ∈ cover (sm.smRoot.segs.filter fun t => t.start < ss.start), x < ss.start := by
    intro x hx
    obtain ⟨p, hp, hx⟩ := mem_cover.mp hx
    exact (Seg.mem_points.mp hx).2.trans (hpre p hp)
  have hafter : ∀ x ∈ cover (sm.smRoot.segs.filter fun t => ss.start < t.start), ss.stop < x := by
    intro x hx
    obtain ⟨q, hq, hx⟩ := mem_cover.mp hx
    exact (hpost q hq).trans_le (Seg.mem_points.mp hx).1
  rw [hpoints, removeSegs, cover_append, cover_append, cover_append, cover_leftOver,
    cover_rightOver, cover_append, cover_cons]
  have hlt := h.lt
  have hlo := h.lo
  have hhi := h.hi
  ext x
  simp only [mem_union, mem_sdiff, mem_Ico, Seg.mem_points]
  have hb := hbefore x
  have ha := hafter x
  constructor
  · rintro (hx | hx | hx | hx)
    · exact ⟨.inl hx, fun hr => not_le.mpr (hb hx) (hlo.trans hr.1)⟩
    · exact ⟨.inr (.inl ⟨hx.1, hx.2.trans (hlt.trans_le hhi)⟩), fun hr => not_le.mpr hx.2 hr.1⟩
    · exact ⟨.inr (.inl ⟨(hlo.trans hlt.le).trans hx.1, hx.2⟩), fun hr => not_le.mpr hr.2 hx.1⟩
    · exact ⟨.inr (.inr hx), fun hr => lt_asymm (ha hx) (hr.2.trans_le hhi)⟩
  · rintro ⟨hx | hx | hx, hr⟩
    · exact .inl hx
    · by_cases hxr : x < r.start
      · exact .inr (.inl ⟨hx.1, hxr⟩)
      · refine .inr (.inr (.inl ⟨?_, hx.2⟩))
        exact not_lt.mp fun hlt' => hr ⟨not_lt.mp hxr, hlt'⟩
    · exact .inr (.inr (.inr hx))

theorem Removable.onMap_remove : ∀ t ∈ removeSegs sm.smRoot.segs ss r.start r.stop, OnMap g t := by
  have hss := sm.onMap ss h.mem
  intro t ht
  rcases List.mem_append.mp ht with ht | ht
  · exact sm.onMap t (List.mem_of_mem_filter ht)
  rcases List.mem_append.mp ht with ht | ht
  · rw [leftOver] at ht
    split_ifs at ht with heq
    · exact nomatch ht
    · obtain rfl := List.mem_singleton.mp ht
      exact ⟨lt_of_le_of_ne h.lo heq, hss.lo, (h.lt.le.trans h.hi).trans hss.hi,
        hss.start_dvd, h.start_dvd⟩
  rcases List.mem_append.mp ht with ht | ht
  · rw [rightOver] at ht
    split_ifs at ht with heq
    · exact nomatch ht
    · obtain rfl := List.mem_singleton.mp ht
      exact ⟨lt_of_le_of_ne h.hi (Ne.symm heq), hss.lo.trans (h.lo.trans h.lt.le), hss.hi,
        h.stop_dvd, hss.stop_dvd⟩
  · exact sm.onMap t (List.mem_of_mem_filter ht)

theorem Removable.points_subset : r.points ⊆ sm.points :=
  (Ico_subset_Ico h.lo h.hi).trans (points_subset_cover h.mem)

/-- The update of `space_map_remove` once its checks have passed. -/
def SpaceMap.remove (sm : SpaceMap g) (ss r : Seg) (h : Removable sm ss r) : SpaceMap g where
  smRoot := ⟨removeSegs sm.smRoot.segs ss r.start r.stop, h.separated⟩
  smSpace := sm.smSpace - r.len
  space_eq := by
    rw [← SegSet.card_points, SegSet.points, h.cover_eq, card_sdiff_of_subset h.points_subset,
      sm.card_points, Seg.card_points]
  onMap := h.onMap_remove

@[simp] theorem SpaceMap.points_remove :
    (sm.remove ss r h).points = sm.points \ r.points := h.cover_eq

end

def spaceMapRemove (sm : SpaceMap g) (start size : ℕ) : Except SmPanic (SpaceMap g) :=
  if hz : size = 0 then .error .zeroSize
  else if hp : ¬ 2 ^ g.smShift ∣ start then .error .startPhase
  else if hq : ¬ 2 ^ g.smShift ∣ size then .error .sizePhase
  else match hf : avlFind sm start (start + size) with
    | none => .error .freeingFree
    | some ss =>
      if hlo : start < ss.start then .error .startsBeforeSeg
      else if hhi : ss.stop < start + size then .error .endsPastSeg
      -- the 64-bit difference exceeds `sm_size` just when it wraps
      else if sm.smSpace < size then .error .underflow
      else .ok (sm.remove ss ⟨start, start + size⟩
        { mem := List.mem_of_find?_eq_some hf
          lt := Nat.lt_add_of_pos_right (Nat.pos_of_ne_zero hz)
          lo := not_lt.mp hlo
          hi := not_lt.mp hhi
          start_dvd := not_not.mp hp
          stop_dvd := (Nat.dvd_add_right (not_not.mp hp)).mpr (not_not.mp hq) })

/-- **REMOVE**: a range of whole sectors that the map contains is removed, and no check fires. -/
theorem spaceMapRemove_spec (hon : OnMap g r) (hsub : r.points ⊆ sm.points) :
    ∃ sm', spaceMapRemove sm r.start r.len = .ok sm' ∧ sm'.points = sm.points \ r.points := by
  have hstop := hon.start_add_len
  obtain ⟨ss, hss, hfind, hlo, hhi⟩ := avlFind_of_subset hon.lt hsub
  have hrem : Removable sm ss r := { hon with mem := hss, lo := hlo, hi := hhi }
  have hspace : r.len ≤ sm.smSpace := by
    rw [← sm.card_points, ← Seg.card_points]
    exact card_le_card hsub
  refine ⟨sm.remove ss r hrem, ?_, sm.points_remove hrem⟩
  rw [spaceMapRemove, dif_neg hon.len_ne_zero, dif_neg (not_not.mpr hon.start_dvd),
    dif_neg (not_not.mpr hon.len_dvd)]
  split
  · rename_i heq
    rw [hstop, hfind] at heq
    cases heq
  rename_i tt heq
  rw [hstop, hfind] at heq
  cases heq
  rw [dif_neg (not_lt.mpr hlo), dif_neg (not_lt.mpr (hstop ▸ hhi)), if_neg (not_lt.mpr hspace)]
  simp only [hstop]

theorem subset_of_spaceMapRemove {start size : ℕ} {sm' : SpaceMap g}
    (h : spaceMapRemove sm start size = .ok sm') : Ico start (start + size) ⊆ sm.points := by
  rw [spaceMapRemove] at h
  split_ifs at h with hz hp hq hsp
  · split at h
    · cases h
    · split_ifs at h
  split at h
  · cases h
  rename_i ss hfind
  split_ifs at h with hlo hhi
  intro x hx
  obtain ⟨hxlo, hxhi⟩ := mem_Ico.mp hx
  refine mem_cover.mpr ⟨ss, List.mem_of_find?_eq_some hfind, Seg.mem_points.mpr ⟨?_, ?_⟩⟩
  · exact (not_lt.mp hlo).trans hxlo
  · exact hxhi.trans_le (not_lt.mp hhi)

/-! ## Looking up, walking and vacating -/

def spaceMapContains (sm : SpaceMap g) (start size : ℕ) : Except SmPanic Bool :=
  if size = 0 then .error .zeroSize
  else if ¬ 2 ^ g.smShift ∣ start then .error .startPhase
  else if ¬ 2 ^ g.smShift ∣ size then .error .sizePhase
  else .ok <| match avlFind sm start (start + size) with
    | some ss => decide (ss.start ≤ start ∧ start + size ≤ ss.stop)
    | none => false

theorem spaceMapContains_of_disjoint (hon : OnMap g r) (hdisj : Disjoint sm.points r.points) :
    spaceMapContains sm r.start r.len = .ok false := by
  have hfind : avlFind sm r.start (r.start + r.len) = none := by
    rw [hon.start_add_len]
    exact (avlFind_eq_none_iff hon.lt).mpr hdisj
  rw [spaceMapContains, if_neg hon.len_ne_zero, if_neg (not_not.mpr hon.start_dvd),
    if_neg (not_not.mpr hon.len_dvd), hfind]

/-- The order in which `avl_destroy_nodes` hands out the nodes of a tree.  It
    depends on the tree's shape; all that matters is that each node comes once. -/
structure DestroyOrder where
  order : List Seg → List Seg
  perm : ∀ segs, (order segs).Perm segs

section Walk

variable {δ : Type}

/-- `func(mdest, ss->ss_start, ss->ss_end - ss->ss_start)` for each segment in turn. -/
def walkSegs (func : δ → ℕ → ℕ → Except SmPanic δ) (mdest : δ) (segs : List Seg) :
    Except SmPanic δ :=
  segs.foldlM (fun mdest ss => func mdest ss.start ss.len) mdest

theorem walkSegs_cons (func : δ → ℕ → ℕ → Except SmPanic δ) {mdest mdest' : δ}
    (h : func mdest ss.start ss.len = .ok mdest') (segs : List Seg) :
    walkSegs func mdest (ss :: segs) = walkSegs func mdest' segs := by
  rw [walkSegs, List.foldlM_cons, h]
  rfl

/-- `space_map_walk`: in the order of the tree. -/
def spaceMapWalk (sm : SpaceMap g) (func : δ → ℕ → ℕ → Except SmPanic δ) (mdest : δ) :
    Except SmPanic δ :=
  walkSegs func mdest sm.smRoot.segs

/-- `space_map_vacate`: in destroy order; the map is empty afterwards. -/
def spaceMapVacate (o : DestroyOrder) (sm : SpaceMap g) (func : δ → ℕ → ℕ → Except SmPanic δ)
    (mdest : δ) : Except SmPanic (SpaceMap g × δ) :=
  match walkSegs func mdest (o.order sm.smRoot.segs) with
  | .ok mdest' => .ok (spaceMapCreate g, mdest')
  | .error e => .error e

end Walk

/-- Ranges of whole sectors, no two of which meet: what a map hands out. -/
structure Ranges (g : SpaceGeom) (segs : List Seg) : Prop where
  onMap : ∀ ss ∈ segs, OnMap g ss
  disjoint : segs.Pairwise fun s t => Disjoint s.points t.points

theorem SpaceMap.ranges (sm : SpaceMap g) : Ranges g sm.smRoot.segs :=
  ⟨sm.onMap, sm.smRoot.separated.disjoint⟩

theorem Ranges.perm {segs' : List Seg} (h : Ranges g segs) (hp : segs'.Perm segs) :
    Ranges g segs' := by
  refine ⟨fun ss hss => h.onMap ss (hp.mem_iff.mp hss), ?_⟩
  have hsymm : ∀ {s t : Seg}, Disjoint s.points t.points → Disjoint t.points s.points :=
    fun hst => hst.symm
  exact (hp.pairwise_iff hsymm).mpr h.disjoint

theorem Ranges.cons (h : Ranges g (ss :: segs)) :
    OnMap g ss ∧ Disjoint ss.points (cover segs) ∧ Ranges g segs := by
  obtain ⟨hss, hsegs⟩ := List.pairwise_cons.mp h.disjoint
  exact ⟨h.onMap ss List.mem_cons_self, disjoint_cover hss,
    fun t ht => h.onMap t (List.mem_cons_of_mem _ ht), hsegs⟩

theorem walkAdd_spec (h : Ranges g segs) (sm : SpaceMap g)
    (hdisj : Disjoint sm.points (cover segs)) :
    ∃ sm', walkSegs spaceMapAdd sm segs = .ok sm' ∧ sm'.points = sm.points ∪ cover segs := by
  induction segs generalizing sm with
  | nil => exact ⟨sm, rfl, by rw [cover_nil, union_empty]⟩
  | cons ss segs ih =>
    obtain ⟨hon, hrest, hsegs⟩ := h.cons
    rw [cover_cons, disjoint_union_right] at hdisj
    obtain ⟨sm1, hadd, hsm1⟩ := spaceMapAdd_spec ⟨hon, hdisj.1⟩
    have hdisj1 : Disjoint sm1.points (cover segs) := by
      rw [hsm1]
      exact disjoint_union_left.mpr ⟨hdisj.2, hrest⟩
    obtain ⟨sm', hwalk, hsm'⟩ := ih hsegs sm1 hdisj1
    refine ⟨sm', ?_, ?_⟩
    · rw [walkSegs_cons spaceMapAdd hadd, hwalk]
    · rw [hsm', hsm1, cover_cons, union_assoc]

theorem walkRemove_spec (h : Ranges g segs) (sm : SpaceMap g) (hsub : cover segs ⊆ sm.points) :
    ∃ sm', walkSegs spaceMapRemove sm segs = .ok sm' ∧ sm'.points = sm.points \ cover segs := by
  induction segs generalizing sm with
  | nil => exact ⟨sm, rfl, by rw [cover_nil, sdiff_empty]⟩
  | cons ss segs ih =>
    obtain ⟨hon, hrest, hsegs⟩ := h.cons
    obtain ⟨sm1, hrem, hsm1⟩ := spaceMapRemove_spec hon (subset_union_left.trans hsub)
    have hsub1 : cover segs ⊆ sm1.points := by
      rw [hsm1, subset_sdiff]
      exact ⟨subset_union_right.trans hsub, hrest.symm⟩
    obtain ⟨sm', hwalk, hsm'⟩ := ih hsegs sm1 hsub1
    refine ⟨sm', ?_, ?_⟩
    · rw [walkSegs_cons spaceMapRemove hrem, hwalk]
    · rw [hsm', hsm1, sdiff_sdiff_left]
      rfl

end Maps

end Sirius.Space
