import Mathlib.Algebra.Ring.Nat
import Mathlib.Order.Interval.Finset.Nat

/-! # Segment sets: sorted lists of ranges with gaps between them

    A set of natural numbers as a list of half-open ranges in increasing order, none empty and
    no two touching.  So each maximal run of the set is ONE element of the list: a range
    inside the set lies in a single segment (`Separated.exists_of_subset`), as a tree of
    segments relies on when it removes a range.

    The list operations belong to the program; here are the facts they share: splitting a
    separated list at an offset or a member, and splicing in a new segment. -/

namespace Sirius.Lib

open Finset

/-- The half-open range `[start, stop)`. -/
structure Seg where
  start : ℕ
  stop : ℕ
  deriving DecidableEq

namespace Seg

def len (s : Seg) : ℕ := s.stop - s.start

def points (s : Seg) : Finset ℕ := Finset.Ico s.start s.stop

@[simp] theorem mem_points {s : Seg} {x : ℕ} : x ∈ s.points ↔ s.start ≤ x ∧ x < s.stop := mem_Ico

theorem card_points (s : Seg) : s.points.card = s.len := Nat.card_Ico _ _

end Seg

variable {l l' pre post : List Seg} {s t : Seg} {x a b lo hi : ℕ}

/-! ## What a list of segments covers -/

def cover : List Seg → Finset ℕ
  | [] => ∅
  | s :: l => s.points ∪ cover l

@[simp] theorem cover_nil : cover [] = ∅ := rfl

@[simp] theorem cover_cons : cover (s :: l) = s.points ∪ cover l := rfl

@[simp] theorem cover_append : cover (l ++ l') = cover l ∪ cover l' := by
  induction l with
  | nil => rw [List.nil_append, cover_nil, empty_union]
  | cons s l ih => rw [List.cons_append, cover_cons, cover_cons, ih, union_assoc]

theorem mem_cover : x ∈ cover l ↔ ∃ s ∈ l, x ∈ s.points := by
  induction l with
  | nil => simp
  | cons s l ih => simp only [cover_cons, mem_union, ih, List.exists_mem_cons_iff]

theorem points_subset_cover (hs : s ∈ l) : s.points ⊆ cover l := by
  intro x hx
  exact mem_cover.mpr ⟨s, hs, hx⟩

theorem cover_perm (h : l.Perm l') : cover l = cover l' := by
  ext x
  rw [mem_cover, mem_cover]
  constructor
  · rintro ⟨s, hs, hx⟩
    exact ⟨s, h.mem_iff.mp hs, hx⟩
  · rintro ⟨s, hs, hx⟩
    exact ⟨s, h.mem_iff.mpr hs, hx⟩

theorem disjoint_cover (h : ∀ t ∈ l, Disjoint s.points t.points) : Disjoint s.points (cover l) := by
  rw [disjoint_left]
  intro x hx hx'
  obtain ⟨t, ht, hxt⟩ := mem_cover.mp hx'
  exact disjoint_left.mp (h t ht) hx hxt

theorem card_cover (h : l.Pairwise fun s t => Disjoint s.points t.points) :
    (cover l).card = (l.map Seg.len).sum := by
  induction l with
  | nil => rfl
  | cons s l ih =>
    obtain ⟨hs, hl⟩ := List.pairwise_cons.mp h
    rw [cover_cons, card_union_of_disjoint (disjoint_cover hs), ih hl, Seg.card_points,
      List.map_cons, List.sum_cons]

def Separated (l : List Seg) : Prop :=
  (∀ s ∈ l, s.start < s.stop) ∧ l.Pairwise fun s t => s.stop < t.start

theorem Separated.nil : Separated [] := ⟨by simp, .nil⟩

theorem separated_cons : Separated (s :: l) ↔
    s.start < s.stop ∧ (∀ t ∈ l, s.stop < t.start) ∧ Separated l := by
  rw [Separated, List.pairwise_cons, List.forall_mem_cons]
  constructor
  · rintro ⟨⟨hs, hl⟩, hst, hp⟩
    exact ⟨hs, hst, hl, hp⟩
  · rintro ⟨hs, hst, hl, hp⟩
    exact ⟨⟨hs, hl⟩, hst, hp⟩

theorem Separated.sublist (h : Separated l) (hsub : l'.Sublist l) : Separated l' :=
  ⟨fun s hs => h.1 s (hsub.subset hs), h.2.sublist hsub⟩

theorem Separated.append (hpre : Separated pre) (hpost : Separated post)
    (hgap : ∀ p ∈ pre, ∀ q ∈ post, p.stop < q.start) : Separated (pre ++ post) := by
  refine ⟨?_, List.pairwise_append.mpr ⟨hpre.2, hpost.2, hgap⟩⟩
  exact List.forall_mem_append.mpr ⟨hpre.1, hpost.1⟩

/-- **SPLICE**: a segment with a gap on either side joins two separated parts. -/
theorem Separated.splice (hpre : Separated pre) (hpost : Separated post) (hlt : lo < hi)
    (hlo : ∀ p ∈ pre, p.stop < lo) (hhi : ∀ q ∈ post, hi < q.start) :
    Separated (pre ++ ⟨lo, hi⟩ :: post) := by
  refine hpre.append (separated_cons.mpr ⟨hlt, hhi, hpost⟩) ?_
  intro p hp q hq
  rcases List.mem_cons.mp hq with rfl | hq
  · exact hlo p hp
  · exact (hlo p hp).trans (hlt.trans (hhi q hq))

section

variable (h : Separated l)

include h

theorem Separated.filter (p : Seg → Bool) : Separated (l.filter p) := h.sublist List.filter_sublist

theorem Separated.trichotomy (hs : s ∈ l) (ht : t ∈ l) :
    s = t ∨ s.stop < t.start ∨ t.stop < s.start := by
  have hsymm : Std.Symm fun s t : Seg => s = t ∨ s.stop < t.start ∨ t.stop < s.start := by
    refine ⟨?_⟩
    rintro s t (rfl | hst | hts)
    · exact .inl rfl
    · exact .inr (.inr hst)
    · exact .inr (.inl hts)
  exact List.Pairwise.forall_of_forall
    (R := fun s t : Seg => s = t ∨ s.stop < t.start ∨ t.stop < s.start)
    (fun _ _ => .inl rfl) (h.2.imp fun hst => .inr (.inl hst)) hs ht

theorem Separated.gap (hs : s ∈ l) (ht : t ∈ l) (hlt : s.start < t.start) : s.stop < t.start := by
  rcases h.trichotomy hs ht with rfl | hgap | hgap
  · exact absurd hlt (lt_irrefl _)
  · exact hgap
  · exact absurd (hlt.trans (h.1 t ht)) (lt_asymm hgap)

/-- **ONE SEGMENT**: a range inside the cover lies inside a single segment. -/
theorem Separated.exists_of_subset (hab : a < b)
    (hsub : Finset.Ico a b ⊆ cover l) : ∃ s ∈ l, s.start ≤ a ∧ b ≤ s.stop := by
  obtain ⟨s, hs, hx⟩ := mem_cover.mp (hsub (left_mem_Ico.mpr hab))
  obtain ⟨hsa, has⟩ := Seg.mem_points.mp hx
  refine ⟨s, hs, hsa, ?_⟩
  by_contra hlt
  -- otherwise the first offset after `s` is covered too, by a segment that touches `s`
  have hmem : s.stop ∈ Finset.Ico a b := mem_Ico.mpr ⟨has.le, not_le.mp hlt⟩
  obtain ⟨t, ht, hy⟩ := mem_cover.mp (hsub hmem)
  obtain ⟨hts, hst⟩ := Seg.mem_points.mp hy
  rcases h.trichotomy hs ht with rfl | hgap | hgap
  · exact Nat.lt_irrefl _ hst
  · exact Nat.not_lt.mpr hts hgap
  · exact Nat.lt_asymm (hst.trans hgap) (h.1 s hs)

theorem Separated.disjoint : l.Pairwise fun s t => Disjoint s.points t.points := by
  refine h.2.imp ?_
  intro s t hst
  rw [disjoint_left]
  intro x hxs hxt
  have hx1 := (Seg.mem_points.mp hxs).2
  have hx2 := (Seg.mem_points.mp hxt).1
  exact Nat.lt_irrefl _ (hx1.trans (hst.trans_le hx2))

theorem Separated.eq_filter_append (a : ℕ) :
    l = l.filter (fun s => s.start < a) ++ l.filter (fun s => a ≤ s.start) := by
  induction l with
  | nil => rfl
  | cons s l ih =>
    obtain ⟨hs, hst, hl⟩ := separated_cons.mp h
    by_cases hsa : s.start < a
    · rw [List.filter_cons_of_pos (by simpa using hsa),
        List.filter_cons_of_neg (by simpa using hsa), List.cons_append, ← ih hl]
    have hpast : ∀ t ∈ l, a ≤ t.start := by
      intro t ht
      exact (not_lt.mp hsa).trans ((hs.trans (hst t ht)).le)
    rw [List.filter_eq_nil_iff.mpr, List.filter_eq_self.mpr, List.nil_append]
    · intro t ht
      rcases List.mem_cons.mp ht with rfl | ht
      · exact decide_eq_true (not_lt.mp hsa)
      · exact decide_eq_true (hpast t ht)
    · intro t ht
      rcases List.mem_cons.mp ht with rfl | ht
      · simpa using hsa
      · simpa using hpast t ht

theorem Separated.eq_filter_cons (hs : s ∈ l) :
    l = l.filter (fun t => t.start < s.start) ++ s :: l.filter (fun t => s.start < t.start) := by
  induction l with
  | nil => exact nomatch hs
  | cons t l ih =>
    obtain ⟨ht, htl, hl⟩ := separated_cons.mp h
    rcases List.mem_cons.mp hs with rfl | hmem
    · have hpast : ∀ u ∈ l, s.start < u.start := fun u hu => ht.trans (htl u hu)
      rw [List.filter_cons_of_neg (by simp), List.filter_cons_of_neg (by simp),
        List.filter_eq_nil_iff.mpr, List.filter_eq_self.mpr, List.nil_append]
      · exact fun u hu => decide_eq_true (hpast u hu)
      · intro u hu
        simpa using (hpast u hu).le
    · have hts : t.start < s.start := ht.trans (htl s hmem)
      rw [List.filter_cons_of_pos (by simpa using hts),
        List.filter_cons_of_neg (by simpa using hts.le), List.cons_append, ← ih hl hmem]

end

structure SegSet where
  segs : List Seg
  separated : Separated segs

namespace SegSet

def points (S : SegSet) : Finset ℕ := cover S.segs

def total (S : SegSet) : ℕ := (S.segs.map Seg.len).sum

theorem card_points (S : SegSet) : S.points.card = S.total := card_cover S.separated.disjoint

def empty : SegSet := ⟨[], Separated.nil⟩

end SegSet

end Sirius.Lib
