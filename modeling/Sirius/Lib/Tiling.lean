import Mathlib.Data.List.Pairwise
import Mathlib.Algebra.BigOperators.Group.List.Basic
import Mathlib.Algebra.Order.Ring.Nat

/-! # Ordered ranges — lists of items that each cover a half-open range

    An item `a` covers `[lo a, hi a)`.  In an `Ordered` list the ranges come in increasing
    order without overlap; they may touch.  `load` adds up the weights over one point, and
    `Tiles` says that consecutive items cover a range exactly: as soon as each of its points
    is covered by an item inside it (`exists_tiles`). -/

namespace Sirius.Lib

open List

variable {α : Type} {lo hi : α → ℕ} {w : α → ℕ} {l l' A M C : List α} {a n : α} {x s e : ℕ}

structure Ordered (lo hi : α → ℕ) (l : List α) : Prop where
  nonempty : ∀ a ∈ l, lo a < hi a
  apart : l.Pairwise fun a b => hi a ≤ lo b

namespace Ordered

theorem cons_iff : Ordered lo hi (a :: l) ↔
    lo a < hi a ∧ (∀ b ∈ l, hi a ≤ lo b) ∧ Ordered lo hi l := by
  constructor
  · rintro ⟨hne, hap⟩
    obtain ⟨ha, hl⟩ := forall_mem_cons.mp hne
    obtain ⟨hhd, htl⟩ := pairwise_cons.mp hap
    exact ⟨ha, hhd, hl, htl⟩
  · rintro ⟨ha, hhd, hl, htl⟩
    exact ⟨forall_mem_cons.mpr ⟨ha, hl⟩, pairwise_cons.mpr ⟨hhd, htl⟩⟩

theorem append_iff : Ordered lo hi (l ++ l') ↔
    Ordered lo hi l ∧ Ordered lo hi l' ∧ ∀ a ∈ l, ∀ b ∈ l', hi a ≤ lo b := by
  constructor
  · rintro ⟨hne, hap⟩
    obtain ⟨h1, h2, h12⟩ := pairwise_append.mp hap
    exact ⟨⟨fun a ha => hne a (mem_append_left _ ha), h1⟩,
      ⟨fun a ha => hne a (mem_append_right _ ha), h2⟩, h12⟩
  · rintro ⟨h1, h2, h12⟩
    refine ⟨?_, pairwise_append.mpr ⟨h1.apart, h2.apart, h12⟩⟩
    exact forall_mem_append.mpr ⟨h1.nonempty, h2.nonempty⟩

theorem sublist (h : Ordered lo hi l) (hs : l'.Sublist l) : Ordered lo hi l' :=
  ⟨fun a ha => h.nonempty a (hs.subset ha), h.apart.sublist hs⟩

theorem increasing (h : Ordered lo hi l) : l.Pairwise fun a b => lo a < lo b := by
  refine (pairwise_iff_forall_sublist.mpr ?_)
  intro a b hab
  have hs := h.sublist hab
  obtain ⟨ha, hb, -⟩ := cons_iff.mp hs
  exact ha.trans_le (hb b (mem_singleton_self b))

end Ordered

def load (lo hi w : α → ℕ) (l : List α) (x : ℕ) : ℕ :=
  (l.map fun a => if lo a ≤ x ∧ x < hi a then w a else 0).sum

@[simp] theorem load_nil : load lo hi w [] x = 0 := rfl

@[simp] theorem load_cons : load lo hi w (a :: l) x
    = (if lo a ≤ x ∧ x < hi a then w a else 0) + load lo hi w l x := by
  simp [load]

@[simp] theorem load_append : load lo hi w (l ++ l') x = load lo hi w l x + load lo hi w l' x := by
  simp [load]

theorem load_eq_zero (h : ∀ a ∈ l, ¬ (lo a ≤ x ∧ x < hi a)) : load lo hi w l x = 0 := by
  induction l with
  | nil => rfl
  | cons a l ih =>
    obtain ⟨ha, hl⟩ := forall_mem_cons.mp h
    rw [load_cons, if_neg ha, ih hl]

theorem Ordered.load_eq (h : Ordered lo hi l) (ha : a ∈ l) (hx : lo a ≤ x ∧ x < hi a) :
    load lo hi w l x = w a := by
  obtain ⟨A, C, rfl⟩ := append_of_mem ha
  obtain ⟨-, hC, hAC⟩ := append_iff.mp h
  obtain ⟨-, hlo, -⟩ := cons_iff.mp hC
  have hA0 : load lo hi w A x = 0 := by
    refine load_eq_zero ?_
    intro b hb hbx
    exact absurd ((hAC b hb a mem_cons_self).trans hx.1) (not_le.mpr hbx.2)
  have hC0 : load lo hi w C x = 0 := by
    refine load_eq_zero ?_
    intro b hb hbx
    exact absurd ((hlo b hb).trans hbx.1) (not_le.mpr hx.2)
  rw [load_append, load_cons, if_pos hx, hA0, hC0, Nat.zero_add, Nat.add_zero]

theorem ite_range_cut {m c : ℕ} (hsm : s ≤ m) (hme : m ≤ e) :
    (if s ≤ x ∧ x < m then c else 0) + (if m ≤ x ∧ x < e then c else 0)
      = if s ≤ x ∧ x < e then c else 0 := by
  split_ifs <;> omega

/-- Consecutive items cover `[s, e)` exactly. -/
def Tiles (lo hi : α → ℕ) : List α → ℕ → ℕ → Prop
  | [], s, e => s = e
  | a :: l, s, e => lo a = s ∧ Tiles lo hi l (hi a) e

/-- **TILING**: if an item inside the range covers each point, consecutive items tile it. -/
theorem Ordered.exists_tiles {P : α → Prop} (h : Ordered lo hi l) (hse : s < e)
    (hcover : ∀ x, s ≤ x → x < e → ∃ a ∈ l, P a ∧ s ≤ lo a ∧ lo a ≤ x ∧ x < hi a ∧ hi a ≤ e) :
    ∃ A M C, l = A ++ (M ++ C) ∧ Tiles lo hi M s e ∧ ∀ a ∈ M, P a ∧ s ≤ lo a ∧ hi a ≤ e := by
  induction l generalizing s with
  | nil =>
    obtain ⟨a, ha, -⟩ := hcover s le_rfl hse
    cases ha
  | cons b l ih =>
    obtain ⟨hb, hhd, htl⟩ := Ordered.cons_iff.mp h
    -- what covers a point at or past the end of `b` is behind `b`
    have hbehind : ∀ x, s ≤ x → x < e → hi b ≤ x →
        ∃ a ∈ l, P a ∧ hi b ≤ lo a ∧ s ≤ lo a ∧ lo a ≤ x ∧ x < hi a ∧ hi a ≤ e := by
      intro x hsx hxe hbx
      obtain ⟨a, ha, hP, hsa, hax, hxa, hae⟩ := hcover x hsx hxe
      rcases mem_cons.mp ha with rfl | ha
      · exact absurd hxa (not_lt.mpr hbx)
      · exact ⟨a, ha, hP, hhd a ha, hsa, hax, hxa, hae⟩
    by_cases hbs : hi b ≤ s
    · obtain ⟨A, M, C, rfl, ht, hM⟩ := ih htl hse (by
        intro x hsx hxe
        obtain ⟨a, ha, hP, -, hrest⟩ := hbehind x hsx hxe (hbs.trans hsx)
        exact ⟨a, ha, hP, hrest⟩)
      exact ⟨b :: A, M, C, rfl, ht, hM⟩
    -- otherwise `b` is the item over the first point
    have hfirst : P b ∧ lo b = s ∧ hi b ≤ e := by
      obtain ⟨a, ha, hP, hsa, has, -, hae⟩ := hcover s le_rfl hse
      rcases mem_cons.mp ha with rfl | ha
      · exact ⟨hP, le_antisymm has hsa, hae⟩
      · exact absurd ((hhd a ha).trans has) hbs
    obtain ⟨hP, hlo, hhi⟩ := hfirst
    rcases hhi.eq_or_lt with heq | hlt
    · refine ⟨[], [b], l, rfl, ⟨hlo, heq⟩, ?_⟩
      intro a ha
      obtain rfl := mem_singleton.mp ha
      exact ⟨hP, hlo.ge, hhi⟩
    obtain ⟨A, M, C, hl, ht, hM⟩ := ih htl hlt (by
      intro x hbx hxe
      obtain ⟨a, ha, hP, hba, -, hrest⟩ := hbehind x (hlo.ge.trans (hb.le.trans hbx)) hxe hbx
      exact ⟨a, ha, hP, hba, hrest⟩)
    -- nothing stands between `b` and the items behind it
    have hnil : A = [] := by
      cases M with
      | nil => exact absurd ht (Nat.ne_of_lt hlt)
      | cons m M =>
        refine eq_nil_iff_forall_not_mem.mpr ?_
        intro a ha
        rw [hl] at htl hhd
        obtain ⟨hA, -, hAM⟩ := Ordered.append_iff.mp htl
        have h1 := hhd a (mem_append_left _ ha)
        have h2 := hAM a ha m (mem_append_left _ mem_cons_self)
        rw [ht.1] at h2
        exact absurd (h1.trans_lt (hA.nonempty a ha)) (not_lt.mpr h2)
    rw [hnil] at hl
    refine ⟨[], b :: M, C, by rw [hl]; rfl, ⟨hlo, ht⟩, ?_⟩
    intro a ha
    rcases mem_cons.mp ha with rfl | ha
    · exact ⟨hP, hlo.ge, hhi⟩
    · obtain ⟨hPa, hba, hae⟩ := hM a ha
      exact ⟨hPa, hlo.ge.trans (hb.le.trans hba), hae⟩

theorem Tiles.le (h : Tiles lo hi l s e) (hne : ∀ a ∈ l, lo a < hi a) : s ≤ e := by
  induction l generalizing s with
  | nil => exact le_of_eq h
  | cons a l ih =>
    obtain ⟨hlo, ht⟩ := h
    obtain ⟨ha, hl⟩ := forall_mem_cons.mp hne
    exact hlo.ge.trans (ha.le.trans (ih ht hl))

end Sirius.Lib
