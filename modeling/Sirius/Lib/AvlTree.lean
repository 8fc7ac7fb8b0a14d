import Mathlib.Data.List.Perm.Basic
import Mathlib.Tactic.Linarith

/-! # Height-balanced trees with a hole

    Binary trees whose nodes store a balance, and the contexts left when a subtree is taken
    out.  `join d` puts its first subtree on side `d`, so that a mirror image is not a second
    case.  `Rotation` is the pair of rotations that repair an imbalance of two. -/

namespace Sirius.Lib

open List

variable {α : Type*}

inductive BalTree (α : Type*)
  | nil
  | node (b : ℤ) (l : BalTree α) (x : α) (r : BalTree α)

namespace BalTree

def top : BalTree α → Option α
  | nil => none
  | node _ _ x _ => some x

def height : BalTree α → ℕ
  | nil => 0
  | node _ l _ r => max l.height r.height + 1

def toList : BalTree α → List α
  | nil => []
  | node _ l x r => l.toList ++ x :: r.toList

/-- Every stored balance is the difference of the heights, and at most one either way. -/
def Balanced : BalTree α → Prop
  | nil => True
  | node b l _ r => b = (r.height : ℤ) - l.height ∧ -1 ≤ b ∧ b ≤ 1 ∧ l.Balanced ∧ r.Balanced

def rootBal : BalTree α → ℤ
  | nil => 0
  | node b _ _ _ => b

/-- The sign of a side: what a taller subtree there adds to the balance. -/
def sign (d : Bool) : ℤ := if d then 1 else -1

@[simp] theorem sign_not (d : Bool) : sign (!d) = -sign d := by cases d <;> rfl

theorem sign_cases (d : Bool) : sign d = 1 ∨ sign d = -1 := by
  cases d with
  | false => exact .inr rfl
  | true => exact .inl rfl

theorem sign_mul_cases (d : Bool) (z : ℤ) :
    sign d = 1 ∧ sign d * z = z ∨ sign d = -1 ∧ sign d * z = -z := by
  cases d <;> simp [sign]

/-- A node with `t` on side `d` and `s` on the other. -/
def join (d : Bool) (b : ℤ) (x : α) (t s : BalTree α) : BalTree α :=
  match d with
  | false => node b t x s
  | true => node b s x t

@[simp] theorem top_join (d : Bool) (b : ℤ) (x : α) (t s : BalTree α) :
    (join d b x t s).top = some x := by cases d <;> rfl

@[simp] theorem rootBal_join (d : Bool) (b : ℤ) (x : α) (t s : BalTree α) :
    (join d b x t s).rootBal = b := by cases d <;> rfl

@[simp] theorem height_join (d : Bool) (b : ℤ) (x : α) (t s : BalTree α) :
    (join d b x t s).height = max t.height s.height + 1 := by
  cases d with
  | false => rfl
  | true => rw [join, height, max_comm]

variable {t : BalTree α} {x : α} {d : Bool}

theorem balanced_join {b : ℤ} {s : BalTree α} :
    (join d b x t s).Balanced ↔ b = sign d * ((t.height : ℤ) - s.height) ∧ -1 ≤ b ∧ b ≤ 1 ∧
      t.Balanced ∧ s.Balanced := by
  cases d with
  | false =>
    simp only [sign]
    constructor <;> rintro ⟨h1, h2, h3, h4, h5⟩ <;> refine ⟨?_, h2, h3, h4, h5⟩
    · simp; omega
    · simp at h1; omega
  | true =>
    simp only [sign]
    constructor <;> rintro ⟨h1, h2, h3, h4, h5⟩ <;> refine ⟨?_, h2, h3, h5, h4⟩
    · simp; omega
    · simp at h1; omega

/-- What stands left of the subtree on side `d`, and right of it. -/
def leftOf (d : Bool) (x : α) (s : BalTree α) : List α := if d then s.toList ++ [x] else []
def rightOf (d : Bool) (x : α) (s : BalTree α) : List α := if d then [] else x :: s.toList

theorem toList_join (d : Bool) (b : ℤ) (x : α) (t s : BalTree α) :
    (join d b x t s).toList = leftOf d x s ++ t.toList ++ rightOf d x s := by
  cases d with
  | false | true => simp [join, toList, leftOf, rightOf]

theorem toList_join_perm (d : Bool) (b : ℤ) (x : α) (t s : BalTree α) :
    (join d b x t s).toList.Perm (x :: (t.toList ++ s.toList)) := by
  cases d with
  | false => exact perm_middle
  | true =>
    refine perm_middle.trans (List.Perm.cons x ?_)
    exact perm_append_comm

theorem eq_nil_or_join (d : Bool) (t : BalTree α) :
    t = nil ∨ ∃ b x near far, t = join d b x near far := by
  cases t with
  | nil => exact .inl rfl
  | node b l x r =>
    cases d with
    | false => exact .inr ⟨b, x, l, r, rfl⟩
    | true => exact .inr ⟨b, x, r, l, rfl⟩

theorem join_not (d : Bool) (b : ℤ) (x : α) (t s : BalTree α) :
    join (!d) b x t s = join d b x s t := by cases d <;> rfl

theorem top_eq_none : t.top = none ↔ t = nil := by
  cases t with
  | nil | node b l x r => simp [top]

theorem top_mem (h : t.top = some x) : x ∈ t.toList := by
  cases t with
  | nil => cases h
  | node b l y r =>
    cases h
    simp [toList]

theorem height_pos (h : 0 < t.height) (d : Bool) : ∃ b x near far, t = join d b x near far := by
  rcases eq_nil_or_join d t with rfl | h'
  · exact absurd h (Nat.lt_irrefl 0)
  · exact h'

/-- Going down from the root, to the left of a label if the comparison says `lt`. -/
def search (cmp : α → Ordering) : BalTree α → Option α
  | nil => none
  | node _ l x r =>
    match cmp x with
    | .lt => search cmp l
    | .eq => some x
    | .gt => search cmp r

theorem search_spec {cmp : α → Ordering} (h : t.toList.Pairwise fun a b =>
      (cmp a = .lt → cmp b = .lt) ∧ (cmp b = .gt → cmp a = .gt)) :
    (∀ y, t.search cmp = some y → y ∈ t.toList ∧ cmp y = .eq) ∧
      (t.search cmp = none → ∀ y ∈ t.toList, cmp y ≠ .eq) := by
  induction t with
  | nil => exact ⟨nofun, fun _ => nofun⟩
  | node b l x r ihl ihr =>
    obtain ⟨hl, hxr, hlx⟩ := pairwise_append.mp h
    obtain ⟨hx, hr⟩ := pairwise_cons.mp hxr
    simp only [toList, mem_append, mem_cons]
    rw [search]
    cases hc : cmp x with
    | lt =>
      refine ⟨fun y hy => ⟨.inl ((ihl hl).1 y hy).1, ((ihl hl).1 y hy).2⟩, ?_⟩
      rintro hn y (hy | rfl | hy)
      · exact (ihl hl).2 hn y hy
      · rw [hc]; nofun
      · rw [(hx y hy).1 hc]; nofun
    | eq =>
      refine ⟨fun y hy => ?_, nofun⟩
      obtain rfl := Option.some.inj hy
      exact ⟨.inr (.inl rfl), hc⟩
    | gt =>
      refine ⟨fun y hy => ⟨.inr (.inr ((ihr hr).1 y hy).1), ((ihr hr).1 y hy).2⟩, ?_⟩
      rintro hn y (hy | rfl | hy)
      · rw [(hlx y hy x mem_cons_self).2 hc]; nofun
      · rw [hc]; nofun
      · exact (ihr hr).2 hn y hy

structure Frame (α : Type*) where
  side : Bool
  b : ℤ
  x : α
  sib : BalTree α

def plug : List (Frame α) → BalTree α → BalTree α
  | [], t => t
  | f :: c, t => plug c (join f.side f.b f.x t f.sib)

def ctxLeft : List (Frame α) → List α
  | [] => []
  | f :: c => ctxLeft c ++ leftOf f.side f.x f.sib

def ctxRight : List (Frame α) → List α
  | [] => []
  | f :: c => rightOf f.side f.x f.sib ++ ctxRight c

def ctxList : List (Frame α) → List α
  | [] => []
  | f :: c => f.x :: (f.sib.toList ++ ctxList c)

@[simp] theorem plug_append (c c' : List (Frame α)) (t : BalTree α) :
    plug (c ++ c') t = plug c' (plug c t) := by
  induction c generalizing t with
  | nil => rfl
  | cons f c ih => exact ih _

theorem toList_plug (c : List (Frame α)) (t : BalTree α) :
    (plug c t).toList = ctxLeft c ++ t.toList ++ ctxRight c := by
  induction c generalizing t with
  | nil => simp [plug, ctxLeft, ctxRight]
  | cons f c ih => simp [plug, ih, toList_join, ctxLeft, ctxRight]

theorem toList_plug_perm (c : List (Frame α)) (t : BalTree α) :
    (plug c t).toList.Perm (t.toList ++ ctxList c) := by
  induction c generalizing t with
  | nil =>
    rw [plug, ctxList, append_nil]
  | cons f c ih =>
    refine (ih _).trans ?_
    refine ((toList_join_perm f.side f.b f.x t f.sib).append_right _).trans ?_
    rw [cons_append, append_assoc]
    exact perm_middle.symm

theorem length_le_ctxList (c : List (Frame α)) : c.length ≤ (ctxList c).length := by
  induction c with
  | nil => exact Nat.le_refl 0
  | cons f c ih =>
    simp only [length_cons, ctxList, length_append]
    omega

theorem ctxLeft_append (c c' : List (Frame α)) : ctxLeft (c ++ c') = ctxLeft c' ++ ctxLeft c := by
  induction c with
  | nil => simp [ctxLeft]
  | cons f c ih => rw [cons_append, ctxLeft, ih, append_assoc, ctxLeft]

theorem ctxRight_append (c c' : List (Frame α)) :
    ctxRight (c ++ c') = ctxRight c ++ ctxRight c' := by
  induction c with
  | nil => simp [ctxRight]
  | cons f c ih => rw [cons_append, ctxRight, ih, ctxRight, append_assoc]

theorem ctx_one_sided {c : List (Frame α)} (h : ∀ f ∈ c, f.side = d) :
    (if d then ctxRight c else ctxLeft c) = [] := by
  induction c with
  | nil => cases d <;> rfl
  | cons f c ih =>
    have hf := h f (mem_cons_self ..)
    have hc := ih fun g hg => h g (mem_cons_of_mem _ hg)
    cases d with
    | false => simpa [ctxLeft, leftOf, hf] using hc
    | true => simpa [ctxRight, rightOf, hf] using hc

theorem exists_plug {T : BalTree α} (d : Bool) (h : x ∈ T.toList) :
    ∃ c b near far, T = plug c (join d b x near far) := by
  induction T with
  | nil => cases h
  | node b l y r ihl ihr =>
    simp only [toList, mem_append, mem_cons] at h
    rcases h with h | rfl | h
    · obtain ⟨c, b', near, far, rfl⟩ := ihl h
      exact ⟨c ++ [⟨false, b, y, r⟩], b', near, far, by simp [plug, join]⟩
    · rcases eq_nil_or_join d (node b l x r) with h | ⟨b', x', near, far, he⟩
      · cases h
      · have hx : some x = some x' := (congrArg top he).trans (top_join ..)
        cases hx
        exact ⟨[], b', near, far, he⟩
    · obtain ⟨c, b', near, far, rfl⟩ := ihr h
      exact ⟨c ++ [⟨true, b, y, l⟩], b', near, far, by simp [plug, join]⟩

/-- A context is balanced around a subtree of height `h`. -/
def CtxBalanced : List (Frame α) → ℕ → Prop
  | [], _ => True
  | f :: c, h => f.b = sign f.side * ((h : ℤ) - f.sib.height) ∧ -1 ≤ f.b ∧ f.b ≤ 1 ∧
      f.sib.Balanced ∧ CtxBalanced c (max h f.sib.height + 1)

theorem balanced_plug {c : List (Frame α)} :
    (plug c t).Balanced ↔ t.Balanced ∧ CtxBalanced c t.height := by
  induction c generalizing t with
  | nil => simp [plug, CtxBalanced]
  | cons f c ih =>
    rw [plug, ih, balanced_join, height_join]
    constructor
    · rintro ⟨⟨h1, h2, h3, h4, h5⟩, h6⟩
      exact ⟨h4, h1, h2, h3, h5, h6⟩
    · rintro ⟨h4, h1, h2, h3, h5, h6⟩
      exact ⟨⟨h1, h2, h3, h4, h5⟩, h6⟩

section

variable {β : Type*} (ρ : α → β)

def map : BalTree α → BalTree β
  | nil => nil
  | node b l x r => node b l.map (ρ x) r.map

def Frame.map (f : Frame α) : Frame β := ⟨f.side, f.b, ρ f.x, f.sib.map ρ⟩

@[simp] theorem top_map (t : BalTree α) : (t.map ρ).top = t.top.map ρ := by cases t <;> rfl

@[simp] theorem height_map (t : BalTree α) : (t.map ρ).height = t.height := by
  induction t with
  | nil => rfl
  | node b l x r ihl ihr => rw [map, height, height, ihl, ihr]

theorem toList_map (t : BalTree α) : (t.map ρ).toList = t.toList.map ρ := by
  induction t with
  | nil => rfl
  | node b l x r ihl ihr => rw [map, toList, toList, ihl, ihr, map_append, map_cons]

theorem balanced_map : (t.map ρ).Balanced ↔ t.Balanced := by
  induction t with
  | nil => rfl
  | node b l x r ihl ihr => simp only [map, Balanced, height_map, ihl, ihr]

theorem map_join (d : Bool) (b : ℤ) (x : α) (t s : BalTree α) :
    (join d b x t s).map ρ = join d b (ρ x) (t.map ρ) (s.map ρ) := by
  cases d <;> rfl

theorem map_plug (c : List (Frame α)) (t : BalTree α) :
    (plug c t).map ρ = plug (c.map (Frame.map ρ)) (t.map ρ) := by
  induction c generalizing t with
  | nil => rfl
  | cons f c ih => simp only [plug, ih, map_join, map_cons, Frame.map]

theorem leftOf_map (d : Bool) (x : α) (s : BalTree α) :
    leftOf d (ρ x) (s.map ρ) = (leftOf d x s).map ρ := by
  cases d <;> simp [leftOf, toList_map]

theorem rightOf_map (d : Bool) (x : α) (s : BalTree α) :
    rightOf d (ρ x) (s.map ρ) = (rightOf d x s).map ρ := by
  cases d <;> simp [rightOf, toList_map]

theorem ctxLeft_map (c : List (Frame α)) : ctxLeft (c.map (Frame.map ρ)) = (ctxLeft c).map ρ := by
  induction c with
  | nil => rfl
  | cons f c ih =>
    rw [map_cons, ctxLeft, ih, ctxLeft, map_append, ← leftOf_map]
    rfl

theorem ctxRight_map (c : List (Frame α)) :
    ctxRight (c.map (Frame.map ρ)) = (ctxRight c).map ρ := by
  induction c with
  | nil => rfl
  | cons f c ih =>
    rw [map_cons, ctxRight, ih, ctxRight, map_append, ← rightOf_map]
    rfl

end

/-- The rotations at a node `x` that is two too high on side `d`: its subtree `near` there
    becomes part of the result, which is lower than the unbalanced tree if `shorter`. -/
inductive Rotation (d : Bool) (x : α) (far : BalTree α) : BalTree α → BalTree α → Bool → Prop
  | single {cb : ℤ} {y : α} {outer inner : BalTree α} (h : cb ≠ -sign d) :
      Rotation d x far (join d cb y outer inner)
        (join d (cb + -sign d) y outer (join d (-(cb + -sign d)) x inner far)) (cb + -sign d = 0)
  | double {gb : ℤ} {y z : α} {outer gnear gfar : BalTree α} :
      Rotation d x far (join d (-sign d) y outer (join d gb z gnear gfar))
        (join d 0 z (join d (if gb = -sign d then sign d else 0) y outer gnear)
          (join d (if gb = sign d then -sign d else 0) x gfar far)) true

variable {d : Bool} {x : α} {far near t : BalTree α} {shorter : Bool}

section

variable (h : Rotation d x far near t shorter)

include h

theorem Rotation.toList (b : ℤ) : t.toList = (join d b x near far).toList := by
  cases h with
  | single h | double => cases d <;> simp [join, BalTree.toList]

/-- **A ROTATION REPAIRS**: it gives a balanced tree, lower by one exactly if it says so. -/
theorem Rotation.balanced (hn : near.Balanced)
    (hf : far.Balanced) (hh : near.height = far.height + 2) :
    t.Balanced ∧ t.height + (if shorter then 1 else 0) = near.height + 1 := by
  cases h with
  | @single cb y outer inner hcb =>
    obtain ⟨hb, h1, h2, ho, hi⟩ := balanced_join.mp hn
    rw [height_join] at hh ⊢
    simp only [balanced_join, height_join, ho, hi, hf, decide_eq_true_eq]
    -- The heights are numbers once the side is fixed.
    rcases sign_cases d with hs | hs <;> rw [hs] at hb hcb ⊢ <;>
      refine ⟨⟨?_, ?_, ?_, trivial, ?_, ?_, ?_, trivial, trivial⟩, ?_⟩ <;> (try split_ifs) <;> omega
  | @double gb y z outer gnear gfar =>
    obtain ⟨hb, h1, h2, ho, hi⟩ := balanced_join.mp hn
    obtain ⟨hgb, hg1, hg2, hgn, hgf⟩ := balanced_join.mp hi
    rw [height_join] at hb hh ⊢
    rw [height_join] at hh ⊢
    simp only [balanced_join, height_join, ho, hgn, hgf, hf]
    rcases sign_cases d with hs | hs <;> rw [hs] at hb hgb ⊢
    · refine ⟨⟨?_, ?_, ?_, ⟨?_, ?_, ?_, trivial, trivial⟩, ?_, ?_, ?_, trivial, trivial⟩, ?_⟩
        <;> (try split_ifs) <;> omega
    · refine ⟨⟨?_, ?_, ?_, ⟨?_, ?_, ?_, trivial, trivial⟩, ?_, ?_, ?_, trivial, trivial⟩, ?_⟩
        <;> (try split_ifs) <;> omega

theorem Rotation.lowers (hn : near.Balanced) (hb : near.rootBal ≠ 0) : shorter = true := by
  cases h with
  | single hcb =>
    obtain ⟨-, h1, h2, -⟩ := balanced_join.mp hn
    rw [rootBal_join] at hb
    rcases sign_cases d with hs | hs <;> rw [hs] at hcb ⊢ <;> simp <;> omega
  | double => rfl

end

theorem exists_rotation (hn : near.Balanced) (hh : near.height = far.height + 2) :
    ∃ t shorter, Rotation d x far near t shorter := by
  obtain ⟨cb, y, outer, inner, rfl⟩ := height_pos (t := near) (by omega) d
  by_cases hcb : cb = -sign d
  · subst hcb
    obtain ⟨hb, -⟩ := balanced_join.mp hn
    have hi : 0 < inner.height := by rcases sign_cases d with hs | hs <;> rw [hs] at hb <;> omega
    obtain ⟨-, z, -, -, rfl⟩ := height_pos hi d
    exact ⟨_, _, .double⟩
  · exact ⟨_, _, .single hcb⟩

end BalTree

end Sirius.Lib
