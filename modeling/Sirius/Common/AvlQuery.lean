import Sirius.Common.AvlRemove

/-! # Searching and walking

    `avl_first`, `avl_last`, `avl_walk`, `avl_find` and `avl_nearest` on a tree in memory, in
    terms of the list of its nodes. -/

namespace Sirius.Avl

open Sirius.Lib Sirius.Lib.BalTree List

variable {A : Type}

def endOf (d : Bool) (L : List A) : Option A := if d then L.getLast? else L.head?

def ctxSide (d : Bool) (c : List (Frame A)) : List A := if d then ctxRight c else ctxLeft c

/-- What stands on one side of a node: its subtree there, and what is beyond. -/
def beside (d : Bool) (c : List (Frame A)) (near : BalTree A) : List A :=
  if d then near.toList ++ ctxRight c else ctxLeft c ++ near.toList

theorem endOf_join (d : Bool) (b : ℤ) (x : A) (near far : BalTree A) :
    endOf d (join d b x near far).toList = (endOf d near.toList).or (some x) := by
  cases d with
  | false =>
    simp only [join, toList]
    cases near.toList <;> rfl
  | true => simp [endOf, join, toList, getLast?_cons]

variable {c : List (Frame A)} {d : Bool} {b : ℤ} {x : A} {fuel : ℕ}

theorem endOf_plug {n : A} {sub : BalTree A}
    (hc : ∀ f ∈ c, f.side = d) : endOf d (plug c (join (!d) b n sub nil)).toList = some n := by
  have hside := ctx_one_sided hc
  rw [toList_plug]
  cases d with
  | false =>
    have hl : ctxLeft c = [] := hside
    simp [endOf, hl, join, toList]
  | true =>
    have hr : ctxRight c = [] := hside
    simp [endOf, hr, join, toList]

theorem endOf_beside {near : BalTree A} :
    endOf (!d) (beside d c near) = (endOf (!d) near.toList).or (endOf (!d) (ctxSide d c)) := by
  cases d with
  | false | true => simp [endOf, beside, ctxSide]

theorem endOf_ctxSide_cons (d : Bool) (f : Frame A) (c : List (Frame A)) :
    endOf (!d) (ctxSide d (f :: c)) =
      if f.side = !d then some f.x else endOf (!d) (ctxSide d c) := by
  cases d with
  | false =>
    cases hf : f.side with
    | false => simp [ctxSide, ctxLeft, leftOf, hf]
    | true => simp [endOf, ctxSide, ctxLeft, leftOf, hf]
  | true =>
    cases hf : f.side with
    | false => simp [endOf, ctxSide, ctxRight, rightOf, hf]
    | true => simp [ctxSide, ctxRight, rightOf, hf]

theorem endOf_ctxSide_append {c' : List (Frame A)} (h : ∀ f ∈ c, f.side = d) :
    endOf (!d) (ctxSide d (c ++ c')) = endOf (!d) (ctxSide d c') := by
  induction c with
  | nil => rfl
  | cons f c ih =>
    have hf : ¬ f.side = !d := by
      rw [h f (mem_cons_self ..)]
      exact Bool.self_ne_not d
    rw [cons_append, endOf_ctxSide_cons, if_neg hf]
    exact ih fun g hg => h g (mem_cons_of_mem _ hg)

section

variable {s : AvlTree A}

theorem lastNode_spec (d : Bool) (fuel : ℕ) {t : BalTree A} {link : Option (A × Bool)}
    {prev : Option A} (h : Own s.heap link t) (hfuel : t.toList.length < fuel) :
    lastNode s d fuel t.top prev = some ((endOf d t.toList).or prev) := by
  induction fuel generalizing t link prev with
  | zero => exact absurd hfuel (Nat.not_lt_zero _)
  | succ fuel ih =>
    rcases eq_nil_or_join d t with rfl | ⟨b, x, near, far, rfl⟩
    · cases d <;> rfl
    obtain ⟨h1, -, -, -, hn, -⟩ := own_join.mp h
    have hlen := (toList_join_perm d b x near far).length_eq
    simp only [length_cons, length_append] at hlen
    rw [top_join, lastNode, h1, ih hn (by omega), endOf_join, Option.or_assoc]
    rfl

theorem ascend_spec (left : Bool) :
    ∀ {x : A} {fuel : ℕ}, Linked (s.heap x) (ctxLink c) → OwnCtx s.heap c (some x) →
      c.length < fuel → ascend s (!left) fuel x = some (endOf (!left) (ctxSide left c)) := by
  induction c with
  | nil =>
    intro x fuel hlink _ hfuel
    obtain ⟨n, rfl⟩ : ∃ n, fuel = n + 1 := ⟨fuel - 1, by omega⟩
    rw [ascend, show (s.heap x).parent = none from hlink]
    cases left <;> rfl
  | cons f c ih =>
    intro x fuel hlink hctx hfuel
    obtain ⟨n, rfl⟩ : ∃ n, fuel = n + 1 := ⟨fuel - 1, by omega⟩
    obtain ⟨hp, hi⟩ := hlink
    obtain ⟨-, -, -, hup, -, hc⟩ := hctx
    rw [ascend, hp, endOf_ctxSide_cons]
    dsimp only
    rw [hi]
    by_cases hs : f.side = !left
    · rw [if_pos hs, if_pos hs]
    · rw [if_neg hs, if_neg hs]
      exact ih hup hc (by simpa using hfuel)

theorem avlWalk_spec {left : Bool} {near far : BalTree A}
    (h : Rep s (plug c (join left b x near far)))
    (hfuel : (plug c (join left b x near far)).toList.length ≤ fuel) :
    avlWalk fuel s (some x) left = some (endOf (!left) (beside left c near)) := by
  obtain ⟨hctx, hx⟩ := own_plug.mp h.own
  obtain ⟨h1, -, -, hlink, hn, -⟩ := own_join.mp hx
  have hlen := length_le_plug c (join left b x near far)
  have hlen' := (toList_join_perm left b x near far).length_eq
  simp only [length_cons, length_append] at hlen'
  rw [avlWalk, endOf_beside, h1]
  cases hnear : near.top with
  | none =>
    obtain rfl := top_eq_none.mp hnear
    rw [top_join] at hctx
    rw [ascend_spec left hlink hctx (by omega)]
    cases left <;> rfl
  | some y =>
    obtain ⟨n, c', -, -, hd, rfl, hc'⟩ := descend_spec (!left) fuel hn hnear (by omega)
    dsimp only
    rw [hd, endOf_plug hc']
    rfl

end

/-- What the tree expects of a comparison: a strict weak order, with results `-1`, `0` and
    `1`. -/
structure Comparator {V : Type} (compar : V → V → ℤ) : Prop where
  range : ∀ a b, compar a b = -1 ∨ compar a b = 0 ∨ compar a b = 1
  swap : ∀ a b, compar b a = -compar a b
  trans : ∀ {a b c}, compar a b = -1 → compar b c = -1 → compar a c = -1
  equal : ∀ {a b} c, compar a b = 0 → compar a c = compar b c

section

variable {V : Type} {compar : V → V → ℤ} {data : A → V} {s : AvlTree A}

section

variable (hc : Comparator compar)

include hc

theorem Comparator.self (a : V) : compar a a = 0 := by
  have := hc.swap a a
  omega

theorem Comparator.trans_gt {a b c : V} (h1 : compar a b = 1)
    (h2 : compar b c = 1) : compar a c = 1 := by
  have h1' : compar b a = -1 := by rw [hc.swap a b, h1]
  have h2' : compar c b = -1 := by rw [hc.swap b c, h2]
  rw [hc.swap c a, hc.trans h2' h1']
  rfl

def Sorted (compar : V → V → ℤ) (data : A → V) (L : List A) : Prop :=
  L.Pairwise fun a b => compar (data a) (data b) = -1

/-- The hole of a context is the place of a value: all before are smaller, all after larger. -/
def Fits (compar : V → V → ℤ) (data : A → V) (value : V) (c : List (Frame A)) : Prop :=
  (∀ a ∈ ctxLeft c, compar value (data a) = 1) ∧ ∀ a ∈ ctxRight c, compar value (data a) = -1

/-- The `avl_index_t` of a hole. -/
def ctxIndex (c : List (Frame A)) : Index A :=
  ⟨(ctxLink c).map Prod.fst, ((ctxLink c).map Prod.snd).getD false⟩

theorem Fits.down {value : V} {l r : BalTree A}
    (h : Fits compar data value c) (hs : Sorted compar data (node b l x r).toList) :
    (compar value (data x) = -1 → Fits compar data value (⟨false, b, x, r⟩ :: c)) ∧
    (compar value (data x) = 1 → Fits compar data value (⟨true, b, x, l⟩ :: c)) := by
  obtain ⟨-, hxr, hlx⟩ := pairwise_append.mp hs
  obtain ⟨hxr, -⟩ := pairwise_cons.mp hxr
  constructor
  · intro hd
    refine ⟨by simpa [ctxLeft, leftOf] using h.1, fun a ha => ?_⟩
    simp only [ctxRight, rightOf, Bool.false_eq_true, if_false, mem_append, mem_cons] at ha
    rcases ha with (rfl | ha) | ha
    · exact hd
    · exact hc.trans hd (hxr a ha)
    · exact h.2 a ha
  · intro hd
    refine ⟨fun a ha => ?_, by simpa [ctxRight, rightOf] using h.2⟩
    simp only [ctxLeft, leftOf, if_true, mem_append, mem_singleton] at ha
    rcases ha with ha | ha | rfl
    · exact h.1 a ha
    · refine hc.trans_gt hd ?_
      rw [hc.swap (data a) (data x), hlx a ha x (mem_cons_self ..)]
      rfl
    · exact hd

/-- The loop of `avl_find`, in a subtree whose place fits the value. -/
theorem findLoop_spec (value : V) (fuel : ℕ) :
    ∀ {t : BalTree A} {c : List (Frame A)}, Own s.heap (ctxLink c) t →
      Sorted compar data t.toList → Fits compar data value c → t.toList.length < fuel →
      (∃ x ∈ t.toList, compar value (data x) = 0 ∧
        findLoop compar data s value fuel t.top (ctxIndex c).node (ctxIndex c).child =
          some (some x, ⟨none, false⟩)) ∨ ∃ c', plug c' nil = plug c t ∧ Fits compar data value c' ∧
        findLoop compar data s value fuel t.top (ctxIndex c).node (ctxIndex c).child =
          some (none, ctxIndex c') := by
  induction fuel with
  | zero => exact fun _ _ _ hf => absurd hf (Nat.not_lt_zero _)
  | succ fuel ih =>
    intro t c hown hs hfits hfuel
    cases t with
    | nil => exact .inr ⟨c, rfl, hfits, rfl⟩
    | node b l x r =>
      obtain ⟨h1, h2, -, -, hl, hr⟩ := hown
      obtain ⟨hsl, hsr, -⟩ := pairwise_append.mp hs
      obtain ⟨-, hsr⟩ := pairwise_cons.mp hsr
      obtain ⟨hdl, hdr⟩ := hfits.down hc hs
      simp only [toList, length_append, length_cons] at hfuel
      simp only [top, findLoop, toList, mem_append, mem_cons]
      rcases hc.range value (data x) with hd | hd | hd <;> rw [hd]
      · rw [show balance2child (-1) = false from rfl, h1]
        rcases ih (c := ⟨false, b, x, r⟩ :: c) hl hsl (hdl hd) (by omega) with
          ⟨y, hy, hz, he⟩ | ⟨c', hp, hf, he⟩
        · exact .inl ⟨y, .inl hy, hz, he⟩
        · exact .inr ⟨c', hp, hf, he⟩
      · exact .inl ⟨x, .inr (.inl rfl), hd, rfl⟩
      · rw [show balance2child 1 = true from rfl, h2]
        rcases ih (c := ⟨true, b, x, l⟩ :: c) hr hsr (hdr hd) (by omega) with
          ⟨y, hy, hz, he⟩ | ⟨c', hp, hf, he⟩
        · exact .inl ⟨y, .inr (.inr hy), hz, he⟩
        · exact .inr ⟨c', hp, hf, he⟩

/-- **`avl_find`** finds the node with the value, or the place for it. -/
theorem avlFind_spec (value : V) {T : BalTree A} (h : Rep s T)
    (hs : Sorted compar data T.toList) (hfuel : T.toList.length < fuel) :
    (∃ x ∈ T.toList, compar value (data x) = 0 ∧
      avlFind compar data fuel s value = some (some x, ⟨none, false⟩)) ∨
    ∃ c, plug c nil = T ∧ Fits compar data value c ∧
      avlFind compar data fuel s value = some (none, ctxIndex c) := by
  have := findLoop_spec hc value fuel (c := []) h.own hs ⟨nofun, nofun⟩ hfuel
  rwa [avlFind, h.root]

end

theorem avlNearest_spec {direction : Bool} [DecidableEq A] (h : Rep s (plug c nil))
    (hfuel : (plug c nil).toList.length ≤ fuel) :
    avlNearest fuel s (ctxIndex c) direction = some (endOf (!direction) (ctxSide direction c)) := by
  cases c with
  | nil =>
    have hroot : s.root = none := h.root
    rw [avlNearest, ctxIndex]
    rw [if_pos hroot]
    cases direction <;> rfl
  | cons f c =>
    rw [avlNearest, ctxIndex, ctxLink, endOf_ctxSide_cons]
    simp only [Option.map_some, Option.getD_some]
    by_cases hf : f.side = direction
    · obtain ⟨d, b, x, sib⟩ := f
      obtain rfl : d = direction := hf
      rw [avlWalk_spec (show Rep s (plug c (join d b x nil sib)) from h) hfuel, endOf_beside]
      cases d <;> rfl
    · rw [if_pos hf, if_pos (Bool.eq_not_of_ne hf)]

end

end Sirius.Avl
