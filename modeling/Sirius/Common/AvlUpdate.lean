import Sirius.Common.AvlHeap

/-! # Inserting and removing

    A subtree has grown, or become lower, by one; the context has the old balances.  Each
    round of the loops deals with its innermost frame and ends, or passes the difference on.
    -/

namespace Sirius.Avl

open Sirius.Lib Sirius.Lib.BalTree List

variable {A : Type} [DecidableEq A]

/-- What a sequence of pointer changes has made of a tree: the same labels, in balance. -/
def Settled (s s' : AvlTree A) (T : BalTree A) : Prop :=
  ∃ T', Rep s' T' ∧ T'.Balanced ∧ T'.toList = T.toList ∧ s'.numnodes = s.numnodes

variable {c : List (Frame A)} {t : BalTree A}

omit [DecidableEq A] in
theorem toList_plug_congr {t' : BalTree A} (h : t'.toList = t.toList) :
    (plug c t').toList = (plug c t).toList := by
  rw [toList_plug, toList_plug, h]

variable {d : Bool} {x : A}

omit [DecidableEq A] in
theorem toList_join_congr {b b' : ℤ} {u : BalTree A} :
    (join d b' x t u).toList = (join d b x t u).toList := by
  rw [toList_join, toList_join]

/-- **THE LOOP OF `avl_insert`**: a subtree has grown from height `h`, to one that leans, or
    is a single node. -/
theorem insertLoop_spec :
    ∀ (c : List (Frame A)) (t : BalTree A) (s : AvlTree A) (h fuel : ℕ) (d : Bool),
      Rep s (plug c t) → t.Balanced → t.height = h + 1 → CtxBalanced c h →
      (h = 0 ∨ t.rootBal ≠ 0) → c.length < fuel → (∀ q e, ctxLink c = some (q, e) → d = e) →
      ∃ s', insertLoop fuel s ((ctxLink c).map Prod.fst) d = some s' ∧ Settled s s' (plug c t) := by
  intro c
  induction c with
  | nil =>
    intro t s h fuel d hrep hbal _ _ _ hfuel _
    obtain ⟨n, rfl⟩ := Nat.exists_eq_add_of_lt hfuel
    exact ⟨s, rfl, t, hrep, hbal, rfl, rfl⟩
  | cons f c ih =>
    intro t s h fuel d hrep hbal hh hctx hgrown hfuel hd
    obtain ⟨n, rfl⟩ : ∃ n, fuel = n + 1 := ⟨fuel - 1, by omega⟩
    obtain rfl := hd f.x f.side rfl
    obtain ⟨hb, hb1, hb2, hsib, hup⟩ := hctx
    have hsign := sign_mul_cases f.side (h - f.sib.height)
    have hrep' : Rep s (plug c (join f.side f.b f.x t f.sib)) := hrep
    obtain ⟨-, hx⟩ := own_plug.mp hrep'.own
    obtain ⟨-, -, hxb, hlink, -⟩ := own_join.mp hx
    show ∃ s', insertLoop (n + 1) s (some f.x) f.side = some s' ∧ _
    rw [insertLoop]
    simp only [hxb]
    by_cases h0 : f.b + sign f.side = 0
    · -- The lower side has caught up.
      rw [if_pos h0]
      refine ⟨_, rfl, plug c (join f.side 0 f.x t f.sib), hrep'.setBalance, ?_, ?_, rfl⟩
      · rw [balanced_plug, balanced_join, height_join]
        have hs : f.sib.height = h + 1 := by omega
        rw [hs] at hup ⊢
        rw [hh]
        refine ⟨⟨by simp, by omega, by omega, hbal, hsib⟩, ?_⟩
        rwa [max_eq_right (Nat.le_succ h), ← max_self h.succ] at hup
      · exact toList_plug_congr toList_join_congr
    · rw [if_neg h0]
      by_cases hz : f.b = 0
      · -- The subtree above has grown too.
        rw [if_neg (not_not.mpr hz)]
        have hs : f.sib.height = h := by omega
        have hrep2 : Rep (s.setBalance f.x (f.b + sign f.side))
          (plug c (join f.side (f.b + sign f.side) f.x t f.sib)) := hrep'.setBalance
        have hfields : ((s.setBalance f.x (f.b + sign f.side)).heap f.x).parent =
            (s.heap f.x).parent ∧ ((s.setBalance f.x (f.b + sign f.side)).heap f.x).childIndex =
            (s.heap f.x).childIndex := by simp
        obtain ⟨hpar, hidx⟩ := hlink.ctx
        have hbal2 : (join f.side (f.b + sign f.side) f.x t f.sib).Balanced := by
          have := sign_mul_cases f.side (t.height - f.sib.height)
          rw [balanced_join]
          exact ⟨by omega, by omega, by omega, hbal, hsib⟩
        have hh2 : (join f.side (f.b + sign f.side) f.x t f.sib).height = h + 1 + 1 := by
          rw [height_join]
          omega
        rw [hs, max_self] at hup
        obtain ⟨s', hs', T', hT', hbT', hlT', hnT'⟩ := ih _ _ (h + 1) n
          ((s.heap f.x).childIndex) hrep2 hbal2 hh2 hup (.inr (by rwa [rootBal_join]))
          (by simpa using hfuel) hidx
        refine ⟨s', ?_, T', hT', hbT', hlT'.trans (toList_plug_congr toList_join_congr), hnT'⟩
        rw [hfields.1, hfields.2, hpar]
        exact hs'
      · -- It was higher on this side already.
        rw [if_pos hz]
        obtain ⟨T, sh, hrot⟩ := exists_rotation (d := f.side) (x := f.x) hbal
          (show t.height = f.sib.height + 2 by omega)
        obtain ⟨s', hs', hrepT, hnum⟩ := avlRotation_spec hrep' hrot
        have hsh := hrot.lowers hbal (hgrown.resolve_left (by omega))
        obtain ⟨hbT, hhT⟩ := hrot.balanced hbal hsib (by omega)
        rw [hsh] at hhT
        refine ⟨s', ?_, plug c T, hrepT, ?_, ?_, hnum⟩
        · rw [show f.b + sign f.side = 2 * sign f.side by omega, hs']
          rfl
        · rw [balanced_plug]
          refine ⟨hbT, ?_⟩
          rw [show T.height = max h f.sib.height + 1 by simp at hhT; omega]
          exact hup
        · exact toList_plug_congr (hrot.toList f.b)

omit [DecidableEq A] in
theorem length_le_plug (c : List (Frame A)) (t : BalTree A) :
    t.toList.length + c.length ≤ (plug c t).toList.length := by
  rw [(toList_plug_perm c t).length_eq, length_append]
  exact Nat.add_le_add_left (length_le_ctxList c) _

variable {s : AvlTree A} {fuel : ℕ}

/-- **`avl_insert` AT A FREE PLACE**: the new node stands there, and the tree is balanced. -/
theorem avlInsert_spec {new : A} (hrep : Rep s (plug c nil))
    (hbal : (plug c nil).Balanced) (hnew : new ∉ (plug c nil).toList)
    (hd : ∀ q e, ctxLink c = some (q, e) → d = e) (hfuel : (plug c nil).toList.length < fuel) :
    ∃ s' T, avlInsert fuel s new ⟨(ctxLink c).map Prod.fst, d⟩ = some s' ∧ Rep s' T ∧
      T.Balanced ∧ T.toList = ctxLeft c ++ new :: ctxRight c ∧ s'.numnodes = s.numnodes + 1 := by
  have hfresh : new ∉ ctxList c := by
    rw [(toList_plug_perm c nil).mem_iff] at hnew
    simpa [toList] using hnew
  obtain ⟨hctx, -⟩ := own_plug.mp hrep.own
  have hnd : ((node 0 nil new nil : BalTree A).toList ++ ctxList c).Nodup := by
    have := (toList_plug_perm c nil).nodup_iff.mp hrep.nodup
    simpa [toList, hfresh] using this
  -- The tree with the new leaf, before any balance has been looked at.
  have hleaf : ∃ s1 : AvlTree A, avlInsert fuel s new ⟨(ctxLink c).map Prod.fst, d⟩ =
      insertLoop fuel s1 ((ctxLink c).map Prod.fst) d ∧ Rep s1 (plug c (node 0 nil new nil)) ∧
      s1.numnodes = s.numnodes + 1 := by
    rw [avlInsert]
    rw [if_neg]
    · refine ⟨_, rfl, Rep.relink hrep (by simp) (fun a ha => ?_) ⟨?_, ?_, ?_, ?_, trivial, trivial⟩
        hnd rfl hd rfl, by simp⟩
      · have hne : a ≠ new := fun he => hfresh (he ▸ ha)
        simp [hne]
      · simp [top]
      · simp [top]
      · simp
      cases c with
      | nil => simp [ctxLink, Linked]
      | cons f c =>
        obtain rfl := hd f.x f.side rfl
        simp [ctxLink, Linked]
    · cases c with
      | nil => simpa [ctxLink, plug, top] using hrep.root
      | cons f c =>
        obtain rfl := hd f.x f.side rfl
        have hne : f.x ≠ new := fun he => hfresh (he ▸ by simp [ctxList])
        simpa [ctxLink, hne, top] using hctx.1
  obtain ⟨s1, hs1, hrep1, hnum1⟩ := hleaf
  have hlen := length_le_plug c nil
  obtain ⟨s', hs', T, hT, hbT, hlT, hnT⟩ := insertLoop_spec c (node 0 nil new nil) s1 0 fuel d
    hrep1 (by simp [BalTree.Balanced]) rfl (balanced_plug.mp hbal).2 (.inl rfl)
    (by simp [toList] at hlen; omega) hd
  refine ⟨s', T, hs1.trans hs', hT, hbT, ?_, hnT.trans hnum1⟩
  rw [hlT, toList_plug]
  simp [toList]

/-- One round of the loop of `avl_remove`, for a subtree of height `h` that was one higher
    before; `hagain` is the rest of the rounds. -/
theorem removeLoop_step {f : Frame A} {n : ℕ} (hrep : Rep s (plug (f :: c) t)) (hbal : t.Balanced)
    (hctx : CtxBalanced (f :: c) (t.height + 1))
    (hagain : ∀ s1 t1, Rep s1 (plug c t1) → t1.Balanced → CtxBalanced c (t1.height + 1) →
      ∃ s', (match (s.heap f.x).parent with
        | none => some s1
        | some p => removeLoop n s1 p (s.heap f.x).childIndex) = some s' ∧
        Settled s1 s' (plug c t1)) :
    ∃ s', removeLoop (n + 1) s f.x f.side = some s' ∧ Settled s s' (plug (f :: c) t) := by
  obtain ⟨hb, hb1, hb2, hsib, hup⟩ := hctx
  have hsign := sign_mul_cases f.side ((t.height + 1 : ℕ) - f.sib.height)
  have hrep' : Rep s (plug c (join f.side f.b f.x t f.sib)) := hrep
  obtain ⟨-, hx⟩ := own_plug.mp hrep'.own
  obtain ⟨-, -, hxb, -⟩ := own_join.mp hx
  rw [removeLoop]
  simp only [hxb]
  by_cases hz : f.b = 0
  · -- The two sides were equally high: the tree keeps its height.
    have hs : f.sib.height = t.height + 1 := by omega
    rw [if_pos hz]
    refine ⟨_, rfl, plug c (join f.side (f.b - sign f.side) f.x t f.sib), hrep'.setBalance, ?_,
      toList_plug_congr toList_join_congr, rfl⟩
    have := sign_mul_cases f.side (t.height - f.sib.height)
    rw [balanced_plug, balanced_join, height_join]
    refine ⟨⟨by omega, by omega, by omega, hbal, hsib⟩, ?_⟩
    rw [hs, max_self] at hup
    rwa [hs, max_eq_right (Nat.le_succ t.height)]
  · rw [if_neg hz]
    by_cases h0 : f.b - sign f.side = 0
    · -- The higher side has become lower, and so has the tree.
      have hs : f.sib.height = t.height := by omega
      rw [if_pos h0]
      have hbal2 : (join f.side (f.b - sign f.side) f.x t f.sib).Balanced := by
        rw [balanced_join, h0, hs]
        exact ⟨by simp, by omega, by omega, hbal, hsib⟩
      obtain ⟨s', hs', T, hT, hbT, hlT, hnT⟩ := hagain _ _ hrep'.setBalance hbal2 (by
        rw [height_join, hs, max_self]
        rwa [hs, max_eq_left (Nat.le_succ _)] at hup)
      exact ⟨s', hs', T, hT, hbT, hlT.trans (toList_plug_congr toList_join_congr), hnT⟩
    · -- The other side is now two higher.
      rw [if_neg h0]
      have hs : f.sib.height = t.height + 2 := by omega
      obtain ⟨T, sh, hrot⟩ := exists_rotation (d := !f.side) (x := f.x) hsib hs
      rw [← join_not] at hrep'
      obtain ⟨s', hs', hrepT, hnum⟩ := avlRotation_spec hrep' hrot
      obtain ⟨hbT, hhT⟩ := hrot.balanced hsib hbal hs
      have hlist : (plug c T).toList = (plug (f :: c) t).toList := by
        refine toList_plug_congr ((hrot.toList f.b).trans ?_)
        rw [join_not]
      rw [show f.b - sign f.side = 2 * sign (!f.side) by rw [sign_not]; omega, hs']
      cases sh with
      | false =>
        refine ⟨s', rfl, plug c T, hrepT, ?_, hlist, hnum⟩
        rw [balanced_plug]
        refine ⟨hbT, ?_⟩
        rwa [hs, max_eq_right (by omega), ← show T.height = t.height + 2 + 1 by
          simpa [hs] using hhT] at hup
      | true =>
        obtain ⟨s2, hs2, T2, hT2, hbT2, hlT2, hnT2⟩ := hagain s' T hrepT hbT (by
          rwa [hs, max_eq_right (by omega), ← show T.height + 1 = t.height + 2 + 1 by
            simpa [hs] using hhT] at hup)
        exact ⟨s2, hs2, T2, hT2, hbT2, hlT2.trans hlist, hnT2.trans hnum⟩

theorem removeLoop_spec (c : List (Frame A)) (f : Frame A) (t : BalTree A) (s : AvlTree A)
    (fuel : ℕ) (hrep : Rep s (plug (f :: c) t)) (hbal : t.Balanced)
    (hctx : CtxBalanced (f :: c) (t.height + 1)) (hfuel : c.length < fuel) : ∃ s', removeLoop
    fuel s f.x f.side = some s' ∧ Settled s s' (plug (f :: c) t) := by
  induction c generalizing f t s fuel with
  | nil =>
    obtain ⟨n, rfl⟩ : ∃ n, fuel = n + 1 := ⟨fuel - 1, by omega⟩
    refine removeLoop_step hrep hbal hctx fun s1 t1 hrep1 hbal1 _ => ?_
    have hrep' : Rep s (plug [] (join f.side f.b f.x t f.sib)) := hrep
    obtain ⟨-, -, -, hlink, -⟩ := own_join.mp (own_plug.mp hrep'.own).2
    rw [show (s.heap f.x).parent = none from hlink]
    exact ⟨s1, rfl, t1, hrep1, hbal1, rfl, rfl⟩
  | cons g c ih =>
    obtain ⟨n, rfl⟩ : ∃ n, fuel = n + 1 := ⟨fuel - 1, by omega⟩
    refine removeLoop_step hrep hbal hctx fun s1 t1 hrep1 hbal1 hctx1 => ?_
    have hrep' : Rep s (plug (g :: c) (join f.side f.b f.x t f.sib)) := hrep
    obtain ⟨-, -, -, hlink, -⟩ := own_join.mp (own_plug.mp hrep'.own).2
    rw [hlink.1, hlink.2]
    exact ih g t1 s1 n hrep1 hbal1 hctx1 (by simpa using hfuel)

/-- **THE LAST PART OF `avl_remove`**: a node with at most one child leaves the tree. -/
theorem unlink_spec {b : ℤ} (hrep : Rep s (plug c (join d b x t nil)))
    (hbal : (plug c (join d b x t nil)).Balanced)
    (hfuel : (plug c (join d b x t nil)).toList.length ≤ fuel) (hnum : s.numnodes ≠ 0) :
    ∃ s' T, unlink fuel s x = some s' ∧ Rep s' T ∧ T.Balanced ∧
      T.toList = ctxLeft c ++ t.toList ++ ctxRight c ∧ s'.numnodes = s.numnodes - 1 := by
  obtain ⟨-, hx⟩ := own_plug.mp hrep.own
  obtain ⟨hx1, hx2, -, hlink, ht, -⟩ := own_join.mp hx
  obtain ⟨hpar, hidx⟩ := hlink.ctx
  have hnd := (toList_plug_perm c _).nodup_iff.mp hrep.nodup
  have hap := (((toList_join_perm d b x t nil).append_right _).nodup_iff).mp hnd
  simp only [toList, append_nil, cons_append, nodup_cons] at hap
  have hchild : (if (s.heap x).child false ≠ none then (s.heap x).child false
      else (s.heap x).child true) = t.top := by
    cases d with
    | false =>
      rw [hx1, show (s.heap x).child true = none from hx2]
      split_ifs with h
      · rfl
      · exact (not_not.mp h).symm
    | true => rw [show (s.heap x).child false = none from hx2, if_neg (by simp), hx1]
  obtain ⟨-, -, -, htb, -⟩ := balanced_join.mp (balanced_plug.mp hbal).1
  have hctx := (balanced_plug.mp hbal).2
  rw [height_join, height, max_zero] at hctx
  rw [unlink, if_neg hnum]
  dsimp only
  rw [hchild]
  -- The child takes the place of the node.
  obtain ⟨s1, hs1, hrep1, hnum1⟩ : ∃ s1, (({ s with numnodes := s.numnodes - 1 } : AvlTree A).adopt
      t.top (s.heap x).parent (s.heap x).childIndex |>.relink (s.heap x).parent
      (s.heap x).childIndex t.top) = s1 ∧ Rep s1 (plug c t) ∧ s1.numnodes = s.numnodes - 1 := by
    refine ⟨_, rfl, Rep.relink hrep (by simp) (fun a ha => ?_) (ht.adopt ?_ (fun a ha hne => ?_)
      fun a ha => ?_) ?_ hpar hidx rfl, by simp⟩
    · have hne : t.top ≠ some a := fun he =>
        (nodup_append.mp hap.2).2.2 a (top_mem he) a ha rfl
      simp [hne]
    · exact (nodup_append.mp hap.2).1
    · simp [hne]
    · simp only [heap_adopt_self _ ha]
      exact ⟨trivial, trivial, hlink.copy rfl rfl⟩
    · exact hap.2
  rw [hs1]
  cases c with
  | nil =>
    rw [hpar]
    exact ⟨s1, t, rfl, hrep1, htb, by simp [ctxLeft, ctxRight], hnum1⟩
  | cons f c =>
    rw [hpar, hidx f.x f.side rfl]
    have hlen := length_le_plug (f :: c) (join d b x t nil)
    obtain ⟨s', hs', T, hT, hbT, hlT, hnT⟩ := removeLoop_spec c f t s1 fuel hrep1 htb hctx
      (by simp only [length_cons] at hlen; omega)
    exact ⟨s', T, hs', hT, hbT, hlT.trans (toList_plug _ _), hnT.trans hnum1⟩

end Sirius.Avl
