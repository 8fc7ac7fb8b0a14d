import Sirius.Common.Avl

/-! # Trees in memory

    `Rep s T`: the nodes of `T` are in memory with pointers, indices and balances as `T` has
    them.  What the code does to a few nodes is said about a subtree in a context:
    `Rep.relink` is the one rule by which a new subtree takes the place of an old one. -/

namespace Sirius.Avl

open Sirius.Lib Sirius.Lib.BalTree List Function

variable {A : Type} [DecidableEq A] {d : Bool} {b : ℤ} {x : A}

section

variable (s : AvlTree A) {a c : A}

@[simp] theorem heap_set_self (n : Node A) : (s.set a n).heap a = n := update_self ..

@[simp] theorem heap_set_ne (n : Node A) (h : c ≠ a) : (s.set a n).heap c = s.heap c :=
  update_of_ne h ..

@[simp] theorem root_set (n : Node A) : (s.set a n).root = s.root := rfl

@[simp] theorem numnodes_set (n : Node A) : (s.set a n).numnodes = s.numnodes := rfl

attribute [simp] AvlTree.setChild AvlTree.setParent AvlTree.setIndex AvlTree.setBalance

@[simp] theorem root_adopt (p q : Option A) (d : Bool) : (s.adopt p q d).root = s.root := by
  cases p <;> rfl

@[simp] theorem numnodes_adopt (p q : Option A) (d : Bool) :
    (s.adopt p q d).numnodes = s.numnodes := by
  cases p <;> rfl

@[simp] theorem numnodes_relink (p q : Option A) (d : Bool) :
    (s.relink p d q).numnodes = s.numnodes := by
  cases p <;> rfl

@[simp] theorem heap_adopt_ne {p q : Option A} (h : p ≠ some c) :
    (s.adopt p q d).heap c = s.heap c := by
  cases p with
  | none => rfl
  | some a =>
    have hne : c ≠ a := fun he => h (congrArg some he.symm)
    simp [AvlTree.adopt, hne]

theorem heap_adopt_self {p q : Option A} (h : p = some c) :
    (s.adopt p q d).heap c = { s.heap c with parent := q, childIndex := d } := by
  subst h
  simp [AvlTree.adopt]

end

def Linked (n : Node A) : Option (A × Bool) → Prop
  | none => n.parent = none
  | some (p, d) => n.parent = some p ∧ n.childIndex = d

/-- The nodes of a tree are in memory, the root linked as given. -/
def Own (H : A → Node A) : Option (A × Bool) → BalTree A → Prop
  | _, .nil => True
  | link, .node b l x r => (H x).child false = l.top ∧ (H x).child true = r.top ∧
      (H x).balance = b ∧ Linked (H x) link ∧ Own H (some (x, false)) l ∧ Own H (some (x, true)) r

def ctxLink : List (Frame A) → Option (A × Bool)
  | [] => none
  | f :: _ => some (f.x, f.side)

/-- The nodes of a context are in memory, around a subtree with the given root. -/
def OwnCtx (H : A → Node A) : List (Frame A) → Option A → Prop
  | [], _ => True
  | f :: c, ptr => (H f.x).child f.side = ptr ∧ (H f.x).child (!f.side) = f.sib.top ∧
      (H f.x).balance = f.b ∧ Linked (H f.x) (ctxLink c) ∧
      Own H (some (f.x, !f.side)) f.sib ∧ OwnCtx H c (some f.x)

structure Rep (s : AvlTree A) (T : BalTree A) : Prop where
  root : s.root = T.top
  own : Own s.heap none T
  nodup : T.toList.Nodup

section

omit [DecidableEq A]

variable {H H' : A → Node A} {link : Option (A × Bool)} {c : List (Frame A)} {t : BalTree A}

theorem own_join {t u : BalTree A} :
    Own H link (join d b x t u) ↔ (H x).child d = t.top ∧ (H x).child (!d) = u.top ∧
      (H x).balance = b ∧ Linked (H x) link ∧ Own H (some (x, d)) t ∧ Own H (some (x, !d)) u := by
  cases d with
  | false => rfl
  | true =>
    constructor
    · rintro ⟨h1, h2, h3, h4, h5, h6⟩
      exact ⟨h2, h1, h3, h4, h6, h5⟩
    · rintro ⟨h1, h2, h3, h4, h5, h6⟩
      exact ⟨h2, h1, h3, h4, h6, h5⟩

theorem own_plug : Own H none (plug c t) ↔ OwnCtx H c t.top ∧ Own H (ctxLink c) t := by
  induction c generalizing t with
  | nil => simp [plug, OwnCtx, ctxLink]
  | cons f c ih =>
    rw [plug, ih, own_join, top_join]
    constructor
    · rintro ⟨hc, h1, h2, h3, h4, h5, h6⟩
      exact ⟨⟨h1, h2, h3, h4, h6, hc⟩, h5⟩
    · rintro ⟨⟨h1, h2, h3, h4, h6, hc⟩, h5⟩
      exact ⟨hc, h1, h2, h3, h4, h5, h6⟩

theorem Own.congr (h : Own H link t) (he : ∀ a ∈ t.toList, H' a = H a) : Own H' link t := by
  induction t generalizing link with
  | nil => trivial
  | node b l x r ihl ihr =>
    obtain ⟨h1, h2, h3, h4, h5, h6⟩ := h
    have hx : H' x = H x := he x (by simp [toList])
    refine ⟨hx ▸ h1, hx ▸ h2, hx ▸ h3, hx ▸ h4, ihl h5 fun a ha => ?_, ihr h6 fun a ha => ?_⟩ <;>
      exact he a (by simp [toList, ha])

theorem Own.adopt {link' : Option (A × Bool)} (h : Own H link t) (hnd : t.toList.Nodup)
    (hrest : ∀ a ∈ t.toList, t.top ≠ some a → H' a = H a)
    (htop : ∀ a, t.top = some a → (H' a).child = (H a).child ∧
      (H' a).balance = (H a).balance ∧ Linked (H' a) link') : Own H' link' t := by
  cases t with
  | nil => trivial
  | node b l x r =>
    obtain ⟨h1, h2, h3, -, h5, h6⟩ := h
    obtain ⟨hc, hb, hl⟩ := htop x rfl
    have hne : ∀ a ∈ l.toList ++ r.toList, top (node b l x r) ≠ some a := by
      intro a ha he
      cases he
      have := (toList_join_perm false b x l r).nodup_iff.mp hnd
      exact (nodup_cons.mp this).1 ha
    refine ⟨hc ▸ h1, hc ▸ h2, hb ▸ h3, hl, h5.congr fun a ha => ?_, h6.congr fun a ha => ?_⟩
    · exact hrest a (by simp [toList, ha]) (hne a (mem_append_left _ ha))
    · exact hrest a (by simp [toList, ha]) (hne a (mem_append_right _ ha))

theorem OwnCtx.congr {ptr : Option A} (h : OwnCtx H c ptr) (he : ∀ a ∈ ctxList c, H' a = H a) :
    OwnCtx H' c ptr := by
  induction c generalizing ptr with
  | nil => trivial
  | cons f c ih =>
    obtain ⟨h1, h2, h3, h4, h5, h6⟩ := h
    have hx : H' f.x = H f.x := he f.x (by simp [ctxList])
    refine ⟨hx ▸ h1, hx ▸ h2, hx ▸ h3, hx ▸ h4, h5.congr fun a ha => ?_, ih h6 fun a ha => ?_⟩ <;>
      exact he a (by simp [ctxList, ha])

theorem top_plug_cons (f : Frame A) (c : List (Frame A)) (t t' : BalTree A) :
    (plug (f :: c) t).top = (plug (f :: c) t').top := by
  induction c generalizing f t t' with
  | nil => simp [plug]
  | cons g c ih => exact ih g _ _

end

variable {c : List (Frame A)} {s : AvlTree A}

/-- **REPLACEMENT**: a subtree `t'` that is in memory, with everything of the context as it
    was, becomes part of the tree when its parent, or the root pointer, is set to it. -/
theorem Rep.relink {s1 : AvlTree A} {t t' : BalTree A} {p ptr : Option A}
    (h : Rep s (plug c t)) (hroot : s1.root = s.root) (hctx : ∀ a ∈ ctxList c, s1.heap a = s.heap a)
    (hown : Own s1.heap (ctxLink c) t') (hnd : (t'.toList ++ ctxList c).Nodup)
    (hp : p = (ctxLink c).map Prod.fst) (hd : ∀ q e, ctxLink c = some (q, e) → d = e)
    (hptr : ptr = t'.top) : Rep (s1.relink p d ptr) (plug c t') := by
  subst hptr
  obtain ⟨hold, -⟩ := own_plug.mp h.own
  have hnodup : (plug c t').toList.Nodup := (toList_plug_perm c t').nodup_iff.mpr hnd
  cases c with
  | nil =>
    subst hp
    exact ⟨rfl, own_plug.mpr ⟨trivial, hown⟩, hnodup⟩
  | cons f c =>
    subst hp
    obtain rfl := hd f.x f.side rfl
    obtain ⟨-, h2, h3, h4, h5, h6⟩ := hold
    -- The one node of the context that changes is the parent.
    have hf : f.x ∉ t'.toList ∧ f.x ∉ f.sib.toList ∧ f.x ∉ ctxList c := by
      have := (perm_middle.nodup_iff).mp hnd
      simpa using (nodup_cons.mp this).1
    have hother : ∀ a, a ≠ f.x → (s1.relink (some f.x) f.side t'.top).heap a = s1.heap a :=
      fun a ha => heap_set_ne s1 _ ha
    have hself : (s1.relink (some f.x) f.side t'.top).heap f.x =
        { s.heap f.x with child := update (s.heap f.x).child f.side t'.top } := by
      rw [← hctx f.x (by simp [ctxList])]
      exact heap_set_self s1 _
    have hroot' : (s1.relink (some f.x) f.side t'.top).root = s.root := hroot
    show Rep (s1.relink (some f.x) f.side t'.top) (plug (f :: c) t')
    refine ⟨?_, own_plug.mpr ⟨⟨?_, ?_, ?_, ?_, ?_, ?_⟩, ?_⟩, hnodup⟩
    · rw [hroot', h.root]
      exact top_plug_cons f c t t'
    · rw [hself]
      exact update_self ..
    · rw [hself, ← h2]
      exact update_of_ne (by cases f.side <;> decide) ..
    · rw [hself]
      exact h3
    · rw [hself]
      exact h4
    · refine h5.congr fun a ha => ?_
      rw [hother a fun he => hf.2.1 (he ▸ ha), hctx a (by simp [ctxList, ha])]
    · refine h6.congr fun a ha => ?_
      rw [hother a fun he => hf.2.2 (he ▸ ha), hctx a (by simp [ctxList, ha])]
    · exact hown.congr fun a ha => hother a fun he => hf.1 (he ▸ ha)

theorem Rep.setBalance {b' : ℤ} {t u : BalTree A}
    (h : Rep s (plug c (join d b x t u))) : Rep (s.setBalance x b') (plug c (join d b' x t u)) := by
  obtain ⟨hc, hx⟩ := own_plug.mp h.own
  obtain ⟨h1, h2, -, h4, h5, h6⟩ := own_join.mp hx
  have hnd : ((join d b' x t u).toList ++ ctxList c).Nodup := by
    rw [← (toList_plug_perm c _).nodup_iff, toList_plug, toList_join, ← toList_join d b,
      ← toList_plug]
    exact h.nodup
  have hxs : x ∉ t.toList ∧ x ∉ u.toList ∧ x ∉ ctxList c := by
    have := (((toList_join_perm d b' x t u).append_right _).nodup_iff).mp hnd
    simpa [and_assoc] using (nodup_cons.mp this).1
  have hne : ∀ a, a ≠ x → (s.setBalance x b').heap a = s.heap a := fun a ha => heap_set_ne s _ ha
  have hself : (s.setBalance x b').heap x = { s.heap x with balance := b' } := heap_set_self s _
  refine ⟨?_, own_plug.mpr ⟨?_, own_join.mpr ⟨?_, ?_, ?_, ?_, ?_, ?_⟩⟩, ?_⟩
  · rw [show (s.setBalance x b').root = s.root from rfl, h.root]
    cases c with
    | nil => simp [plug]
    | cons f c => exact top_plug_cons f c _ _
  · rw [top_join] at hc ⊢
    exact hc.congr fun a ha => hne a fun he => hxs.2.2 (he ▸ ha)
  · rw [hself]
    exact h1
  · rw [hself]
    exact h2
  · rw [hself]
  · rw [hself]
    cases hl : ctxLink c <;> rw [hl] at h4 <;> exact h4
  · exact h5.congr fun a ha => hne a fun he => hxs.1 (he ▸ ha)
  · exact h6.congr fun a ha => hne a fun he => hxs.2.1 (he ▸ ha)
  · exact (toList_plug_perm c _).nodup_iff.mpr hnd

omit [DecidableEq A] in
theorem Linked.ctx {n : Node A} (h : Linked n (ctxLink c)) :
    n.parent = (ctxLink c).map Prod.fst ∧ ∀ q e, ctxLink c = some (q, e) → n.childIndex = e := by
  cases c with
  | nil => exact ⟨h, nofun⟩
  | cons f c =>
    refine ⟨h.1, fun q e he => ?_⟩
    cases he
    exact h.2

omit [DecidableEq A] in
theorem Linked.copy {n n' : Node A} {link : Option (A × Bool)} (h : Linked n link)
    (hp : n'.parent = n.parent) (hi : n'.childIndex = n.childIndex) : Linked n' link := by
  cases link with
  | none => exact hp.trans h
  | some l => exact ⟨hp.trans h.1, hi.trans h.2⟩

theorem rotation_side (d : Bool) : (decide (¬ 2 * sign d < 0) : Bool) = d := by cases d <;> decide

theorem rotation_heavy (d : Bool) : 2 * sign d / 2 = sign d := by cases d <;> decide

section

variable {s : AvlTree A} {c : List (Frame A)} {d : Bool} {b : ℤ} {x y z : A}
  {outer inner far gnear gfar : BalTree A}

theorem avlRotation_single {cb : ℤ} (hcb : cb ≠ -sign d)
    (h : Rep s (plug c (join d b x (join d cb y outer inner) far))) :
    ∃ s', avlRotation s x (2 * sign d) = some (s', decide (cb + -sign d = 0)) ∧
      Rep s' (plug c (join d (cb + -sign d) y outer
        (join d (-(cb + -sign d)) x inner far))) ∧ s'.numnodes = s.numnodes := by
  obtain ⟨-, hx⟩ := own_plug.mp h.own
  obtain ⟨hx1, hx2, -, hx4, hnear, hfar⟩ := own_join.mp hx
  obtain ⟨hy1, hy2, hy3, -, hout, hin⟩ := own_join.mp hnear
  obtain ⟨hpar, hidx⟩ := hx4.ctx
  -- The nodes that change are apart from each other and from everything else.
  have hnd : ((join d (cb + -sign d) y outer
      (join d (-(cb + -sign d)) x inner far)).toList ++ ctxList c).Nodup := by
    rw [(Rotation.single hcb).toList b, ← (toList_plug_perm c _).nodup_iff]
    exact h.nodup
  have hap := ((((toList_join_perm d _ y outer _).append_right _).trans
    (((toList_join_perm d _ x inner far).append_left _).cons y |>.append_right _)).nodup_iff).mp hnd
  have hxy : x ≠ y := by grind
  have others : ∀ a, a ∈ outer.toList ∨ a ∈ far.toList ∨ a ∈ ctxList c →
      a ≠ x ∧ a ≠ y ∧ inner.top ≠ some a := by
    intro a ha
    have := fun he : inner.top = some a => top_mem he
    grind
  have inners : ∀ a ∈ inner.toList, a ≠ x ∧ a ≠ y := by grind
  have hyi : inner.top ≠ some y := fun he => (inners y (top_mem he)).2 rfl
  have hxi : inner.top ≠ some x := fun he => (inners x (top_mem he)).1 rfl
  rw [avlRotation]
  simp only [rotation_side, rotation_heavy]
  rw [hx1, top_join]
  dsimp only
  rw [hy3, if_pos hcb, hy2]
  refine ⟨_, rfl, Rep.relink h (by simp) ?_ ?_ hnd hpar hidx (top_join ..).symm, by simp⟩
  · intro a ha
    obtain ⟨h1, h2, h3⟩ := others a (.inr (.inr ha))
    simp [h1, h2, h3]
  refine own_join.mpr ⟨?_, ?_, ?_, hx4.copy ?_ ?_, ?_, own_join.mpr ⟨?_, ?_, ?_, ⟨?_, ?_⟩, ?_, ?_⟩⟩
  · simp [hxy.symm, hy1, hyi]
  · simp [hxy.symm]
  · simp
  · simp
  · simp
  · refine hout.congr fun a ha => ?_
    obtain ⟨h1, h2, h3⟩ := others a (.inl ha)
    simp [h1, h2, h3]
  · simp [hxy, hxi]
  · simp [hxy, hxi, hx2]
  · simp [hxy]
  · simp [hxy]
  · simp [hxy]
  · refine hin.adopt (by grind) (fun a ha hne => ?_) fun a ha => ?_
    · obtain ⟨h1, h2⟩ := inners a ha
      simp [h1, h2, hne]
    · obtain ⟨h1, h2⟩ := inners a (top_mem ha)
      simp [h1, h2, heap_adopt_self _ ha, Linked]
  · refine hfar.congr fun a ha => ?_
    obtain ⟨h1, h2, h3⟩ := others a (.inr (.inl ha))
    simp [h1, h2, h3]

theorem avlRotation_double {gb : ℤ}
    (h : Rep s (plug c (join d b x (join d (-sign d) y outer (join d gb z gnear gfar)) far))) :
    ∃ s', avlRotation s x (2 * sign d) = some (s', true) ∧
      Rep s' (plug c (join d 0 z (join d (if gb = -sign d then sign d else 0) y outer gnear)
          (join d (if gb = sign d then -sign d else 0) x gfar far))) ∧
        s'.numnodes = s.numnodes := by
  obtain ⟨-, hx⟩ := own_plug.mp h.own
  obtain ⟨hx1, hx2, -, hx4, hnear, hfar⟩ := own_join.mp hx
  obtain ⟨hy1, hy2, hy3, -, hout, hin⟩ := own_join.mp hnear
  obtain ⟨hz1, hz2, hz3, -, hgn, hgf⟩ := own_join.mp hin
  obtain ⟨hpar, hidx⟩ := hx4.ctx
  have hnd : ((join d 0 z (join d (if gb = -sign d then sign d else 0) y outer gnear)
      (join d (if gb = sign d then -sign d else 0) x gfar far)).toList ++ ctxList c).Nodup := by
    rw [Rotation.double.toList b, ← (toList_plug_perm c _).nodup_iff]
    exact h.nodup
  have hap := (((toList_join_perm d _ z _ _).append_right _).trans
    ((((toList_join_perm d _ y outer gnear).append
      (toList_join_perm d _ x gfar far)).cons z).append_right _)).nodup_iff.mp hnd
  simp only [nodup_cons, nodup_append, cons_append] at hap
  have hxy : x ≠ y := by grind
  have hxz : x ≠ z := by grind
  have hyz : y ≠ z := by grind
  have hn : ∀ a, gnear.top = some a → a ∈ gnear.toList := fun _ => top_mem
  have hf : ∀ a, gfar.top = some a → a ∈ gfar.toList := fun _ => top_mem
  have others : ∀ a, a ∈ outer.toList ∨ a ∈ far.toList ∨ a ∈ ctxList c →
      a ≠ x ∧ a ≠ y ∧ a ≠ z ∧ gnear.top ≠ some a ∧ gfar.top ≠ some a := by grind
  have nears : ∀ a ∈ gnear.toList, a ≠ x ∧ a ≠ y ∧ a ≠ z ∧ gfar.top ≠ some a := by grind
  have fars : ∀ a ∈ gfar.toList, a ≠ x ∧ a ≠ y ∧ a ≠ z ∧ gnear.top ≠ some a := by grind
  have hxn : gnear.top ≠ some x := fun he => (nears x (top_mem he)).1 rfl
  have hyn : gnear.top ≠ some y := fun he => (nears y (top_mem he)).2.1 rfl
  have hzn : gnear.top ≠ some z := fun he => (nears z (top_mem he)).2.2.1 rfl
  have hxf : gfar.top ≠ some x := fun he => (fars x (top_mem he)).1 rfl
  have hyf : gfar.top ≠ some y := fun he => (fars y (top_mem he)).2.1 rfl
  have hzf : gfar.top ≠ some z := fun he => (fars z (top_mem he)).2.2.1 rfl
  rw [avlRotation]
  simp only [rotation_side, rotation_heavy]
  rw [hx1, top_join]
  dsimp only
  rw [if_neg (not_not.mpr hy3), hy2, top_join]
  dsimp only
  rw [hz1, hz2]
  have hgb : ((((s.setChild x d gfar.top).adopt gfar.top (some x) d).setChild y (!d)
      gnear.top).adopt gnear.top (some y) !d).heap z = s.heap z := by
    simp [hxz.symm, hyz.symm, hzn, hzf]
  rw [hgb, hz3]
  refine ⟨_, rfl, Rep.relink h (by simp) ?_ ?_ hnd hpar hidx (top_join ..).symm, by simp⟩
  · intro a ha
    obtain ⟨h1, h2, h3, h4, h5⟩ := others a (.inr (.inr ha))
    simp [h1, h2, h3, h4, h5]
  refine own_join.mpr ⟨?_, ?_, ?_, hx4.copy ?_ ?_, own_join.mpr ⟨?_, ?_, ?_, ⟨?_, ?_⟩, ?_, ?_⟩,
    own_join.mpr ⟨?_, ?_, ?_, ⟨?_, ?_⟩, ?_, ?_⟩⟩
  · simp [hxz.symm, hyz.symm]
  · simp [hxz.symm]
  · simp
  · simp
  · simp
  · simp [hxy.symm, hyz, hyn, hyf, hy1]
  · simp [hxy.symm, hyz, hyn]
  · simp [hxy.symm, hyz]
  · simp [hxy.symm, hyz]
  · simp [hxy.symm, hyz]
  · refine hout.congr fun a ha => ?_
    obtain ⟨h1, h2, h3, h4, h5⟩ := others a (.inl ha)
    simp [h1, h2, h3, h4, h5]
  · refine hgn.adopt (by grind) (fun a ha hne => ?_) fun a ha => ?_
    · obtain ⟨h1, h2, h3, h4⟩ := nears a ha
      simp [h1, h2, h3, h4, hne]
    · obtain ⟨h1, h2, h3, h4⟩ := nears a (top_mem ha)
      simp [h1, h2, h3, h4, heap_adopt_self _ ha, Linked]
  · simp [hxz, hxy, hxn, hxf]
  · simp [hxz, hxy, hxn, hxf, hx2]
  · simp [hxz]
  · simp [hxz]
  · simp [hxz]
  · refine hgf.adopt (by grind) (fun a ha hne => ?_) fun a ha => ?_
    · obtain ⟨h1, h2, h3, h4⟩ := fars a ha
      simp [h1, h2, h3, h4, hne]
    · obtain ⟨h1, h2, h3, h4⟩ := fars a (top_mem ha)
      simp [h1, h2, h3, h4, heap_adopt_self _ ha, Linked]
  · refine hfar.congr fun a ha => ?_
    obtain ⟨h1, h2, h3, h4, h5⟩ := others a (.inr (.inl ha))
    simp [h1, h2, h3, h4, h5]

end

theorem avlRotation_spec {near far t : BalTree A} {shorter : Bool}
    (h : Rep s (plug c (join d b x near far))) (hrot : Rotation d x far near t shorter) :
    ∃ s', avlRotation s x (2 * sign d) = some (s', shorter) ∧ Rep s' (plug c t) ∧
      s'.numnodes = s.numnodes := by
  cases hrot with
  | single hcb => exact avlRotation_single hcb h
  | double => exact avlRotation_double h

end Sirius.Avl
