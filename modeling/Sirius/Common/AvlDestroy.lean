import Sirius.Common.AvlQuery

/-! # Destroying a tree without a stack

    Between two calls `avl_destroy_nodes` knows only its cookie: the parent of the node
    returned last, and which child that was.  What is left of the tree is a context whose hole
    is that node, with every left sibling gone.  A returned node is freed at once, and its
    memory holds anything from then on. -/

namespace Sirius.Avl

open Sirius.Lib

/-- `*cookie`: `NULL`, `CHILDBIT` alone, or a parent with the index of a child. -/
inductive Cookie (A : Type)
  | null
  | childbit
  | visited (parent : A) (child : Bool)
  deriving DecidableEq

section

variable {A : Type} [DecidableEq A]

/-- `while (node->avl_child[0] != NULL) { parent = node; node = node->avl_child[0]; }`. -/
def leftmost (s : AvlTree A) : ℕ → A → A → Option (A × A)
  | 0, _, _ => none
  | n + 1, parent, node =>
    match (s.heap node).child false with
    | none => some (parent, node)
    | some c => leftmost s n node c

/-- From the label `done` on. -/
def handOut (s : AvlTree A) (parent : Option A) (node : A) :
    Option (Option A × AvlTree A × Cookie A) :=
  match parent with
  | none => if s.root = some node then some (some node, s, .childbit) else none
  | some p => some (some node, s, .visited p (s.heap node).childIndex)

/-- From the label `check_right_side` on. -/
def checkRightSide (s : AvlTree A) (parent : Option A) (node : A) :
    Option (Option A × AvlTree A × Cookie A) :=
  match (s.heap node).child true with
  | some c =>
    if (s.heap node).balance = 1 ∧ (s.heap c).child false = none ∧ (s.heap c).child true = none
    then handOut s (some node) c else none
  | none => if (s.heap node).balance ≤ 0 then handOut s parent node else none

def avlDestroyNodes (fuel : ℕ) (s : AvlTree A) (cookie : Cookie A) :
    Option (Option A × AvlTree A × Cookie A) :=
  match cookie with
  | .null =>
    (avlFirst fuel s).bind fun first =>
      match first with
      | none => some (none, s, .childbit)
      | some node => checkRightSide s (s.heap node).parent node
  | .childbit =>
    if s.root = none then some (none, s, .childbit)
    else if s.numnodes = 1 then some (none, { s with root := none, numnodes := 0 }, .childbit)
    else none
  | .visited parent child =>
    let s := s.setChild parent child none
    if s.numnodes ≤ 1 then none
    else
      let s := { s with numnodes := s.numnodes - 1 }
      if child = true then handOut s (s.heap parent).parent parent
      else
        match (s.heap parent).child true with
        | none => handOut s (s.heap parent).parent parent
        | some node =>
          (leftmost s fuel parent node).bind fun (parent, node) =>
            checkRightSide s (some parent) node

/-- `while ((node = avl_destroy_nodes(tree, &cookie)) != NULL) free(node);`, where `garbage`
    is what the memory of a freed node holds. -/
def destroyAll (garbage : A → Node A) (fuel : ℕ) :
    ℕ → AvlTree A → Cookie A → Option (List A × AvlTree A)
  | 0, _, _ => none
  | n + 1, s, cookie =>
    (avlDestroyNodes fuel s cookie).bind fun (node, s, cookie) =>
      match node with
      | none => some ([], s)
      | some a =>
        (destroyAll garbage fuel n (s.set a (garbage a)) cookie).map fun (l, s) => (a :: l, s)

end

open BalTree List Function

variable {A : Type}

def post : BalTree A → List A
  | .nil => []
  | .node _ l x r => post l ++ (post r ++ [x])

def ctxPost : List (Frame A) → List A
  | [] => []
  | f :: c => post f.sib ++ f.x :: ctxPost c

theorem post_perm (t : BalTree A) : (post t).Perm t.toList := by
  induction t with
  | nil => exact .nil
  | node b l x r ihl ihr =>
    refine ihl.append ?_
    exact (perm_append_singleton x (post r)).trans (ihr.cons x)

theorem ctxPost_perm (c : List (Frame A)) : (ctxPost c).Perm (ctxList c) := by
  induction c with
  | nil => exact .nil
  | cons f c ih => exact perm_middle.trans (((post_perm f.sib).append ih).cons f.x)

theorem ctxList_append (c c' : List (Frame A)) : ctxList (c ++ c') = ctxList c ++ ctxList c' := by
  induction c with
  | nil => rfl
  | cons f c ih => simp [ctxList, ih]

theorem post_plug {c : List (Frame A)} (hc : ∀ f ∈ c, f.side = false) (t : BalTree A)
    (c' : List (Frame A)) : post (plug c t) ++ ctxPost c' = post t ++ ctxPost (c ++ c') := by
  induction c generalizing t with
  | nil => rfl
  | cons f c ih =>
    rw [plug, ih fun g hg => hc g (mem_cons_of_mem _ hg), hc f mem_cons_self]
    simp [join, post, ctxPost]

theorem post_below {c : List (Frame A)} {d : Bool} {b : ℤ} {x : A} {near far : BalTree A} :
    ∃ P Q, post (plug c (join d b x near far)) = P ++ x :: Q ∧
      ∀ y ∈ near.toList ++ far.toList, y ∈ P := by
  have hsub : ∀ t : BalTree A, ∃ P Q, post (plug c t) = P ++ post t ++ Q := by
    induction c with
    | nil => exact fun t => ⟨[], [], by simp [plug]⟩
    | cons f c ih =>
      intro t
      obtain ⟨P, Q, h⟩ := ih (join f.side f.b f.x t f.sib)
      cases hs : f.side with
      | false => exact ⟨P, post f.sib ++ [f.x] ++ Q, by rw [plug, h, hs]; simp [join, post]⟩
      | true => exact ⟨P ++ post f.sib, [f.x] ++ Q, by rw [plug, h, hs]; simp [join, post]⟩
  obtain ⟨P, Q, h⟩ := hsub (join d b x near far)
  cases d with
  | false =>
    refine ⟨P ++ post near ++ post far, Q, by rw [h]; simp [join, post], fun y hy => ?_⟩
    simpa [(post_perm _).mem_iff] using .inr (mem_append.mp hy)
  | true =>
    refine ⟨P ++ post far ++ post near, Q, by rw [h]; simp [join, post], fun y hy => ?_⟩
    simpa [(post_perm _).mem_iff] using .inr (mem_append.mp hy).symm

/-! ## What is left of a tree -/

def ctxCookie (c : List (Frame A)) : Cookie A :=
  match ctxLink c with
  | none => .childbit
  | some (p, d) => .visited p d

/-- The left siblings are gone, and the right ones are still balanced. -/
def LeftGone (c : List (Frame A)) : Prop :=
  ∀ f ∈ c, (f.side = true → f.sib = .nil) ∧ f.sib.Balanced

variable [DecidableEq A] {s : AvlTree A} {c : List (Frame A)} {b : ℤ} {n p : A} {fuel : ℕ}

omit [DecidableEq A] in
theorem LeftGone.cons (h : LeftGone c) (b : ℤ) (n : A) : LeftGone (⟨true, b, n, nil⟩ :: c) :=
  forall_mem_cons.mpr ⟨⟨fun _ => rfl, trivial⟩, h⟩

omit [DecidableEq A] in
theorem top_plug_congr {t t' : BalTree A} (h : t.top = t'.top) :
    (plug c t).top = (plug c t').top := by
  cases c with
  | nil => exact h
  | cons f c => exact top_plug_cons ..

/-- The walk has returned `n`: what is left is the context of `n`. -/
structure Walked (s : AvlTree A) (c : List (Frame A)) (n : A) : Prop where
  own : OwnCtx s.heap c (some n)
  gone : LeftGone c
  nodup : (n :: ctxList c).Nodup
  count : s.numnodes = (ctxList c).length + 1
  root : s.root = (plug c (node 0 nil n nil)).top

omit [DecidableEq A] in
theorem Walked.congr {s' : AvlTree A} (h : Walked s c n) (hroot : s'.root = s.root)
    (hnum : s'.numnodes = s.numnodes) (he : ∀ a, a ≠ n → s'.heap a = s.heap a) :
    Walked s' c n := by
  refine ⟨h.own.congr fun a ha => he a ?_, h.gone, h.nodup, hnum.trans h.count, hroot.trans h.root⟩
  rintro rfl
  exact (nodup_cons.mp h.nodup).1 ha

omit [DecidableEq A] in
theorem leftmost_spec {t : BalTree A} {y : A} {e : Bool} (h : Own s.heap (some (p, e)) t)
    (hy : t.top = some y) (hfuel : t.toList.length ≤ fuel) :
    ∃ c b m r, t = plug c (node b nil m r) ∧ (∀ f ∈ c, f.side = false) ∧
      leftmost s fuel p y = some (((ctxLink c).map Prod.fst).getD p, m) := by
  induction t generalizing p y e fuel with
  | nil => cases hy
  | node b l x r ihl ihr =>
    cases hy
    obtain ⟨hl, -, -, -, hol, -⟩ := h
    simp only [toList, length_append, length_cons] at hfuel
    obtain ⟨fuel, rfl⟩ : ∃ k, fuel = k + 1 := ⟨fuel - 1, by omega⟩
    rw [leftmost, hl]
    cases hz : l.top with
    | none =>
      obtain rfl := top_eq_none.mp hz
      exact ⟨[], b, x, r, rfl, forall_mem_nil _, rfl⟩
    | some z =>
      have hlen : l.toList.length ≤ fuel := by omega
      obtain ⟨c, b', m, r', rfl, hc, hm⟩ := ihl hol hz hlen
      refine ⟨c ++ [⟨false, b, x, r⟩], b', m, r', by simp [plug, join], ?_, ?_⟩
      · intro f hf
        rcases mem_append.mp hf with hf | hf
        · exact hc f hf
        · rw [mem_singleton.mp hf]
      · dsimp only
        rw [hm]
        cases c <;> rfl

theorem handOut_spec (hroot : s.root = (plug c (node 0 nil n nil)).top)
    (hlink : Linked (s.heap n) (ctxLink c)) :
    handOut s ((ctxLink c).map Prod.fst) n = some (some n, s, ctxCookie c) := by
  cases c with
  | nil => exact if_pos hroot
  | cons f c =>
    show some (some n, s, Cookie.visited f.x (s.heap n).childIndex) = _
    rw [hlink.2]
    rfl

/-- A subtree not yet visited: the walk returns its first node in post order.  Balance is
    needed here: a node without a left child has at most a leaf on the right. -/
theorem checkRightSide_spec {r : BalTree A} (hown : Own s.heap (ctxLink c) (node b nil n r))
    (hctx : OwnCtx s.heap c (some n)) (hbal : (node b nil n r).Balanced) (hgone : LeftGone c)
    (hnd : ((node b nil n r).toList ++ ctxList c).Nodup)
    (hcount : s.numnodes = ((node b nil n r).toList ++ ctxList c).length)
    (hroot : s.root = (plug c (node b nil n r)).top) :
    ∃ m c', checkRightSide s ((ctxLink c).map Prod.fst) n = some (some m, s, ctxCookie c') ∧
      Walked s c' m ∧ post (node b nil n r) ++ ctxPost c = m :: ctxPost c' := by
  obtain ⟨h1, h2, h3, h4, -, h6⟩ := hown
  obtain ⟨hb, -, hle, -, hr⟩ := hbal
  rw [checkRightSide, h2]
  cases r with
  | nil =>
    have hroot' : s.root = (plug c (node 0 nil n nil)).top := hroot.trans (top_plug_congr rfl)
    refine ⟨n, c, ?_, ⟨hctx, hgone, hnd, ?_, hroot'⟩, rfl⟩
    · have hb0 : (s.heap n).balance ≤ 0 := by
        rw [h3, hb]
        exact le_rfl
      show (if (s.heap n).balance ≤ 0 then _ else _) = _
      rw [if_pos hb0, handOut_spec hroot' h4]
    · simpa [toList, Nat.add_comm] using hcount
  | node b' l' m r' =>
    have hheight : max l'.height r'.height = 0 := by
      have : b = ((max l'.height r'.height + 1 : ℕ) : ℤ) - (0 : ℕ) := hb
      omega
    have hleaf : ∀ t : BalTree A, t.height ≤ max l'.height r'.height → t = .nil := by
      intro t ht
      rcases eq_nil_or_join false t with rfl | ⟨_, _, _, _, rfl⟩
      · rfl
      · rw [height_join] at ht
        omega
    obtain rfl := hleaf l' (le_max_left ..)
    obtain rfl := hleaf r' (le_max_right ..)
    obtain ⟨g1, g2, -, g4, -, -⟩ := h6
    have hroot' : s.root = (plug (⟨true, b, n, nil⟩ :: c) (node 0 nil m nil)).top :=
      hroot.trans (top_plug_congr rfl)
    refine ⟨m, ⟨true, b, n, nil⟩ :: c, ?_, ⟨?_, hgone.cons b n, ?_, ?_, hroot'⟩, rfl⟩
    · show (if (s.heap n).balance = 1 ∧ (s.heap m).child false = none ∧
        (s.heap m).child true = none then _ else _) = _
      rw [if_pos ⟨h3.trans hb, g1, g2⟩]
      exact handOut_spec (c := ⟨true, b, n, nil⟩ :: c) hroot' g4
    · exact ⟨h2, h1, h3, h4, trivial, hctx⟩
    · exact ((Perm.swap m n (ctxList c)).nodup_iff).mp hnd
    · simpa [toList, ctxList, Nat.add_comm] using hcount

theorem enter_spec {c' : List (Frame A)} {r : BalTree A}
    (hown : Own s.heap (ctxLink c) (plug c' (node b nil n r)))
    (hctx : OwnCtx s.heap c (plug c' (node b nil n r)).top) (hc' : ∀ f ∈ c', f.side = false)
    (hbal : (plug c' (node b nil n r)).Balanced) (hgone : LeftGone c)
    (hnd : ((plug c' (node b nil n r)).toList ++ ctxList c).Nodup)
    (hcount : s.numnodes = ((plug c' (node b nil n r)).toList ++ ctxList c).length)
    (hroot : s.root = (plug c (plug c' (node b nil n r))).top) :
    ∃ m c'', checkRightSide s ((ctxLink (c' ++ c)).map Prod.fst) n =
      some (some m, s, ctxCookie c'') ∧
      Walked s c'' m ∧ post (plug c' (node b nil n r)) ++ ctxPost c = m :: ctxPost c'' := by
  have hwhole := own_plug.mpr ⟨hctx, hown⟩
  rw [← plug_append] at hwhole hroot
  obtain ⟨hctx', hown'⟩ := own_plug.mp hwhole
  have hperm : ((plug c' (node b nil n r)).toList ++ ctxList c).Perm
      ((node b nil n r).toList ++ ctxList (c' ++ c)) := by
    rw [ctxList_append, ← append_assoc]
    exact (toList_plug_perm c' _).append_right _
  obtain ⟨hbal', hbalc⟩ := balanced_plug.mp hbal
  have hgone' : LeftGone (c' ++ c) := by
    have hsib : ∀ f ∈ c', f.sib.Balanced := by
      clear * - hbalc
      generalize (node b nil n r).height = k at hbalc
      induction c' generalizing k with
      | nil => exact nofun
      | cons f c' ih =>
        obtain ⟨-, -, -, hf, hrest⟩ := hbalc
        exact forall_mem_cons.mpr ⟨hf, ih _ hrest⟩
    intro f hf
    rcases mem_append.mp hf with hf | hf
    · exact ⟨fun ht => absurd ((hc' f hf).symm.trans ht) Bool.false_ne_true, hsib f hf⟩
    · exact hgone f hf
  rw [post_plug hc']
  exact checkRightSide_spec hown' hctx' hbal' hgone' (hperm.nodup_iff.mp hnd)
    (hcount.trans hperm.length_eq) hroot

/-! ## One call, and all of them -/

/-- **Step lemma**: the next call goes on from the parent, and touches nothing but what is left. -/
theorem Walked.step {f : Frame A} (h : Walked s (f :: c) n)
    (hfuel : (ctxList (f :: c)).length ≤ fuel) :
    ∃ s' m c', avlDestroyNodes fuel s (ctxCookie (f :: c)) = some (some m, s', ctxCookie c') ∧
      Walked s' c' m ∧ ctxPost (f :: c) = m :: ctxPost c' ∧
      ∀ a, a ∉ ctxList (f :: c) → s'.heap a = s.heap a := by
  obtain ⟨-, h2, h3, h4, h5, h6⟩ := h.own
  obtain ⟨-, hnd⟩ := nodup_cons.mp h.nodup
  have hfx : f.x ∉ f.sib.toList ++ ctxList c := (nodup_cons.mp hnd).1
  have hndc : (f.sib.toList ++ ctxList c).Nodup := (nodup_cons.mp hnd).2
  have hcount : s.numnodes = (f.sib.toList ++ ctxList c).length + 1 + 1 := h.count
  -- the state after the pointer to the returned node is gone
  let s1 : AvlTree A := { s.setChild f.x f.side none with numnodes := s.numnodes - 1 }
  have hne : ∀ a, a ≠ f.x → s1.heap a = s.heap a := fun a ha => heap_set_ne s _ ha
  have hself : s1.heap f.x = { s.heap f.x with child := update (s.heap f.x).child f.side none } :=
    heap_set_self s _
  have hchild : (s1.heap f.x).child = update (s.heap f.x).child f.side none := by rw [hself]
  have hctx : OwnCtx s1.heap c (some f.x) :=
    h6.congr fun a ha => hne a fun he => hfx (mem_append_right _ (he ▸ ha))
  have hsib : Own s1.heap (some (f.x, !f.side)) f.sib :=
    h5.congr fun a ha => hne a fun he => hfx (mem_append_left _ (he ▸ ha))
  have hlink : Linked (s1.heap f.x) (ctxLink c) := by
    rw [hself]
    exact h4
  have hsame : ∀ a, a ∉ ctxList (f :: c) → s1.heap a = s.heap a :=
    fun a ha => hne a fun he => ha (he ▸ mem_cons_self)
  have hgone : LeftGone c := fun g hg => h.gone g (mem_cons_of_mem _ hg)
  obtain ⟨hside, hbal⟩ := h.gone f mem_cons_self
  have hroot : ∀ t : BalTree A, t.top = some f.x → s1.root = (plug c t).top :=
    fun t ht => h.root.trans (top_plug_congr ((top_join ..).trans ht.symm))
  -- with nothing on the right, the parent itself is next
  have hup : f.sib = .nil → handOut s1 (s1.heap f.x).parent f.x = some (some f.x, s1, ctxCookie c) ∧
      Walked s1 c f.x ∧ ctxPost (f :: c) = f.x :: ctxPost c := by
    intro hnil
    rw [hlink.ctx.1]
    refine ⟨handOut_spec (hroot _ rfl) hlink, ⟨hctx, hgone, ?_, ?_, hroot _ rfl⟩, ?_⟩
    · rw [hnil] at hfx hndc
      exact nodup_cons.mpr ⟨hfx, hndc⟩
    · show s.numnodes - 1 = _
      rw [hcount, hnil]
      rfl
    · rw [ctxPost, hnil]
      rfl
  have hmany : ¬ s.numnodes ≤ 1 := by omega
  show ∃ s' m c', (if s.numnodes ≤ 1 then none else if f.side = true then
    handOut s1 (s1.heap f.x).parent f.x else match (s1.heap f.x).child true with
      | none => handOut s1 (s1.heap f.x).parent f.x
      | some y => (leftmost s1 fuel f.x y).bind fun (q, m) => checkRightSide s1 (some q) m) = _ ∧ _
  rw [if_neg hmany]
  cases hs : f.side with
  | true =>
    obtain ⟨ho, hw, hp⟩ := hup (hside hs)
    exact ⟨s1, f.x, c, (if_pos rfl).trans ho, hw, hp, hsame⟩
  | false =>
    rw [hs] at h2 hsib
    have hright : (s1.heap f.x).child true = f.sib.top := by
      rw [hchild, ← h2, hs]
      exact update_of_ne Bool.true_eq_false_eq_False ..
    rw [if_neg Bool.false_ne_true, hright]
    cases ht : f.sib.top with
    | none =>
      obtain ⟨ho, hw, hp⟩ := hup (top_eq_none.mp ht)
      exact ⟨s1, f.x, c, ho, hw, hp, hsame⟩
    | some y =>
      have hlen : f.sib.toList.length ≤ fuel := by
        simp only [ctxList, length_cons, length_append] at hfuel
        omega
      obtain ⟨c', b', m, r, hplug, hc', hleft⟩ := leftmost_spec hsib ht hlen
      -- the parent is now a frame entered from the right, with nothing on the left
      have hleftgone : (s1.heap f.x).child false = none := by
        rw [hchild, hs]
        exact update_self ..
      have hctx' : OwnCtx s1.heap (⟨true, f.b, f.x, nil⟩ :: c) f.sib.top := by
        refine ⟨hright, hleftgone, ?_, hlink, trivial, hctx⟩
        rw [hself]
        exact h3
      rw [hplug] at hsib hctx' hbal hfx hndc hcount
      obtain ⟨k, c'', hk, hw, hpost⟩ := enter_spec (c := ⟨true, f.b, f.x, nil⟩ :: c) hsib hctx' hc'
        hbal (hgone.cons f.b f.x) (perm_middle.nodup_iff.mpr (nodup_cons.mpr ⟨hfx, hndc⟩))
        (by
          show s.numnodes - 1 = _
          rw [hcount]
          exact perm_middle.length_eq.symm)
        (hroot (join true f.b f.x _ nil) (top_join ..))
      refine ⟨s1, k, c'', ?_, hw, ?_, hsame⟩
      · show (leftmost s1 fuel f.x y).bind _ = _
        rw [hleft, Option.bind_some]
        refine Eq.trans ?_ hk
        cases c' <;> rfl
      · rw [← hpost, ctxPost, hplug]
        rfl

/-- The walk from a cookie on returns the nodes `l`, and frees them and nothing else. -/
def Destroys (garbage : A → Node A) (fuel rounds : ℕ) (s : AvlTree A) (cookie : Cookie A)
    (l : List A) : Prop :=
  ∃ s', destroyAll garbage fuel rounds s cookie = some (l, s') ∧ s'.root = none ∧ s'.numnodes = 0 ∧
    (∀ a ∈ l, s'.heap a = garbage a) ∧ ∀ a, a ∉ l → s'.heap a = s.heap a

variable {garbage : A → Node A} {rounds : ℕ}

omit [DecidableEq A] in
theorem Walked.notMem (h : Walked s c n) : n ∉ ctxPost c :=
  (ctxPost_perm c).mem_iff.not.mpr (nodup_cons.mp h.nodup).1

theorem Destroys.cons {s1 : AvlTree A} {cookie : Cookie A}
    (hcall : avlDestroyNodes fuel s cookie = some (some n, s1, ctxCookie c)) (hw : Walked s1 c n)
    (hsame : ∀ a, a ∉ n :: ctxPost c → s1.heap a = s.heap a)
    (h : Destroys garbage fuel rounds (s1.set n (garbage n)) (ctxCookie c) (ctxPost c)) :
    Destroys garbage fuel (rounds + 1) s cookie (n :: ctxPost c) := by
  obtain ⟨s', hrun, hroot, hnum, hfreed, hrest⟩ := h
  refine ⟨s', ?_, hroot, hnum, ?_, ?_⟩
  · rw [destroyAll, hcall]
    show (destroyAll garbage fuel rounds (s1.set n (garbage n)) (ctxCookie c)).map _ = _
    rw [hrun]
    rfl
  · refine forall_mem_cons.mpr ⟨?_, hfreed⟩
    rw [hrest n hw.notMem]
    exact heap_set_self s1 _
  · intro a ha
    obtain ⟨hne, hno⟩ := not_or.mp (mt mem_cons.mpr ha)
    rw [hrest a hno, heap_set_ne s1 _ hne]
    exact hsame a ha

/-- **Run lemma**: from a returned node on, the rest is returned and the tree is empty. -/
theorem Walked.run (h : Walked s c n) (hfuel : (ctxPost c).length ≤ fuel)
    (hrounds : (ctxPost c).length < rounds) :
    Destroys garbage fuel rounds s (ctxCookie c) (ctxPost c) := by
  induction rounds generalizing s c n with
  | zero => exact absurd hrounds (Nat.not_lt_zero _)
  | succ rounds ih =>
    cases c with
    | nil =>
      have hroot : ¬ s.root = none := by
        rw [h.root]
        exact Option.some_ne_none n
      have hone : s.numnodes = 1 := h.count
      refine ⟨{ s with root := none, numnodes := 0 }, ?_, rfl, rfl, nofun, fun _ _ => rfl⟩
      rw [destroyAll, ctxCookie, ctxLink, avlDestroyNodes, if_neg hroot, if_pos hone]
      rfl
    | cons f c =>
      obtain ⟨s1, m, c', hcall, hw, hpost, hsame⟩ :=
        h.step ((ctxPost_perm (f :: c)).length_eq.symm.trans_le hfuel)
      rw [hpost, length_cons] at hfuel hrounds
      rw [hpost]
      refine .cons hcall hw (fun a ha => hsame a ?_) (ih (hw.congr rfl rfl fun a ha =>
        heap_set_ne s1 _ ha) (by omega) (by omega))
      rwa [← (ctxPost_perm (f :: c)).mem_iff, hpost]

/-- **HEADLINE**: called from a `NULL` cookie until it returns `NULL`, `avl_destroy_nodes`
    returns every node once, each after all that are below it, and leaves the tree empty.
    Whatever the memory of a freed node holds, the walk is the same, and that memory is left
    as it is. -/
theorem avl_destroy_nodes_post_order {T : BalTree A} (h : Rep s T) (hbal : T.Balanced)
    (hcount : s.numnodes = T.toList.length) (garbage : A → Node A) {rounds : ℕ}
    (hfuel : T.toList.length < fuel) (hrounds : T.toList.length < rounds) :
    ∃ l s', destroyAll garbage fuel rounds s .null = some (l, s') ∧ l.Nodup ∧ l.Perm T.toList ∧
      (∀ c d b x near far, T = plug c (join d b x near far) →
        ∃ P Q, l = P ++ x :: Q ∧ ∀ y ∈ near.toList ++ far.toList, y ∈ P) ∧
      s'.root = none ∧ s'.numnodes = 0 ∧ (∀ a ∈ T.toList, s'.heap a = garbage a) ∧
      ∀ a, a ∉ T.toList → s'.heap a = s.heap a := by
  have hmem : ∀ a, a ∈ T.toList ↔ a ∈ post T := fun a => (post_perm T).mem_iff.symm
  suffices hrun : Destroys garbage fuel rounds s .null (post T) by
    obtain ⟨s', hs', hroot, hnum, hfreed, hrest⟩ := hrun
    refine ⟨post T, s', hs', (post_perm T).nodup_iff.mpr h.nodup, post_perm T, ?_, hroot, hnum,
      fun a ha => hfreed a ((hmem a).mp ha), fun a ha => hrest a ((hmem a).not.mp ha)⟩
    rintro c d b x near far rfl
    exact post_below
  obtain ⟨rounds, rfl⟩ : ∃ k, rounds = k + 1 := ⟨rounds - 1, by omega⟩
  have hfirst : avlFirst fuel s = some T.toList.head? := by
    rw [avlFirst, h.root, lastNode_spec false fuel h.own hfuel, Option.or_none]
    rfl
  rcases eq_nil_or_join false T with rfl | ⟨b0, y, l0, r0, hT⟩
  · refine ⟨s, ?_, h.root, hcount, nofun, fun _ _ => rfl⟩
    rw [destroyAll, avlDestroyNodes, hfirst]
    rfl
  -- the first node, found as the leftmost one
  obtain ⟨m, c, b, r, -, hplug, hc⟩ := descend_spec false fuel h.own
    ((congrArg top hT).trans (top_join ..)) hfuel.le
  obtain rfl : T = plug c (node b nil m r) := hplug
  have hhead : endOf false (plug c (join true b m r nil)).toList = some m := endOf_plug hc
  change (plug c (node b nil m r)).toList.head? = some m at hhead
  obtain ⟨-, -, -, -, hlink, -, -⟩ := own_plug.mp h.own
  obtain ⟨k, c', hk, hw, hpost⟩ := enter_spec (c := []) h.own trivial hc hbal nofun
    (by rw [ctxList, append_nil]; exact h.nodup) (by rw [ctxList, append_nil]; exact hcount) h.root
  rw [append_nil] at hk
  rw [ctxPost, append_nil] at hpost
  have hlen := (post_perm (plug c (node b nil m r))).length_eq
  rw [hpost, length_cons] at hlen
  rw [hpost]
  refine .cons ?_ hw (fun _ _ => rfl) (Walked.run (hw.congr rfl rfl fun a ha => heap_set_ne s _ ha)
    (by omega) (by omega))
  rw [avlDestroyNodes, hfirst, hhead, Option.bind_some, ← hk, ← hlink.ctx.1]

def rightOnly : AvlTree Bool where
  root := some false
  numnodes := 2
  heap
    | false => ⟨fun d => if d then some true else none, none, false, 1⟩
    | true => ⟨fun _ => none, some false, true, 0⟩

theorem rightOnly_destroyed :
    ∃ l s', destroyAll (fun _ => ⟨fun _ => some true, some true, true, 7⟩) 3 3 rightOnly .null
        = some (l, s') ∧ l.Nodup ∧ l.Perm [false, true] ∧ s'.root = none ∧ s'.numnodes = 0 := by
  have hown : Own rightOnly.heap none (node 1 nil false (node 0 nil true nil)) :=
    ⟨rfl, rfl, rfl, rfl, trivial, rfl, rfl, rfl, ⟨rfl, rfl⟩, trivial, trivial⟩
  have hbal : (node 1 nil false (node 0 nil true nil)).Balanced := by
    simp [BalTree.Balanced, height]
  obtain ⟨l, s', hl, hnd, hperm, -, hroot, hnum, -⟩ := avl_destroy_nodes_post_order
    ⟨rfl, hown, by decide⟩ hbal rfl (fun _ => ⟨fun _ => some true, some true, true, 7⟩)
    (by decide : _ < 3) (by decide : _ < 3)
  exact ⟨l, s', hl, hnd, hperm, hroot, hnum⟩

end Sirius.Avl
