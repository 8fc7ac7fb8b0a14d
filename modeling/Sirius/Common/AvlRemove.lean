import Mathlib.Data.List.Nodup
import Sirius.Common.AvlUpdate

/-! # Removing a node with two children

    `avl_remove` of such a node first exchanges it with a neighbour, whose place a node on the
    stack takes.  All the pointer changes of this exchange amount to one renaming. -/

namespace Sirius.Avl

open Sirius.Lib Sirius.Lib.BalTree
open Option (map_some)

variable {A : Type} {link : Option (A × Bool)} {t : BalTree A} {delete a : A}

/-! ## Pointers of a tree in memory -/

section

variable {H H' : A → Node A} {link : Option (A × Bool)} {t : BalTree A} {a y : A} {e : Bool}

theorem Own.top_linked (h : Own H link t) (ht : t.top = some a) : Linked (H a) link := by
  cases t with
  | nil => cases ht
  | node b l x r =>
    cases ht
    exact h.2.2.2.1

/-- **CHILD POINTERS LEAD TO CHILDREN**: the parent pointer and the index lead back. -/
theorem Own.child (h : Own H link t) (ha : a ∈ t.toList) (hc : (H a).child e = some y) :
    y ∈ t.toList ∧ (H y).parent = some a ∧ (H y).childIndex = e := by
  induction t generalizing link with
  | nil => cases ha
  | node b l x r ihl ihr =>
    obtain ⟨h1, h2, -, -, hl, hr⟩ := h
    simp only [toList, List.mem_append, List.mem_cons] at ha ⊢
    rcases ha with ha | rfl | ha
    · obtain ⟨hm, hp⟩ := ihl hl ha
      exact ⟨.inl hm, hp⟩
    · cases e with
      | false => exact ⟨.inl (top_mem (h1 ▸ hc)), hl.top_linked (h1 ▸ hc)⟩
      | true => exact ⟨.inr (.inr (top_mem (h2 ▸ hc))), hr.top_linked (h2 ▸ hc)⟩
    · obtain ⟨hm, hp⟩ := ihr hr ha
      exact ⟨.inr (.inr hm), hp⟩

theorem Own.child_ne (h : Own H link t) (hnd : t.toList.Nodup) (ha : a ∈ t.toList)
    (hc : (H a).child e = some y) : y ≠ a := by
  induction t generalizing link with
  | nil => cases ha
  | node b l x r ihl ihr =>
    obtain ⟨h1, h2, -, -, hl, hr⟩ := h
    have hx := (toList_join_perm false b x l r).nodup_iff.mp hnd
    simp only [List.nodup_cons, List.nodup_append, List.mem_append, not_or] at hx
    simp only [toList, List.mem_append, List.mem_cons] at ha
    rcases ha with ha | rfl | ha
    · exact ihl hl hx.2.1 ha
    · rintro rfl
      cases e with
      | false => exact hx.1.1 (top_mem (h1 ▸ hc))
      | true => exact hx.1.2 (top_mem (h2 ▸ hc))
    · exact ihr hr hx.2.2.1 ha

/-- **PARENT POINTERS LEAD TO PARENTS**: the child pointer leads back. -/
theorem Own.parent (h : Own H link t) (ha : a ∈ t.toList) :
    (t.top = some a ∧ Linked (H a) link) ∨ ∃ p ∈ t.toList, (H a).parent = some p ∧
      (H p).child (H a).childIndex = some a := by
  induction t generalizing link with
  | nil => cases ha
  | node b l x r ihl ihr =>
    obtain ⟨h1, h2, -, h4, hl, hr⟩ := h
    simp only [toList, List.mem_append, List.mem_cons] at ha ⊢
    rcases ha with ha | rfl | ha
    · right
      rcases ihl hl ha with ⟨ht, hp, hi⟩ | ⟨p, hp, hpar⟩
      · exact ⟨x, .inr (.inl rfl), hp, by rw [hi, h1, ht]⟩
      · exact ⟨p, .inl hp, hpar⟩
    · exact .inl ⟨rfl, h4⟩
    · right
      rcases ihr hr ha with ⟨ht, hp, hi⟩ | ⟨p, hp, hpar⟩
      · exact ⟨x, .inr (.inl rfl), hp, by rw [hi, h2, ht]⟩
      · exact ⟨p, .inr (.inr hp), hpar⟩

end

/-! ## The site of the exchange -/

/-- Where the exchange takes place: `delete` has two children, `node` is nearest on side
    `left`. -/
structure Site (s : AvlTree A) (T : BalTree A) (delete node tmp l r p : A) (left : Bool) :
    Prop where
  rep : Rep s T
  delete_mem : delete ∈ T.toList
  node_mem : node ∈ T.toList
  fresh : tmp ∉ T.toList
  ne : delete ≠ node
  near : (s.heap delete).child left = some l
  far : (s.heap delete).child (!left) = some r
  far_ne : r ≠ node
  end_of : (s.heap node).child (!left) = none
  parent : (s.heap node).parent = some p
  above : (s.heap delete).parent ≠ some node

section

variable {s : AvlTree A} {T : BalTree A} {delete node tmp l r p : A} {left : Bool}

namespace Site

variable (h : Site s T delete node tmp l r p left)

include h

theorem tmp_ne {a : A} (ha : a ∈ T.toList) : tmp ≠ a := fun he => h.fresh (he ▸ ha)

theorem l_ne : l ≠ delete := h.rep.own.child_ne h.rep.nodup h.delete_mem h.near

theorem r_ne : r ≠ delete := h.rep.own.child_ne h.rep.nodup h.delete_mem h.far

theorem l_mem : l ∈ T.toList := (h.rep.own.child h.delete_mem h.near).1

theorem r_mem : r ∈ T.toList := (h.rep.own.child h.delete_mem h.far).1

theorem parent_mem : p ∈ T.toList ∧ (s.heap p).child (s.heap node).childIndex = some node := by
  rcases h.rep.own.parent h.node_mem with ⟨-, hl⟩ | ⟨q, hq, hp, hc⟩
  · cases h.parent.symm.trans (show (s.heap node).parent = none from hl)
  · cases h.parent.symm.trans hp
    exact ⟨hq, hc⟩

theorem parent_ne : p ≠ node := by
  obtain ⟨hp, hc⟩ := h.parent_mem
  exact (h.rep.own.child_ne h.rep.nodup hp hc).symm

theorem up {q : A} (hq : (s.heap delete).parent = some q) :
    q ∈ T.toList ∧ (s.heap q).child (s.heap delete).childIndex = some delete ∧ q ≠ delete := by
  rcases h.rep.own.parent h.delete_mem with ⟨-, hl⟩ | ⟨z, hz, hp, hc⟩
  · cases hq.symm.trans (show (s.heap delete).parent = none from hl)
  · cases hq.symm.trans hp
    exact ⟨hz, hc, (h.rep.own.child_ne h.rep.nodup hz hc).symm⟩

theorem adjacent : l = node ↔ p = delete := by
  constructor
  · rintro rfl
    obtain ⟨-, hp, -⟩ := h.rep.own.child h.delete_mem h.near
    exact Option.some.inj (h.parent.symm.trans hp)
  rintro rfl
  obtain ⟨-, hc⟩ := h.parent_mem
  by_cases hi : (s.heap node).childIndex = left
  · rw [hi, h.near] at hc
    exact Option.some.inj hc
  · rw [Bool.eq_not_of_ne hi, h.far] at hc
    exact absurd (Option.some.inj hc) h.far_ne

theorem below {e : Bool} {q : A} (hq : (s.heap node).child e = some q) :
    q ∈ T.toList ∧ q ≠ node ∧ q ≠ delete ∧ (s.heap q).parent = some node := by
  obtain ⟨hm, hp, -⟩ := h.rep.own.child h.node_mem hq
  refine ⟨hm, h.rep.own.child_ne h.rep.nodup h.node_mem hq, ?_, hp⟩
  rintro rfl
  exact h.above hp

end Site

end

def Node.map (ρ : A → A) (n : Node A) : Node A where
  child d := (n.child d).map ρ
  parent := n.parent.map ρ
  childIndex := n.childIndex
  balance := n.balance

theorem Linked.map {n : Node A} (ρ : A → A) (h : Linked n link) :
    Linked (n.map ρ) (link.map fun l => (ρ l.1, l.2)) := by
  cases link with
  | none => exact congrArg (Option.map ρ) (show n.parent = none from h)
  | some l => exact ⟨congrArg (Option.map ρ) h.1, h.2⟩

/-- **RENAMING**: where each node's copy has its pointers renamed, the renamed tree is in memory. -/
theorem Own.map {H H' : A → Node A} (ρ : A → A)
    (h : Own H link t) (he : ∀ a ∈ t.toList, H' (ρ a) = (H a).map ρ) :
    Own H' (link.map fun l => (ρ l.1, l.2)) (t.map ρ) := by
  induction t generalizing link with
  | nil => trivial
  | node b l x r ihl ihr =>
    obtain ⟨h1, h2, h3, h4, hl, hr⟩ := h
    have hx := he x (by simp [toList])
    refine ⟨?_, ?_, ?_, ?_, ihl hl fun a ha => ?_, ihr hr fun a ha => ?_⟩
    · rw [hx, top_map, ← h1]
      rfl
    · rw [hx, top_map, ← h2]
      rfl
    · rw [hx]
      exact h3
    · rw [hx]
      exact h4.map ρ
    · exact he a (by simp [toList, ha])
    · exact he a (by simp [toList, ha])

variable [DecidableEq A]

/-- The renaming: `node` takes the place of `delete`, and `tmp` that of `node`. -/
def exchange (delete node tmp a : A) : A :=
  if a = delete then node else if a = node then tmp else a

section

variable (s : AvlTree A) (a b : A) (p : Option A) (d e : Bool)

theorem heap_copy (node : A) {tmp : A} (h : delete ≠ tmp) :
    (((s.set tmp (s.heap node)).set node ((s.set tmp (s.heap node)).heap delete)).heap b) =
      if b = node then s.heap delete else if b = tmp then s.heap node else s.heap b := by
  rw [heap_set_ne s _ h]
  by_cases hb : b = node
  · subst hb
    simp
  · by_cases ht : b = tmp
    · subst ht
      simp [hb]
    · simp [hb, ht]

theorem child_setChild : ((s.setChild a d p).heap b).child e =
    if b = a ∧ e = d then p else (s.heap b).child e := by
  by_cases hb : b = a
  · subst hb
    by_cases he : e = d
    · subst he
      simp
    · simp [he]
  · simp [hb]

theorem rest_setChild : ((s.setChild a d p).heap b).parent = (s.heap b).parent ∧
    ((s.setChild a d p).heap b).childIndex = (s.heap b).childIndex ∧
    ((s.setChild a d p).heap b).balance = (s.heap b).balance := by
  by_cases hb : b = a
  · subst hb
    simp
  · simp [hb]

theorem child_relink (q : Option A) : ((s.relink q d p).heap b).child e =
    if q = some b ∧ e = d then p else (s.heap b).child e := by
  cases q with
  | none => simp [AvlTree.relink]
  | some a =>
    rw [AvlTree.relink, child_setChild]
    simp [eq_comm]

theorem rest_relink (q : Option A) : ((s.relink q d p).heap b).parent = (s.heap b).parent ∧
    ((s.relink q d p).heap b).childIndex = (s.heap b).childIndex ∧
    ((s.relink q d p).heap b).balance = (s.heap b).balance := by
  cases q with
  | none => exact ⟨rfl, rfl, rfl⟩
  | some a => exact rest_setChild s a b p d

theorem parent_setParent : ((s.setParent a p).heap b).parent =
    if b = a then p else (s.heap b).parent := by
  by_cases hb : b = a
  · subst hb
    simp
  · simp [hb]

theorem rest_setParent : ((s.setParent a p).heap b).child = (s.heap b).child ∧
    ((s.setParent a p).heap b).childIndex = (s.heap b).childIndex ∧
    ((s.setParent a p).heap b).balance = (s.heap b).balance := by
  by_cases hb : b = a
  · subst hb
    simp
  · simp [hb]

end

section

variable {s : AvlTree A} {T : BalTree A} {delete node tmp l r p : A} {left : Bool}

/-- What stands at an address after the two nodes have been copied. -/
def copy (s : AvlTree A) (delete node tmp a : A) : Node A :=
  if a = node then s.heap delete else if a = tmp then s.heap node else s.heap a

section

variable (h : Site s T delete node tmp l r p left)

include h

theorem copyNodes_eval (a : A) :
    (∀ e, ((copyNodes s delete node tmp left).heap a).child e =
      if (s.heap delete).parent = some a ∧ e = (s.heap delete).childIndex then some node
      else if l = node ∧ a = node ∧ e = left then some tmp
      else (copy s delete node tmp a).child e) ∧
    ((copyNodes s delete node tmp left).heap a).parent = (copy s delete node tmp a).parent ∧
    ((copyNodes s delete node tmp left).heap a).childIndex = (copy s delete node tmp a).childIndex ∧
    ((copyNodes s delete node tmp left).heap a).balance = (copy s delete node tmp a).balance := by
  have htmp := (h.tmp_ne h.delete_mem).symm
  have hheap := fun b => heap_copy s b node htmp
  rw [copyNodes]
  generalize (s.set tmp (s.heap node)).set node ((s.set tmp (s.heap node)).heap delete) = s2
    at hheap ⊢
  have hnode : s2.heap node = s.heap delete := (hheap node).trans (if_pos rfl)
  have hcopy : s2.heap a = copy s delete node tmp a := hheap a
  have hadj : (s2.heap node).child left = some node ↔ l = node := by
    rw [hnode, h.near]
    exact Option.some_inj
  -- The adjacent case: the copy of `delete` must not be its own child.
  by_cases hl : l = node
  · rw [if_pos (hadj.mpr hl)]
    have hrest := rest_relink (s2.setChild node left (some tmp)) a (some node)
      (s.heap delete).childIndex (s.heap delete).parent
    rw [show ((s2.setChild node left (some tmp)).heap node).parent = (s.heap delete).parent by
      simp [hnode], show ((s2.setChild node left (some tmp)).heap node).childIndex =
        (s.heap delete).childIndex by simp [hnode]]
    refine ⟨fun e => ?_, ?_⟩
    · rw [child_relink, child_setChild, hcopy]
      simp [hl]
    · simp only [rest_setChild, hcopy] at hrest
      exact hrest
  · rw [if_neg fun he => hl (hadj.mp he), hnode]
    refine ⟨fun e => ?_, ?_⟩
    · rw [child_relink, hcopy]
      simp [hl]
    · have hrest := rest_relink s2 a (some node) (s.heap delete).childIndex (s.heap delete).parent
      rwa [hcopy] at hrest

/-! ### The renaming of each pointer -/

omit h in
@[simp] theorem exchange_delete : exchange delete node tmp delete = node := if_pos rfl

omit h in
theorem exchange_node (h : delete ≠ node) : exchange delete node tmp node = tmp := by
  rw [exchange, if_neg h.symm, if_pos rfl]

omit h in
theorem exchange_of_ne (h1 : a ≠ delete) (h2 : a ≠ node) : exchange delete node tmp a = a := by
  rw [exchange, if_neg h1, if_neg h2]

theorem Site.exchange_parent : exchange delete node tmp p = if l = node then node else p := by
  by_cases hl : l = node
  · rw [if_pos hl, h.adjacent.mp hl, exchange_delete]
  · rw [if_neg hl, exchange_of_ne (fun he => hl (h.adjacent.mpr he)) h.parent_ne]

theorem Site.exchange_near : exchange delete node tmp l = if l = node then tmp else l := by
  rw [exchange, if_neg h.l_ne]

omit [DecidableEq A] in
omit h in
theorem only_child {f : Bool → Option A} (h : f (!left) = none) :
    f (decide (f true ≠ none)) = f left := by
  cases left with
  | false =>
    rw [show f true = none from h]
    rfl
  | true =>
    by_cases ht : f true = none
    · rw [ht]
      exact h
    · simp [ht]

theorem swapNodes_eval :
    ∃ s', swapNodes s delete node tmp left = some s' ∧ s'.numnodes = s.numnodes ∧
      s'.root = (copyNodes s delete node tmp left).root ∧ ∀ a, (∀ e, (s'.heap a).child e =
          if a = exchange delete node tmp p ∧ e = (s.heap node).childIndex then some tmp
          else ((copyNodes s delete node tmp left).heap a).child e) ∧
        (s'.heap a).parent = (if (s.heap node).child left = some a then some tmp
          else if a = r then some node
          else if a = exchange delete node tmp l then some node
          else ((copyNodes s delete node tmp left).heap a).parent) ∧
        (s'.heap a).childIndex = ((copyNodes s delete node tmp left).heap a).childIndex ∧
        (s'.heap a).balance = ((copyNodes s delete node tmp left).heap a).balance := by
  obtain ⟨hnc, -, -, -⟩ := copyNodes_eval h node
  obtain ⟨htc, htp, hti, -⟩ := copyNodes_eval h tmp
  have hntmp := h.tmp_ne h.node_mem
  have hrt := h.tmp_ne h.r_mem
  have hcopyt : copy s delete node tmp tmp = s.heap node := by rw [copy, if_neg hntmp, if_pos rfl]
  have hnear : ((copyNodes s delete node tmp left).heap node).child left =
      some (exchange delete node tmp l) := by
    rw [hnc, h.exchange_near, if_neg fun he => h.above he.1, copy, if_pos rfl, h.near]
    simp only [and_true]
    split_ifs <;> rfl
  have hfar : ((copyNodes s delete node tmp left).heap node).child (!left) = some r := by
    rw [hnc, if_neg fun he => h.above he.1, if_neg, copy, if_pos rfl, h.far]
    rintro ⟨-, -, he⟩
    exact Bool.self_ne_not left he.symm
  have hnum : (copyNodes s delete node tmp left).numnodes = s.numnodes := by
    rw [copyNodes]
    split_ifs <;> simp
  -- The subtree below the neighbour, if any, is on side `left`.
  have hptmp : tmp ≠ exchange delete node tmp p := by
    rw [h.exchange_parent]
    split_ifs
    · exact hntmp
    · exact h.tmp_ne h.parent_mem.1
  have htchild : ∀ e, ((copyNodes s delete node tmp left).heap tmp).child e =
      (s.heap node).child e := by
    intro e
    rw [htc, if_neg, if_neg fun he => hntmp he.2.1, hcopyt]
    rintro ⟨he, -⟩
    exact h.fresh (h.up he).1
  rw [swapNodes]
  generalize copyNodes s delete node tmp left = s4 at *
  have hpar : (((s4.setParent (exchange delete node tmp l) (some node)).setParent r
      (some node)).heap tmp).parent = some (exchange delete node tmp p) := by
    rw [parent_setParent, if_neg hrt, parent_setParent, htp, hcopyt, h.parent, h.exchange_near,
      h.exchange_parent]
    by_cases hl : l = node
    · rw [if_pos hl, if_pos hl, if_pos rfl]
    · rw [if_neg hl, if_neg hl, if_neg (h.tmp_ne h.l_mem)]
  simp only [hnear, hfar, hpar]
  have hidx : (((s4.setParent (exchange delete node tmp l) (some node)).setParent r
      (some node)).heap tmp).childIndex = (s.heap node).childIndex := by
    simp only [rest_setParent, hti, hcopyt]
  rw [hidx]
  generalize hs7 : ((s4.setParent (exchange delete node tmp l) (some node)).setParent r
      (some node)).setChild (exchange delete node tmp p) (s.heap node).childIndex (some tmp) = s7
  have h7 : ∀ a, (∀ e, (s7.heap a).child e =
      if a = exchange delete node tmp p ∧ e = (s.heap node).childIndex then some tmp
      else (s4.heap a).child e) ∧ (s7.heap a).parent = (if a = r then some node
      else if a = exchange delete node tmp l then some node else (s4.heap a).parent) ∧
      (s7.heap a).childIndex = (s4.heap a).childIndex ∧
      (s7.heap a).balance = (s4.heap a).balance := by
    intro a
    rw [← hs7]
    refine ⟨fun e => ?_, ?_, ?_, ?_⟩
    · simp only [child_setChild, rest_setParent]
    · simp only [rest_setChild, parent_setParent]
    · simp only [rest_setChild, rest_setParent]
    · simp only [rest_setChild, rest_setParent]
  have hwhich : (s7.heap tmp).child (decide ((s7.heap tmp).child true ≠ none)) =
      (s.heap node).child left := by
    have h7t : ∀ e, (s7.heap tmp).child e = (s.heap node).child e := fun e => by
      rw [(h7 tmp).1, if_neg fun he => hptmp he.1, htchild]
    rw [h7t, h7t]
    exact only_child h.end_of
  have hroot7 : s7.root = s4.root := by
    rw [← hs7]
    simp
  have hnum7 : s7.numnodes = s.numnodes := by
    rw [← hs7, ← hnum]
    simp
  rw [hwhich]
  cases hq : (s.heap node).child left with
  | none => exact ⟨s7, rfl, hnum7, hroot7, fun a => by simpa using h7 a⟩
  | some q =>
    refine ⟨_, rfl, hnum7, hroot7, fun a => ?_⟩
    simp only [rest_setParent, parent_setParent]
    obtain ⟨h1, h2, h3, h4⟩ := h7 a
    refine ⟨h1, ?_, h3, h4⟩
    rw [h2]
    simp [eq_comm]

omit h in
theorem exchange_map_eq {q : Option A} (h1 : q ≠ some delete)
    (h2 : q ≠ some node) : q.map (exchange delete node tmp) = q := by
  cases q with
  | none => rfl
  | some a =>
    have hd : a ≠ delete := fun he => h1 (congrArg some he)
    have hn : a ≠ node := fun he => h2 (congrArg some he)
    rw [map_some, exchange_of_ne hd hn]

theorem Site.child_renamed (e : Bool) (ha : a ∈ T.toList) :
    (if exchange delete node tmp a = exchange delete node tmp p ∧ e = (s.heap node).childIndex
      then some tmp
      else ((copyNodes s delete node tmp left).heap (exchange delete node tmp a)).child e) =
    ((s.heap a).child e).map (exchange delete node tmp) := by
  obtain ⟨hpm, hpc⟩ := h.parent_mem
  rw [(copyNodes_eval h _).1, copy]
  by_cases hd : a = delete
  · -- The copy of `delete`.
    subst hd
    have hab : ¬ ((s.heap a).parent = some node ∧ e = (s.heap a).childIndex) :=
      fun he => h.above he.1
    rw [exchange_delete, h.exchange_parent, if_neg hab, if_pos (rfl : node = node)]
    by_cases hl : l = node
    · obtain ⟨-, -, hi⟩ := h.rep.own.child ha h.near
      rw [if_pos hl, ← hl, hi]
      by_cases he : e = left
      · rw [if_pos ⟨rfl, he⟩, he, h.near, map_some, exchange_node h.l_ne.symm]
      · rw [if_neg fun h' => he h'.2, if_neg fun h' => he h'.2.2, Bool.eq_not_of_ne he, h.far,
          map_some, hl, exchange_of_ne h.r_ne h.far_ne]
    · rw [if_neg hl, if_neg fun h' => h.parent_ne h'.1.symm, if_neg fun h' => hl h'.1]
      by_cases he : e = left
      · rw [he, h.near, map_some, h.exchange_near, if_neg hl]
      · rw [Bool.eq_not_of_ne he, h.far, map_some, exchange_of_ne h.r_ne h.far_ne]
  by_cases hn : a = node
  · -- The copy of the neighbour on the stack.
    subst hn
    rw [exchange_node h.ne, if_neg, if_neg fun he => h.fresh (h.up he.1).1,
      if_neg fun he => h.tmp_ne ha he.2.1, if_neg (h.tmp_ne ha), if_pos rfl]
    · refine (exchange_map_eq (fun he => ?_) fun he => ?_).symm
      · exact (h.below he).2.2.1 rfl
      · exact (h.below he).2.1 rfl
    rintro ⟨he, -⟩
    rw [h.exchange_parent] at he
    split_ifs at he
    · exact h.tmp_ne ha he
    · exact h.tmp_ne hpm he
  · rw [exchange_of_ne hd hn, if_neg hn, if_neg (h.tmp_ne ha).symm, h.exchange_parent]
    by_cases hpa : a = p ∧ e = (s.heap node).childIndex
    · obtain ⟨rfl, rfl⟩ := hpa
      rw [if_pos ⟨by rw [if_neg fun hl => hd (h.adjacent.mp hl)], rfl⟩, hpc, map_some,
        exchange_node h.ne]
    rw [if_neg, if_neg (fun he => hn he.2.1 : ¬ (l = node ∧ a = node ∧ e = left))]
    · by_cases hup : (s.heap delete).parent = some a ∧ e = (s.heap delete).childIndex
      · obtain ⟨hup, rfl⟩ := hup
        rw [if_pos ⟨hup, rfl⟩, (h.up hup).2.1, map_some, exchange_delete]
      rw [if_neg hup]
      refine (exchange_map_eq (fun he => ?_) fun he => ?_).symm
      · obtain ⟨-, hp, hi⟩ := h.rep.own.child ha he
        exact hup ⟨hp, hi.symm⟩
      · obtain ⟨-, hp, hi⟩ := h.rep.own.child ha he
        exact hpa ⟨(Option.some.inj (h.parent.symm.trans hp)).symm, hi.symm⟩
    · rintro ⟨he, hi⟩
      split_ifs at he
      · exact hn he
      · exact hpa ⟨he, hi⟩

theorem Site.parent_renamed (ha : a ∈ T.toList) :
    (if (s.heap node).child left = some (exchange delete node tmp a) then some tmp
      else if exchange delete node tmp a = r then some node
      else if exchange delete node tmp a = exchange delete node tmp l then some node
      else ((copyNodes s delete node tmp left).heap (exchange delete node tmp a)).parent) =
    (s.heap a).parent.map (exchange delete node tmp) := by
  rw [(copyNodes_eval h _).2.1, copy, h.exchange_near]
  by_cases hd : a = delete
  · subst hd
    rw [exchange_delete, if_neg fun he => (h.below he).2.1 rfl, if_neg h.far_ne.symm, if_neg,
      if_pos rfl]
    · refine (exchange_map_eq (fun he => ?_) h.above).symm
      exact (h.up he).2.2 rfl
    · intro he
      split_ifs at he with hl
      · exact h.tmp_ne h.node_mem he.symm
      · exact hl he.symm
  by_cases hn : a = node
  · subst hn
    rw [exchange_node h.ne, if_neg fun he => h.fresh (h.below he).1, if_neg (h.tmp_ne h.r_mem),
      if_neg (h.tmp_ne ha), if_pos rfl, h.parent, map_some, h.exchange_parent]
    by_cases hl : l = a
    · rw [if_pos hl, if_pos hl, if_pos rfl]
    · rw [if_neg hl, if_neg hl, if_neg (h.tmp_ne h.l_mem)]
  rw [exchange_of_ne hd hn, if_neg hn, if_neg (h.tmp_ne ha).symm]
  by_cases hb : (s.heap node).child left = some a
  · rw [if_pos hb, (h.below hb).2.2.2, map_some, exchange_node h.ne]
  rw [if_neg hb]
  by_cases hr : a = r
  · subst hr
    rw [if_pos rfl, (h.rep.own.child h.delete_mem h.far).2.1, map_some, exchange_delete]
  rw [if_neg hr]
  by_cases hl : a = l
  · subst hl
    rw [if_neg hn, if_pos rfl, (h.rep.own.child h.delete_mem h.near).2.1, map_some,
      exchange_delete]
  rw [if_neg]
  · -- Not a child of either.
    rcases h.rep.own.parent ha with ⟨-, hroot⟩ | ⟨q, -, hp, hc⟩
    · rw [show (s.heap a).parent = none from hroot]
      rfl
    refine (exchange_map_eq (fun he => ?_) fun he => ?_).symm
    · cases hp.symm.trans he
      by_cases hi : (s.heap a).childIndex = left
      · rw [hi, h.near] at hc
        exact hl (Option.some.inj hc).symm
      · rw [Bool.eq_not_of_ne hi, h.far] at hc
        exact hr (Option.some.inj hc).symm
    · cases hp.symm.trans he
      by_cases hi : (s.heap a).childIndex = left
      · exact hb (hi ▸ hc)
      · rw [Bool.eq_not_of_ne hi, h.end_of] at hc
        cases hc
  · intro he
    split_ifs at he
    · exact h.tmp_ne ha he.symm
    · exact hl he

theorem Site.exchange_inj :
    ∀ a ∈ T.toList, ∀ b ∈ T.toList,
      exchange delete node tmp a = exchange delete node tmp b → a = b := by
  intro a ha b hb he
  have h1 := h.tmp_ne ha
  have h2 := h.tmp_ne hb
  simp only [exchange] at he
  grind

theorem copyNodes_root :
    (copyNodes s delete node tmp left).root =
      if (s.heap delete).parent = none then some node else s.root := by
  set s' := s.set tmp (s.heap node)
  have htmp := (h.tmp_ne h.delete_mem).symm
  have hnode := heap_copy s node node htmp
  have hroot : (s'.set node (s'.heap delete)).root = s.root := rfl
  rw [copyNodes]
  generalize s'.set node (s'.heap delete) = s2 at hnode hroot ⊢
  rw [show ∀ q : AvlTree A, (q = s2 ∨ q = s2.setChild node left (some tmp)) →
    (q.relink (q.heap node).parent (q.heap node).childIndex (some node)).root =
      if (s.heap delete).parent = none then some node else s.root from ?_]
  · split_ifs
    · exact .inr rfl
    · exact .inl rfl
  rintro q hq
  have hp : (q.heap node).parent = (s.heap delete).parent := by
    rcases hq with rfl | rfl <;> simp [hnode]
  have hr : q.root = s.root := by rcases hq with rfl | rfl <;> simp [hroot]
  rw [hp]
  cases (s.heap delete).parent with
  | none => rfl
  | some z => exact hr

/-- **THE EXCHANGE IS A RENAMING**: `node` is where `delete` was, and `tmp` where `node` was. -/
theorem swapNodes_spec :
    ∃ s', swapNodes s delete node tmp left = some s' ∧ s'.numnodes = s.numnodes ∧
      Rep s' (T.map (exchange delete node tmp)) := by
  obtain ⟨s', hs', hnum, hroot, hheap⟩ := swapNodes_eval h
  refine ⟨s', hs', hnum, ?_, h.rep.own.map _ fun a ha => ?_, ?_⟩
  · rw [hroot, copyNodes_root h, h.rep.root, top_map]
    rcases h.rep.own.parent h.delete_mem with ⟨ht, hl⟩ | ⟨q, -, hp, -⟩
    · rw [if_pos (show (s.heap delete).parent = none from hl), ht, map_some, exchange_delete]
    rw [if_neg (by simp [hp])]
    -- The root has no parent.
    refine (exchange_map_eq (fun he => ?_) fun he => ?_).symm
    · cases hp.symm.trans (show (s.heap delete).parent = none from h.rep.own.top_linked he)
    · cases h.parent.symm.trans (show (s.heap node).parent = none from h.rep.own.top_linked he)
  · obtain ⟨h1, h2, h3, h4⟩ := hheap (exchange delete node tmp a)
    obtain ⟨-, -, h5, h6⟩ := copyNodes_eval h (exchange delete node tmp a)
    have hcopy : copy s delete node tmp (exchange delete node tmp a) = s.heap a := by
      rw [copy]
      by_cases hd : a = delete
      · rw [hd, exchange_delete, if_pos rfl]
      by_cases hn : a = node
      · rw [hn, exchange_node h.ne, if_neg (h.tmp_ne h.node_mem), if_pos rfl]
      · rw [exchange_of_ne hd hn, if_neg hn, if_neg (h.tmp_ne ha).symm]
    rw [hcopy] at h5 h6
    ext1
    · funext e
      exact (h1 e).trans (h.child_renamed e ha)
    · exact h2.trans (h.parent_renamed ha)
    · exact h3.trans h5
    · exact h4.trans h6
  · rw [toList_map]
    exact List.Nodup.map_on h.exchange_inj h.rep.nodup

end

end

section

variable {s : AvlTree A} {left : Bool} {fuel : ℕ}

omit [DecidableEq A] in
/-- A loop that goes down on side `d` ends at the last node on that side. -/
theorem descent_spec {loop : ℕ → A → Option A} (d : Bool) (fuel : ℕ) (h : Own s.heap link t)
    (ha : t.top = some a) (hfuel : t.toList.length ≤ fuel)
    (hloop : ∀ n, ∀ x ∈ t.toList,
      loop (n + 1) x = ((s.heap x).child d).elim (some x) (loop n)) :
    ∃ n c b sub, loop fuel a = some n ∧ t = plug c (join (!d) b n sub nil) ∧
      ∀ f ∈ c, f.side = d := by
  induction fuel generalizing t link a with
  | zero =>
    have hmem := top_mem ha
    rw [List.length_eq_zero_iff.mp (Nat.le_zero.mp hfuel)] at hmem
    cases hmem
  | succ fuel ih =>
    rcases eq_nil_or_join d t with rfl | ⟨b, x, near, far, rfl⟩
    · cases ha
    rw [hloop fuel a (top_mem ha)]
    obtain rfl : x = a := by simpa using ha
    obtain ⟨h1, -, -, -, hn, -⟩ := own_join.mp h
    rw [h1]
    cases hnear : near.top with
    | none =>
      obtain rfl := top_eq_none.mp hnear
      exact ⟨x, [], b, far, rfl, by rw [plug, join_not], nofun⟩
    | some y =>
      have hperm := toList_join_perm d b x near far
      have hlen := hperm.length_eq
      simp only [List.length_cons, List.length_append] at hlen
      obtain ⟨n, c, b', sub, hd, rfl, hc⟩ := ih hn hnear (by omega) fun n z hz =>
        hloop n z (hperm.mem_iff.mpr (.tail _ (List.mem_append_left _ hz)))
      refine ⟨n, c ++ [⟨d, b, x, far⟩], b', sub, hd, by simp [plug], ?_⟩
      simpa [or_imp, forall_and] using hc

omit [DecidableEq A] in
theorem descend_spec (d : Bool) (fuel : ℕ) (h : Own s.heap link t) (ha : t.top = some a)
    (hfuel : t.toList.length ≤ fuel) :
    ∃ n c b sub, descend s d fuel a = some n ∧ t = plug c (join (!d) b n sub nil) ∧
      ∀ f ∈ c, f.side = d := by
  refine descent_spec d fuel h ha hfuel fun n x _ => ?_
  rw [descend]
  cases (s.heap x).child d <;> rfl

theorem exchange_list (tmp : A) {c c2 : List (Frame A)} {b nb : ℤ} {node : A} {sub far : BalTree A}
    (hnd : (plug (c2 ++ ⟨left, b, delete, far⟩ :: c) (join left nb node sub nil)).toList.Nodup)
    (hc2 : ∀ f ∈ c2, f.side = !left) :
    ∃ P Q, (plug (c2 ++ ⟨left, b, delete, far⟩ :: c) (join left nb node sub nil)).toList =
        P ++ delete :: Q ∧ ((ctxLeft (c2 ++ ⟨left, b, delete, far⟩ :: c) ++ sub.toList ++
        ctxRight (c2 ++ ⟨left, b, delete, far⟩ :: c)).map (exchange delete node tmp)) = P ++ Q := by
  have hside := ctx_one_sided hc2
  have hfix : ∀ L : List A, delete ∉ L → node ∉ L → L.map (exchange delete node tmp) = L := by
    intro L h1 h2
    refine (List.map_congr_left fun a ha => ?_).trans (List.map_id L)
    exact exchange_of_ne (fun he => h1 (he ▸ ha)) fun he => h2 (he ▸ ha)
  rw [toList_plug, toList_join] at hnd ⊢
  rw [ctxLeft_append, ctxRight_append, ctxLeft, ctxRight] at hnd ⊢
  cases left with
  | false =>
    simp only [Bool.not_false, if_true] at hside
    simp only [hside, leftOf, rightOf, if_false, Bool.false_eq_true, List.append_nil,
      toList] at hnd ⊢
    refine ⟨ctxLeft c ++ (ctxLeft c2 ++ (sub.toList ++ [node])), far.toList ++ ctxRight c,
      by simp, ?_⟩
    simp only [List.nodup_append, List.mem_append] at hnd
    simp only [List.map_append, List.map_cons]
    rw [hfix (ctxLeft c) (by grind) (by grind), hfix (ctxLeft c2) (by grind) (by grind),
      hfix sub.toList (by grind) (by grind), hfix far.toList (by grind) (by grind),
      hfix (ctxRight c) (by grind) (by grind)]
    simp
  | true =>
    simp only [Bool.not_true, if_false, Bool.false_eq_true] at hside
    simp only [hside, leftOf, rightOf, if_true, List.nil_append, toList, List.append_assoc,
      List.cons_append] at hnd ⊢
    refine ⟨ctxLeft c ++ far.toList, node :: (sub.toList ++ (ctxRight c2 ++ ctxRight c)),
      by simp, ?_⟩
    simp only [List.nodup_append, List.nodup_cons] at hnd
    simp only [List.map_append, List.map_cons]
    rw [hfix (ctxLeft c) (by grind) (by grind), hfix (ctxRight c2) (by grind) (by grind),
      hfix sub.toList (by grind) (by grind), hfix far.toList (by grind) (by grind),
      hfix (ctxRight c) (by grind) (by grind)]
    simp

theorem avlRemove_inner {c : List (Frame A)} {b : ℤ} {tmp : A} {near far : BalTree A}
    (hleft : balance2child b = left) (hrep : Rep s (plug c (join left b delete near far)))
    (hbal : (plug c (join left b delete near far)).Balanced) (hnear : near ≠ nil) (hfar : far ≠ nil)
    (hfresh : tmp ∉ (plug c (join left b delete near far)).toList) (hnum : s.numnodes ≠ 0)
    (hfuel : (plug c (join left b delete near far)).toList.length ≤ fuel) :
    ∃ s' T' P Q, avlRemove fuel s delete tmp = some s' ∧ Rep s' T' ∧ T'.Balanced ∧
      (plug c (join left b delete near far)).toList = P ++ delete :: Q ∧ T'.toList = P ++ Q ∧
      s'.numnodes = s.numnodes - 1 := by
  obtain ⟨-, hx⟩ := own_plug.mp hrep.own
  obtain ⟨h1, h2, h3, h4, hn, -⟩ := own_join.mp hx
  obtain ⟨l, hl⟩ := Option.ne_none_iff_exists'.mp fun he => hnear (top_eq_none.mp he)
  obtain ⟨r, hr⟩ := Option.ne_none_iff_exists'.mp fun he => hfar (top_eq_none.mp he)
  have hlen := (toList_plug_perm c (join left b delete near far)).length_eq
  have hlen' := (toList_join_perm left b delete near far).length_eq
  simp only [List.length_append, List.length_cons] at hlen hlen'
  obtain ⟨node, c2, nb, sub, hdesc, rfl, hc2⟩ := descend_spec (!left) fuel hn hl (by omega)
  rw [Bool.not_not] at *
  -- The neighbour is the focus of one long context.
  set p' := plug c2 (join left nb node sub nil)
  have hT : plug c (join left b delete p' far) =
      plug (c2 ++ ⟨left, b, delete, far⟩ :: c) (join left nb node sub nil) := by
    rw [plug_append, plug]
  obtain ⟨-, hnode⟩ := own_plug.mp (hT ▸ hrep.own)
  obtain ⟨-, hend, -, hlink, -⟩ := own_join.mp hnode
  have hnm : node ∈ p'.toList :=
    (toList_plug_perm c2 _).mem_iff.mpr (List.mem_append_left _ (top_mem (top_join ..)))
  have hap := (((toList_plug_perm c _).trans ((toList_join_perm left b delete _
    far).append_right _)).nodup_iff).mp hrep.nodup
  simp only [List.cons_append, List.nodup_cons, List.nodup_append, List.mem_append, not_or] at hap
  obtain ⟨p, hp⟩ : ∃ p, (s.heap node).parent = some p := by
    cases c2 with
    | nil | cons g c2 => exact ⟨_, hlink.1⟩
  have hmem : ∀ {a}, a = delete ∨ a ∈ p'.toList →
      a ∈ (plug c (join left b delete p' far)).toList := by
    intro a ha
    refine (toList_plug_perm c _).mem_iff.mpr (List.mem_append_left _ ?_)
    refine (toList_join_perm left b delete _ far).mem_iff.mpr ?_
    rcases ha with rfl | ha
    · exact List.mem_cons_self ..
    · exact List.mem_cons_of_mem _ (List.mem_append_left _ ha)
  have hsite : Site s _ delete node tmp l r p left := {
    rep := hrep
    delete_mem := hmem (.inl rfl)
    node_mem := hmem (.inr hnm)
    fresh := hfresh
    ne := fun he => hap.1.1.1 (he ▸ hnm)
    near := h1.trans hl
    far := h2.trans hr
    far_ne := fun he => hap.2.1.2.2 node hnm r (top_mem hr) he.symm
    end_of := hend
    parent := hp
    above := by
      cases c with
      | nil =>
        rw [show (s.heap delete).parent = none from h4]
        exact (Option.some_ne_none _).symm
      | cons g c =>
        rw [h4.1]
        intro he
        cases he
        exact hap.2.2.2 _ (.inl hnm) _ (by simp [ctxList]) rfl }
  obtain ⟨s1, hs1, hnum1, hrep1⟩ := swapNodes_spec hsite
  have hbal1 := (balanced_map (exchange delete node tmp)).mpr hbal
  rw [← List.length_map (exchange delete node tmp), ← toList_map] at hfuel
  rw [hT] at hrep1 hbal1 hfuel hrep ⊢
  rw [map_plug, map_join, exchange_node hsite.ne] at hrep1 hbal1 hfuel
  obtain ⟨s', T', hs', hT', hbT', hlT', hnT'⟩ := unlink_spec hrep1 hbal1 hfuel (by omega)
  obtain ⟨P, Q, hPQ, hQ⟩ := exchange_list tmp hrep.nodup hc2
  refine ⟨s', T', P, Q, ?_, hT', hbT', hPQ, ?_, by omega⟩
  · have hrun : (descend s (!left) fuel l).bind (fun node =>
        (swapNodes s delete node tmp left).bind fun s => unlink fuel s tmp) = some s' := by
      rw [hdesc, Option.bind_some, hs1, Option.bind_some, hs']
    rw [hl] at h1
    rw [hr] at h2
    rw [avlRemove, h3, hleft]
    cases left with
    | false =>
      rw [show (s.heap delete).child true = some r from h2]
      dsimp only
      rw [h1]
      exact hrun
    | true =>
      rw [show (s.heap delete).child false = some r from h2]
      dsimp only
      rw [h1]
      exact hrun
  · rw [hlT', ← hQ, ctxLeft_map, ctxRight_map, toList_map, List.map_append, List.map_append]

theorem avlRemove_spec {T : BalTree A} {tmp : A} (hrep : Rep s T)
    (hbal : T.Balanced) (hmem : delete ∈ T.toList) (hfresh : tmp ∉ T.toList) (hnum : s.numnodes ≠ 0)
    (hfuel : T.toList.length ≤ fuel) :
    ∃ s' T' P Q, avlRemove fuel s delete tmp = some s' ∧ Rep s' T' ∧ T'.Balanced ∧
      T.toList = P ++ delete :: Q ∧ T'.toList = P ++ Q ∧ s'.numnodes = s.numnodes - 1 := by
  -- On the side to which the node leans.
  obtain ⟨c, b, near, far, rfl⟩ := exists_plug (balance2child (s.heap delete).balance) hmem
  obtain ⟨-, -, h3, -⟩ := own_join.mp (own_plug.mp hrep.own).2
  by_cases hboth : near ≠ nil ∧ far ≠ nil
  · exact avlRemove_inner (congrArg balance2child h3).symm hrep hbal hboth.1 hboth.2 hfresh hnum
      hfuel
  obtain ⟨d, t, hT⟩ : ∃ d t, join (balance2child (s.heap delete).balance) b delete near far =
      join d b delete t nil := by
    rcases not_and_or.mp hboth with h | h
    · exact ⟨_, far, by rw [not_not.mp h, ← join_not]⟩
    · exact ⟨_, near, by rw [not_not.mp h]⟩
  rw [hT] at hrep hbal hfuel ⊢
  obtain ⟨-, hnone, -⟩ := own_join.mp (own_plug.mp hrep.own).2
  obtain ⟨s', T', hs', hT', hbT', hlT', hnT'⟩ := unlink_spec hrep hbal hfuel hnum
  have hrun : avlRemove fuel s delete tmp = some s' := by
    rw [← hs', avlRemove]
    cases d with
    | false => rw [show (s.heap delete).child true = none from hnone]; split <;> trivial
    | true => rw [show (s.heap delete).child false = none from hnone]
  cases d with
  | false =>
    refine ⟨s', T', ctxLeft c ++ t.toList, ctxRight c, hrun, hT', hbT', ?_, hlT', hnT'⟩
    simp [toList_plug, join, toList]
  | true =>
    refine ⟨s', T', ctxLeft c, t.toList ++ ctxRight c, hrun, hT', hbT', ?_, ?_, hnT'⟩
    · simp [toList_plug, join, toList]
    · rw [hlT', List.append_assoc]

end

end Sirius.Avl
