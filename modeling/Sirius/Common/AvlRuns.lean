import Mathlib.Data.Finset.Card
import Mathlib.Data.List.Pairwise
import Sirius.Common.AvlQuery

/-! # Runs of the tree operations

    Any sequence of `avl_add`, `avl_insert` at the place of a failed `avl_find`,
    `avl_insert_here` and `avl_remove` keeps a balanced search tree of the nodes that are in,
    and the queries answer as on the sorted list of these. -/

namespace Sirius.Avl

open Sirius.Lib Sirius.Lib.BalTree List

variable {A V : Type} [DecidableEq A] {compar : V → V → ℤ} {data : A → V} {c : List (Frame A)}
  {new : A} {fuel : ℕ} {value : V} {s : AvlTree A} {T : BalTree A} {direction : Bool}

/-- A well-formed tree in memory with the nodes `L`, from left to right. -/
structure Holds (compar : V → V → ℤ) (data : A → V) (s : AvlTree A) (T : BalTree A) : Prop where
  rep : Rep s T
  balanced : T.Balanced
  sorted : Sorted compar data T.toList
  count : s.numnodes = T.toList.length

section

omit [DecidableEq A]

theorem ctxIndex_child (c : List (Frame A)) :
    ∀ q e, ctxLink c = some (q, e) → (ctxIndex c).child = e := by
  intro q e h
  simp [ctxIndex, h]

theorem Fits.filter (h : Fits compar data value c) :
    (plug c nil).toList.filter (fun x => compar value (data x) = 1) = ctxLeft c ∧
    (plug c nil).toList.filter (fun x => compar value (data x) = -1) = ctxRight c := by
  rw [toList_plug, toList, append_nil, filter_append, filter_append]
  rw [filter_eq_self.mpr fun a ha => decide_eq_true (h.1 a ha),
    filter_eq_nil_iff.mpr fun a ha => by simp [h.2 a ha],
    filter_eq_nil_iff.mpr fun a ha => by simp [h.1 a ha],
    filter_eq_self.mpr fun a ha => decide_eq_true (h.2 a ha)]
  exact ⟨append_nil _, nil_append _⟩

/-- The descent of `avl_insert_here`, where all nodes are on the far side of the new one. -/
theorem hereLoop_spec {t : BalTree A} {link : Option (A × Bool)} {a : A} (d : Bool) (fuel : ℕ)
    (h : Own s.heap link t) (ha : t.top = some a) (hfuel : t.toList.length ≤ fuel)
    (hcmp : ∀ y ∈ t.toList, compar (data new) (data y) = sign d) :
    ∃ n c b sub, hereLoop compar data s new d fuel a = some n ∧
      t = plug c (join d b n nil sub) ∧ ∀ f ∈ c, f.side = d := by
  have hloop : ∀ n, ∀ x ∈ t.toList, hereLoop compar data s new d (n + 1) x
      = ((s.heap x).child d).elim (some x) (hereLoop compar data s new d n) := by
    intro n x hx
    have hplace : rightPlace compar data new x d = true := by
      rw [rightPlace, hcmp x hx]
      cases d <;> rfl
    rw [hereLoop, hplace]
    cases (s.heap x).child d <;> rfl
  obtain ⟨n, c, b, sub, hd, ht, hc⟩ := descent_spec d fuel h ha hfuel hloop
  exact ⟨n, c, b, sub, hd, join_not d b n sub nil ▸ ht, hc⟩

end

section

variable (hc : Comparator compar)

include hc

omit [DecidableEq A] in
theorem Fits.sorted (hf : Fits compar data (data new) c)
    (hs : Sorted compar data (plug c nil).toList) :
    Sorted compar data (ctxLeft c ++ new :: ctxRight c) ∧ new ∉ (plug c nil).toList := by
  rw [toList_plug, toList, append_nil] at hs ⊢
  obtain ⟨hl, hr, hlr⟩ := pairwise_append.mp hs
  constructor
  · refine pairwise_append.mpr ⟨hl, pairwise_cons.mpr ⟨hf.2, hr⟩, ?_⟩
    intro a ha b hb
    rcases mem_cons.mp hb with rfl | hb
    · rw [hc.swap (data b) (data a), hf.1 a ha]
    · exact hlr a ha b hb
  · intro hn
    have hself := hc.self (data new)
    rcases mem_append.mp hn with hn | hn
    · rw [hf.1 new hn] at hself
      cases hself
    · rw [hf.2 new hn] at hself
      cases hself

theorem Holds.insert {d : Bool} (h : Holds compar data s (plug c nil))
    (hf : Fits compar data (data new) c)
    (hd : ∀ q e, ctxLink c = some (q, e) → d = e) (hfuel : (plug c nil).toList.length < fuel) :
    ∃ s' T', avlInsert fuel s new ⟨(ctxLink c).map Prod.fst, d⟩ = some s' ∧
      Holds compar data s' T' ∧ T'.toList.Perm (new :: (plug c nil).toList) := by
  obtain ⟨hs, hnew⟩ := hf.sorted hc h.sorted
  obtain ⟨s', T', hs', hrep, hbal, hlist, hnum⟩ := avlInsert_spec h.rep h.balanced hnew hd hfuel
  have hperm : T'.toList.Perm (new :: (plug c nil).toList) := by
    rw [hlist, toList_plug, toList, append_nil]
    exact perm_middle
  refine ⟨s', T', hs', ⟨hrep, hbal, hlist ▸ hs, ?_⟩, hperm⟩
  rw [hnum, h.count, hperm.length_eq, length_cons]

/-! ## Insertion next to a node -/

/-- A new node belongs next to `here`, in the given direction. -/
def NextTo (compar : V → V → ℤ) (data : A → V) (new here : A) (direction : Bool)
    (L : List A) : Prop :=
  compar (data new) (data here) = sign direction ∧
    ∀ y ∈ L, compar (data y) (data here) = sign direction →
      compar (data new) (data y) = -sign direction

omit [DecidableEq A] in
theorem NextTo.fits {here : A} (h : NextTo compar data new here direction (plug c nil).toList)
    (hs : Sorted compar data (plug c nil).toList)
    (hend : endOf direction (ctxSide (!direction) c) = some here) :
    Fits compar data (data new) c := by
  rw [toList_plug, toList, append_nil] at h hs
  obtain ⟨hl, hr, hlr⟩ := pairwise_append.mp hs
  cases direction with
  | false =>
    -- The new node is just before `here`, which is the first after the hole.
    obtain ⟨Q, hQ⟩ : ∃ Q, ctxRight c = here :: Q := by
      simpa [endOf, ctxSide, head?_eq_some_iff] using hend
    have hnew : compar (data new) (data here) = -1 := h.1
    rw [hQ] at hr hlr h
    refine ⟨fun a ha => ?_, fun a ha => ?_⟩
    · exact h.2 a (mem_append_left _ ha) (hlr a ha here (mem_cons_self ..))
    · rw [hQ] at ha
      rcases mem_cons.mp ha with rfl | ha
      · exact hnew
      · exact hc.trans hnew ((pairwise_cons.mp hr).1 a ha)
  | true =>
    obtain ⟨P, hP⟩ : ∃ P, ctxLeft c = P ++ [here] := by
      simpa [endOf, ctxSide, getLast?_eq_some_iff] using hend
    have hnew : compar (data new) (data here) = 1 := h.1
    rw [hP] at hl hlr h
    refine ⟨fun a ha => ?_, fun a ha => ?_⟩
    · rw [hP] at ha
      rcases mem_append.mp ha with ha | ha
      · refine hc.trans_gt hnew ?_
        rw [hc.swap (data a) (data here), (pairwise_append.mp hl).2.2 a ha here (by simp)]
        rfl
      · rw [mem_singleton.mp ha]
        exact hnew
    · refine h.2 a (mem_append_right _ ha) ?_
      rw [hc.swap (data here) (data a), hlr here (by simp) a ha]
      rfl

theorem Holds.insertHere {here : A} (h : Holds compar data s T) (hmem : here ∈ T.toList)
    (hnext : NextTo compar data new here direction T.toList) (hfuel : T.toList.length < fuel) :
    ∃ s' T', avlInsertHere compar data fuel s new here direction = some s' ∧
      Holds compar data s' T' ∧ T'.toList.Perm (new :: T.toList) := by
  obtain ⟨c, b, near, far, rfl⟩ := exists_plug direction hmem
  obtain ⟨h1, -, -, -, hn, -⟩ := own_join.mp (own_plug.mp h.rep.own).2
  have hplace : rightPlace compar data new here direction = true := by
    rw [rightPlace, hnext.1]
    cases direction <;> rfl
  rw [avlInsertHere, hplace, h1]
  cases hnear : near.top with
  | none =>
    obtain rfl := top_eq_none.mp hnear
    have hT : plug c (join direction b here nil far) =
      plug (⟨direction, b, here, far⟩ :: c) nil := rfl
    rw [hT] at h hnext hfuel ⊢
    refine h.insert hc (hnext.fits hc h.sorted ?_) (fun q e he => ?_) hfuel
    · have := endOf_ctxSide_cons (!direction) ⟨direction, b, here, far⟩ c
      rwa [Bool.not_not, if_pos rfl] at this
    · cases he
      rfl
  | some y =>
    have hlen := length_le_plug c (join direction b here near far)
    have hperm := toList_join_perm direction b here near far
    have hlen' := hperm.length_eq
    simp only [length_cons, length_append] at hlen'
    -- Everything in the subtree is beyond the new node.
    have hbeyond : ∀ z ∈ near.toList, compar (data new) (data z) = sign (!direction) := by
      intro z hz
      have hzT : z ∈ (plug c (join direction b here near far)).toList :=
        (toList_plug_perm c _).mem_iff.mpr (mem_append_left _ (hperm.mem_iff.mpr
          (mem_cons_of_mem _ (mem_append_left _ hz))))
      rw [sign_not]
      refine hnext.2 z hzT ?_
      have hs := h.sorted
      rw [toList_plug] at hs
      have hs := (pairwise_append.mp (pairwise_append.mp hs).1).2.1
      cases direction with
      | false => exact (pairwise_append.mp hs).2.2 z hz here (mem_cons_self ..)
      | true =>
        have hlt := (pairwise_cons.mp (pairwise_append.mp hs).2.1).1 z hz
        rw [hc.swap (data here) (data z), hlt]
        rfl
    obtain ⟨n, c2, b2, sub, hd, rfl, hc2⟩ := hereLoop_spec (!direction) fuel hn hnear (by omega)
      hbeyond
    have hT : plug c (join direction b here (plug c2 (join (!direction) b2 n nil sub)) far) =
        plug (⟨!direction, b2, n, sub⟩ :: c2 ++ ⟨direction, b, here, far⟩ :: c) nil := by
      rw [plug_append]
      rfl
    rw [hT] at h hnext hfuel ⊢
    dsimp only
    rw [hd]
    refine h.insert hc (hnext.fits hc h.sorted ?_) (fun q e he => ?_) hfuel
    · have hsides : ∀ f ∈ (⟨!direction, b2, n, sub⟩ :: c2 : List (Frame A)),
          f.side = !direction := by simpa using hc2
      have hskip : endOf (!!direction) (ctxSide (!direction) ((⟨!direction, b2, n, sub⟩ :: c2) ++
        ⟨direction, b, here, far⟩ :: c)) = _ := endOf_ctxSide_append hsides
      rw [endOf_ctxSide_cons, Bool.not_not, if_pos rfl] at hskip
      exact hskip
    · cases he
      rfl

inductive Op (A V : Type)
  | add (new : A)
  /-- `avl_find` of a value, then `avl_insert` at the place. -/
  | insert (value : V) (new : A)
  | insertHere (new here : A) (direction : Bool)
  /-- `tmp` is the node on the stack of `avl_remove`. -/
  | remove (delete tmp : A)

def Op.run (compar : V → V → ℤ) (data : A → V) (fuel : ℕ) (s : AvlTree A) :
    Op A V → Option (AvlTree A)
  | add new => avlAdd compar data fuel s new
  | insert value new =>
    match avlFind compar data fuel s value with
    | some (none, index) => avlInsert fuel s new index
    | _ => none
  | insertHere new here direction => avlInsertHere compar data fuel s new here direction
  | remove delete tmp => avlRemove fuel s delete tmp

def Op.effect (S : Finset A) : Op A V → Finset A
  | add new | insert _ new | insertHere new _ _ => Insert.insert new S
  | remove delete _ => S.erase delete

def Op.Permitted (compar : V → V → ℤ) (data : A → V) (S : Finset A) : Op A V → Prop
  | add new => ∀ x ∈ S, compar (data new) (data x) ≠ 0
  | insert value new => compar value (data new) = 0 ∧ ∀ x ∈ S, compar value (data x) ≠ 0
  | insertHere new here direction => here ∈ S ∧ compar (data new) (data here) = sign direction ∧
      ∀ y ∈ S, compar (data y) (data here) = sign direction →
        compar (data new) (data y) = -sign direction
  | remove delete tmp => delete ∈ S ∧ tmp ∉ S

theorem Holds.findInsert (h : Holds compar data s T) (heq : compar value (data new) = 0)
    (hnot : ∀ x ∈ T.toList, compar value (data x) ≠ 0) (hfuel : T.toList.length < fuel) :
    ∃ index s' T', avlFind compar data fuel s value = some (none, index) ∧
      avlInsert fuel s new index = some s' ∧ Holds compar data s' T' ∧
      T'.toList.Perm (new :: T.toList) := by
  rcases avlFind_spec hc value h.rep h.sorted hfuel with ⟨x, hx, hz, -⟩ | ⟨c, rfl, hf, hfind⟩
  · exact absurd hz (hnot x hx)
  · have hf' : Fits compar data (data new) c :=
      ⟨fun a ha => hc.equal (data a) heq ▸ hf.1 a ha, fun a ha => hc.equal (data a) heq ▸ hf.2 a ha⟩
    obtain ⟨s', T', hs', hT', hperm⟩ := h.insert hc hf' (ctxIndex_child c) hfuel
    exact ⟨ctxIndex c, s', T', hfind, hs', hT', hperm⟩

/-- **ONE OPERATION**: it ends, keeps the tree well-formed, and does what it is to do. -/
theorem Op.run_spec (op : Op A V) (h : Holds compar data s T)
    (hok : op.Permitted compar data T.toList.toFinset) (hfuel : T.toList.length < fuel) :
    ∃ s' T', op.run compar data fuel s = some s' ∧ Holds compar data s' T' ∧
      T'.toList.toFinset = op.effect T.toList.toFinset ∧
      T'.toList.length ≤ T.toList.length + 1 := by
  have hins : ∀ {new : A} {T' : BalTree A}, T'.toList.Perm (new :: T.toList) →
      T'.toList.toFinset = Insert.insert new T.toList.toFinset ∧
      T'.toList.length ≤ T.toList.length + 1 := by
    intro new T' hp
    refine ⟨?_, hp.length_eq.le⟩
    rw [toFinset_eq_of_perm _ _ hp, toFinset_cons]
  cases op with
  | add new =>
    obtain ⟨index, s', T', hf, hi, hT', hp⟩ := h.findInsert hc (hc.self (data new))
      (fun x hx => hok x (mem_toFinset.mpr hx)) hfuel
    refine ⟨s', T', ?_, hT', hins hp⟩
    rw [run, avlAdd, hf]
    exact hi
  | insert value new =>
    obtain ⟨index, s', T', hf, hi, hT', hp⟩ := h.findInsert hc hok.1
      (fun x hx => hok.2 x (mem_toFinset.mpr hx)) hfuel
    refine ⟨s', T', ?_, hT', hins hp⟩
    rw [run, hf]
    exact hi
  | insertHere new here direction =>
    obtain ⟨hmem, hnext, hall⟩ := hok
    obtain ⟨s', T', hs', hT', hp⟩ := h.insertHere hc (mem_toFinset.mp hmem)
      ⟨hnext, fun y hy => hall y (mem_toFinset.mpr hy)⟩ hfuel
    exact ⟨s', T', hs', hT', hins hp⟩
  | remove delete tmp =>
    obtain ⟨hmem, hfresh⟩ := hok
    rw [mem_toFinset] at hmem hfresh
    have hnum : s.numnodes ≠ 0 := by
      rw [h.count]
      exact Nat.ne_of_gt (length_pos_of_mem hmem)
    obtain ⟨s', T', P, Q, hs', hrep, hbal, hPQ, hlist, hn⟩ := avlRemove_spec h.rep h.balanced
      hmem hfresh hnum hfuel.le
    have hnd := h.rep.nodup
    have hs := h.sorted
    have hcount := h.count
    rw [hPQ] at hnd hs hcount ⊢
    simp only [length_append, length_cons] at hcount
    have hsub : (P ++ Q).Sublist (P ++ delete :: Q) :=
      List.Sublist.append_left (sublist_cons_self ..) P
    refine ⟨s', T', hs', ⟨hrep, hbal, ?_, ?_⟩, ?_, ?_⟩
    · rw [hlist]
      exact hs.sublist hsub
    · rw [hlist, hn, length_append]
      omega
    · rw [effect]
      ext a
      simp only [mem_toFinset, Finset.mem_erase]
      grind
    · rw [hlist]
      exact Nat.le_succ_of_le hsub.length_le

/-- The queries answer as on the sorted list `L`. -/
structure Answers (compar : V → V → ℤ) (data : A → V) (fuel : ℕ) (s : AvlTree A)
    (L : List A) : Prop where
  first : avlFirst fuel s = some L.head?
  last : avlLast fuel s = some L.getLast?
  walk : ∀ P x Q, L = P ++ x :: Q → avlWalk fuel s (some x) false = some P.getLast? ∧
    avlWalk fuel s (some x) true = some Q.head?
  find : ∀ value, (avlFind compar data fuel s value).map Prod.fst =
    some (L.find? fun x => compar value (data x) = 0)
  nearest : ∀ value index, avlFind compar data fuel s value = some (none, index) →
    avlNearest fuel s index false = some (L.filter fun x => compar value (data x) = 1).getLast? ∧
    avlNearest fuel s index true = some (L.filter fun x => compar value (data x) = -1).head?

omit [DecidableEq A] in
theorem Sorted.unique {L : List A} (hs : Sorted compar data L) {x y : A} (hx : x ∈ L)
    (hy : y ∈ L) (h1 : compar value (data x) = 0) (h2 : compar value (data y) = 0) :
    x = y := by
  have hxy : compar (data x) (data y) = 0 := by
    have hv : compar (data x) value = 0 := by rw [hc.swap value (data x), h1]; rfl
    rw [hc.equal (data y) hv, h2]
  by_contra hne
  have hdiff : L.Pairwise fun a b => compar (data a) (data b) ≠ 0 := .imp (fun h => by omega) hs
  have hsymm : Std.Symm fun a b => compar (data a) (data b) ≠ 0 :=
    ⟨fun a b h => by rw [hc.swap (data a) (data b)]; omega⟩
  exact hdiff.forall hx hy hne hxy

theorem Holds.answers (h : Holds compar data s T) (hfuel : T.toList.length < fuel) :
    Answers compar data fuel s T.toList where
  first := by
    rw [avlFirst, h.rep.root, lastNode_spec false fuel h.rep.own hfuel, Option.or_none]
    rfl
  last := by
    rw [avlLast, h.rep.root, lastNode_spec true fuel h.rep.own hfuel, Option.or_none]
    rfl
  walk := by
    intro P x Q hPQ
    have hnd := h.rep.nodup
    have hx : x ∈ T.toList := by simp [hPQ]
    obtain ⟨c, b, near, far, rfl⟩ := exists_plug false hx
    have hlist : (plug c (join false b x near far)).toList =
        (ctxLeft c ++ near.toList) ++ x :: (far.toList ++ ctxRight c) := by
      simp [toList_plug, join, toList]
    -- A node stands at one place only.
    have hnot := (nodup_cons.mp (perm_middle.nodup_iff.mp (hlist ▸ hnd))).1
    rw [mem_append, not_or] at hnot
    obtain ⟨rfl, -, rfl⟩ := (append_cons_inj_of_notMem hnot.1 hnot.2).mp (hlist.symm.trans hPQ)
    refine ⟨avlWalk_spec h.rep hfuel.le, ?_⟩
    exact avlWalk_spec h.rep hfuel.le
  find := by
    intro value
    rcases avlFind_spec hc value h.rep h.sorted hfuel with ⟨x, hx, hz, hf⟩ | ⟨c, hp, hf, he⟩
    · rw [hf]
      have hsome : (T.toList.find? fun x => compar value (data x) = 0).isSome :=
        find?_isSome.mpr ⟨x, hx, decide_eq_true hz⟩
      obtain ⟨y, hy⟩ := Option.isSome_iff_exists.mp hsome
      have hyz : compar value (data y) = 0 := by simpa using find?_some hy
      have hyx : y = x := h.sorted.unique hc (mem_of_find?_eq_some hy) hx hyz hz
      rw [hy, hyx]
      rfl
    · rw [he, find?_eq_none.mpr]
      · rfl
      intro a ha
      rw [← hp, toList_plug, toList, append_nil] at ha
      rcases mem_append.mp ha with ha | ha
      · simp [hf.1 a ha]
      · simp [hf.2 a ha]
  nearest := by
    intro value index hfind
    rcases avlFind_spec hc value h.rep h.sorted hfuel with ⟨x, hx, hz, hf⟩ | ⟨c, rfl, hf, he⟩
    · rw [hf] at hfind
      cases hfind
    · rw [he] at hfind
      cases hfind
      rw [avlNearest_spec h.rep hfuel.le, avlNearest_spec h.rep hfuel.le, hf.filter.1, hf.filter.2]
      exact ⟨rfl, rfl⟩

def runOps (compar : V → V → ℤ) (data : A → V) (fuel : ℕ) :
    List (Op A V) → AvlTree A → Option (AvlTree A)
  | [], s => some s
  | op :: ops, s => (op.run compar data fuel s).bind (runOps compar data fuel ops)

def effects : List (Op A V) → Finset A → Finset A
  | [], S => S
  | op :: ops, S => effects ops (op.effect S)

def AllPermitted (compar : V → V → ℤ) (data : A → V) : List (Op A V) → Finset A → Prop
  | [], _ => True
  | op :: ops, S => op.Permitted compar data S ∧ AllPermitted compar data ops (op.effect S)

theorem runOps_spec (fuel : ℕ) (ops : List (Op A V)) :
    ∀ {s : AvlTree A} {T : BalTree A}, Holds compar data s T →
      AllPermitted compar data ops T.toList.toFinset → T.toList.length + ops.length < fuel →
      ∃ s' T', runOps compar data fuel ops s = some s' ∧ Holds compar data s' T' ∧
        T'.toList.toFinset = effects ops T.toList.toFinset ∧ T'.toList.length < fuel := by
  induction ops with
  | nil =>
    intro s T h _ hfuel
    exact ⟨s, T, rfl, h, rfl, hfuel⟩
  | cons op ops ih =>
    intro s T h hok hfuel
    rw [length_cons] at hfuel
    obtain ⟨s1, T1, hs1, h1, hset, hlen⟩ := op.run_spec hc h hok.1
      (show T.toList.length < fuel by omega)
    obtain ⟨s', T', hs', h', hset', hlen'⟩ := ih h1 (hset ▸ hok.2) (by omega)
    refine ⟨s', T', ?_, h', ?_, hlen'⟩
    · rw [runOps, hs1]
      exact hs'
    · rw [hset', hset]
      rfl

end

/-- **THE TREE OVER ANY RUN**: permitted operations on an empty tree end in a balanced search
    tree of exactly the nodes that are in, with every pointer, index and balance as in the
    tree, and the queries answer as on its sorted list. -/
theorem avl_tree_run (hc : Comparator compar) (ops : List (Op A V)) (heap : A → Node A) (fuel : ℕ)
    (hok : AllPermitted compar data ops ∅) (hfuel : ops.length < fuel) :
    ∃ s T, runOps compar data fuel ops ⟨none, 0, heap⟩ = some s ∧ Holds compar data s T ∧
      T.toList.toFinset = effects ops ∅ ∧ Answers compar data fuel s T.toList := by
  have hempty : Holds compar data ⟨none, 0, heap⟩ (nil : BalTree A) :=
    ⟨⟨rfl, trivial, nodup_nil⟩, trivial, .nil, rfl⟩
  obtain ⟨s, T, hs, hT, hset, hlen⟩ := runOps_spec hc fuel ops hempty hok
    (by simpa [toList] using hfuel)
  exact ⟨s, T, hs, hT, hset, hT.answers hc hlen⟩

def intCompar (a b : ℤ) : ℤ := if a < b then -1 else if a = b then 0 else 1

theorem intCompar_comparator : Comparator intCompar where
  range a b := by
    simp only [intCompar]
    split_ifs <;> simp
  swap a b := by
    simp only [intCompar]
    split_ifs <;> omega
  trans := by
    intro a b c h1 h2
    simp only [intCompar] at h1 h2 ⊢
    split_ifs at h1 h2 ⊢ <;> omega
  equal := by
    intro a b c h
    simp only [intCompar] at h ⊢
    split_ifs at h ⊢ <;> omega

/-- Five insertions of all three kinds, with rotations, and the removal of an inner node. -/
theorem avl_tree_run_six :
    let ops : List (Op ℤ ℤ) := [.add 10, .add 30, .insert 20 20, .insertHere 25 30 false, .add 5,
      .remove 20 99]
    AllPermitted intCompar id ops ∅ ∧
      ∃ s T, runOps intCompar id 7 ops
          ⟨none, 0, fun _ => ⟨fun _ => none, none, false, 0⟩⟩ = some s ∧
        Holds intCompar id s T ∧ T.toList.toFinset = {5, 10, 25, 30} ∧
        Answers intCompar id 7 s T.toList := by
  intro ops
  have hok : AllPermitted intCompar id ops ∅ := by
    simp [ops, AllPermitted, Op.Permitted, Op.effect, intCompar, sign]
  obtain ⟨s, T, hs, hT, hset, ha⟩ := avl_tree_run intCompar_comparator ops
    (fun _ => ⟨fun _ => none, none, false, 0⟩) 7 hok (by simp [ops])
  refine ⟨hok, s, T, hs, hT, ?_, ha⟩
  rw [hset]
  decide

end Sirius.Avl
