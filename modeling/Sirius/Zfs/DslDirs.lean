import Sirius.Zfs.DslTree

/-! # Which directory a dataset belongs to

    The datasets of a directory are the snapshots of one head, oldest to newest, after the
    snapshot the directory was cloned from.  `Dirs` says this with the txgs alone: the birth
    windows of two datasets of one directory do not meet, and all lie after the origin's.  So
    `dsl_dataset_promote`, walking back from a clone's origin, finds exactly the datasets of
    the origin's directory up to the origin, and then that directory's own origin. -/

namespace Sirius.Dsl

open Function Sirius.Lib Finset

variable {t t' : Tree} {sp sp' : Space} {o n p q r fuel : ℕ}

/-- The snapshot `o` was taken before the first block of `q` was born. -/
def Tree.Before (t : Tree) (o q : ℕ) : Prop :=
  t.nextSnapObj o ≠ none ∧ t.creationTxg o ≤ t.prevSnapTxg q

structure Dirs (t : Tree) (sp : Space) : Prop where
  next_dir : ∀ o ∈ t.objs, ∀ n, t.nextSnapObj o = some n → sp.dirObj n = sp.dirObj o
  above : ∀ o ∈ t.objs, ∀ p, t.prevSnapObj o = some p →
    sp.dirObj p = sp.dirObj o ∨ sp.originObj (sp.dirObj o) = some p
  base : ∀ o ∈ t.objs, ∀ q, sp.originObj (sp.dirObj o) = some q →
    q ∈ t.objs ∧ t.nextSnapObj q ≠ none ∧ t.creationTxg q ≤ t.prevSnapTxg o
  window : ∀ o ∈ t.objs, ∀ q ∈ t.objs, sp.dirObj o = sp.dirObj q → o ≠ q →
    t.Before o q ∨ t.Before q o

structure Tree.SameLinks (t t' : Tree) : Prop where
  objs : t'.objs = t.objs
  next : t'.nextSnapObj = t.nextSnapObj
  prev : t'.prevSnapObj = t.prevSnapObj
  txg : t'.prevSnapTxg = t.prevSnapTxg
  created : t'.creationTxg = t.creationTxg

theorem Tree.SameLinks.blockKill {bp : Blkptr} : t.SameLinks (t.blockKill o bp) := by
  rw [Tree.blockKill]
  split <;> exact ⟨rfl, rfl, rfl, rfl, rfl⟩

namespace Dirs

theorem same (h : Dirs t sp) (ht : t.SameLinks t') (hs : sp.SameDirs sp') : Dirs t' sp' := by
  cases t'
  cases sp'
  obtain ⟨rfl, rfl, rfl, rfl, rfl⟩ := ht
  obtain ⟨rfl, rfl, rfl⟩ := hs
  exact ⟨h.next_dir, h.above, h.base, h.window⟩

/-! ## Where the datasets of a directory end -/

theorem first_of_root (ht : t.Inv) (ho : o ∈ t.objs) (hp : t.prevSnapObj o = none)
    (hq : q ∈ t.objs) : ¬t.Before q o := by
  rintro ⟨hsnap, hle⟩
  have h1 := ht.root o ho hp
  have h2 := (ht.snap q hq hsnap).1
  omega

section Facts

variable (h : Dirs t sp) (ht : t.Inv)

include h ht

section

variable (ho : o ∈ t.objs)

include ho

theorem origin_outside (hq : sp.originObj (sp.dirObj o) = some q) : sp.dirObj q ≠ sp.dirObj o := by
  intro hdir
  obtain ⟨hqm, hsnap, -⟩ := h.base o ho q hq
  have hle := (h.base q hqm q (hdir ▸ hq)).2.2
  have hlt := (ht.snap q hqm hsnap).1
  omega

theorem exists_first (hq : sp.originObj (sp.dirObj o) = some q) :
    ∃ f ∈ t.objs, sp.dirObj f = sp.dirObj o ∧ t.prevSnapObj f = some q := by
  -- go back inside the directory until the previous snapshot is outside
  induction htxg : t.prevSnapTxg o using Nat.strong_induction_on generalizing o with
  | _ k ih =>
    obtain ⟨hqm, hsnap, hle⟩ := h.base o ho q hq
    have hlt := (ht.snap q hqm hsnap).1
    cases hp : t.prevSnapObj o with
    | none =>
      have := ht.root o ho hp
      omega
    | some p =>
      rcases h.above o ho p hp with hdir | horigin
      · have hlt := ht.lineage.since_lt o ho p hp
        obtain ⟨f, hf, hfd, hfp⟩ :=
          ih (t.prevSnapTxg p) (htxg ▸ hlt) (ht.prev_mem ho hp) (hdir ▸ hq) rfl
        exact ⟨f, hf, hfd.trans hdir, hfp⟩
      · cases hq.symm.trans horigin
        exact ⟨o, ho, rfl, hp⟩

theorem sibling_eq (hq : q ∈ t.objs) (hdir : sp.dirObj o = sp.dirObj q)
    (hpo : t.prevSnapObj o = some p) (hpq : t.prevSnapObj q = some p) : o = q := by
  by_contra hne
  have h1 := (ht.prev o ho p hpo).2
  have h2 := (ht.prev q hq p hpq).2
  rcases h.window o ho q hq hdir hne with ⟨hsnap, hle⟩ | ⟨hsnap, hle⟩
  · have := (ht.snap o ho hsnap).1
    omega
  · have := (ht.snap q hq hsnap).1
    omega

section

variable (hp : t.prevSnapObj o = some p)

include hp

/-- The dataset that `ds_next_snap_obj` names is the one in the same directory. -/
theorem next_iff : t.nextSnapObj p = some o ↔ sp.dirObj p = sp.dirObj o := by
  have hpm := ht.prev_mem ho hp
  constructor
  · intro hnext
    exact (h.next_dir p hpm o hnext).symm
  intro hdir
  obtain ⟨m, hm⟩ := Option.ne_none_iff_exists'.mp (ht.prev o ho p hp).1
  obtain ⟨hmm, hmp⟩ := ht.next p hpm m hm
  have := h.sibling_eq ht hmm ho ((h.next_dir p hpm m hm).trans hdir) hmp hp
  rw [hm, this]

theorem first_of_origin (horigin : sp.originObj (sp.dirObj o) = some p) (hq : q ∈ t.objs)
    (hdir : sp.dirObj q = sp.dirObj o) : ¬t.Before q o := by
  rintro ⟨hsnap, hle⟩
  have h1 := (h.base q hq p (hdir ▸ horigin)).2.2
  have h2 := (ht.prev o ho p hp).2
  have h3 := (ht.snap q hq hsnap).1
  omega

theorem before_iff (hdir : sp.dirObj p = sp.dirObj o) (hq : q ∈ t.objs)
    (hqd : sp.dirObj q = sp.dirObj o) : t.Before q o ↔ q = p ∨ t.Before q p := by
  have hpm := ht.prev_mem ho hp
  obtain ⟨hsnap, htxg⟩ := ht.prev o ho p hp
  have hlt := (ht.snap p hpm hsnap).1
  constructor
  · rintro ⟨hqs, hle⟩
    rcases eq_or_ne q p with rfl | hqp
    · exact .inl rfl
    · rcases h.window q hq p hpm (hqd.trans hdir.symm) hqp with hbefore | ⟨-, hle'⟩
      · exact .inr hbefore
      · have := (ht.snap q hq hqs).1
        omega
  · rintro (rfl | ⟨hqs, hle⟩)
    · exact ⟨hsnap, htxg.symm.le⟩
    · exact ⟨hqs, by omega⟩

theorem first_of_branch (hbranch : t.nextSnapObj p ≠ some o) (hq : q ∈ t.objs)
    (hdir : sp.dirObj q = sp.dirObj o) : ¬t.Before q o := by
  have horigin := (h.above o ho p hp).resolve_left fun hd => hbranch ((h.next_iff ht ho hp).mpr hd)
  exact h.first_of_origin ht ho hp horigin hq hdir

end

/-! ## The walks of `dsl_dataset_promote` -/

omit ho in
/-- **HEADLINE**: the walk back from a snapshot collects the datasets of its directory up to
    it, each once. -/
theorem mem_snapList {last : Option ℕ} (hr : r ∈ t.objs) (hsnap : t.nextSnapObj r ≠ none)
    (hfuel : t.creationTxg r < fuel) (hreal : t.originSnap ≠ some r)
    (hlast : ∀ l, last = some l → t.nextSnapObj r = some l) :
    (∀ x, x ∈ (snapList t fuel last (some r)).1 ↔
      x ∈ t.objs ∧ sp.dirObj x = sp.dirObj r ∧ (x = r ∨ t.Before x r)) ∧
    (snapList t fuel last (some r)).1.Nodup := by
  induction fuel generalizing r last with
  | zero => exact absurd hfuel (Nat.not_lt_zero _)
  | succ fuel ih =>
    have hgo : ¬∃ l ∈ last, t.nextSnapObj r ≠ some l := by
      rintro ⟨l, hl, hne⟩
      exact hne (hlast l hl)
    have hlist : (snapList t (fuel + 1) last (some r)).1 =
        r :: (snapList t fuel (some r) (t.prevSnapObj r)).1 := by
      rw [snapList, if_neg hreal, if_neg hgo]
    have hlt := (ht.snap r hr hsnap).1
    -- the walk ends here if nothing of the directory is older
    have hend : (snapList t fuel (some r) (t.prevSnapObj r)).1 = [] →
        (∀ q ∈ t.objs, sp.dirObj q = sp.dirObj r → ¬t.Before q r) →
        (∀ x, x ∈ r :: (snapList t fuel (some r) (t.prevSnapObj r)).1 ↔
          x ∈ t.objs ∧ sp.dirObj x = sp.dirObj r ∧ (x = r ∨ t.Before x r)) ∧
        (r :: (snapList t fuel (some r) (t.prevSnapObj r)).1).Nodup := by
      intro hnil hfirst
      rw [hnil]
      refine ⟨fun x => ?_, List.nodup_singleton r⟩
      rw [List.mem_singleton]
      constructor
      · rintro rfl
        exact ⟨hr, rfl, .inl rfl⟩
      · rintro ⟨hx, hdir, rfl | hbefore⟩
        · rfl
        · exact absurd hbefore (hfirst x hx hdir)
    rw [hlist]
    cases hp : t.prevSnapObj r with
    | none =>
      rw [hp] at hend
      refine hend ?_ fun q hq _ => first_of_root ht hr hp hq
      cases fuel with
      | zero | succ => rfl
    | some p =>
      rw [hp] at hend
      have hpm := ht.prev_mem hr hp
      obtain ⟨hps, htxg⟩ := ht.prev r hr p hp
      obtain ⟨k, rfl⟩ : ∃ k, fuel = k + 1 := ⟨fuel - 1, by omega⟩
      by_cases hnext : t.nextSnapObj p = some r
      · have hpreal : t.originSnap ≠ some p := fun hp' => hsnap (ht.hidden p hp' r hnext)
        have hdir := (h.next_iff ht hr hp).mp hnext
        obtain ⟨hmem, hnodup⟩ := @ih p (some r) hpm hps (by omega) hpreal
          fun l hl => by rw [hnext, hl]
        refine ⟨fun x => ?_, List.nodup_cons.mpr ⟨fun hin => ?_, hnodup⟩⟩
        · rw [List.mem_cons, hmem, hdir]
          constructor
          · rintro (rfl | ⟨hx, hxd, hrest⟩)
            · exact ⟨hr, rfl, .inl rfl⟩
            · exact ⟨hx, hxd, .inr ((h.before_iff ht hr hp hdir hx hxd).mpr hrest)⟩
          · rintro ⟨hx, hxd, rfl | hbefore⟩
            · exact .inl rfl
            · exact .inr ⟨hx, hxd, (h.before_iff ht hr hp hdir hx hxd).mp hbefore⟩
        · obtain ⟨-, -, hrest⟩ := (hmem r).mp hin
          obtain ⟨-, hle⟩ := (h.before_iff ht hr hp hdir hr rfl).mpr hrest
          omega
      · refine hend ?_ fun q hq hdir => h.first_of_branch ht hr hp hnext hq hdir
        rw [snapList]
        split
        · rfl
        · rw [if_pos ⟨r, rfl, hnext⟩]

/-- The walk forward of `dsl_dataset_promote_check` stays in the clone's directory. -/
theorem newNext_dir (hq : sp.originObj (sp.dirObj o) = some q)
    (hn : newNext t q fuel o = some n) : sp.dirObj n = sp.dirObj o := by
  induction fuel generalizing o with
  | zero => cases hn
  | succ fuel ih =>
    rw [newNext] at hn
    split at hn
    case isTrue =>
      cases hn
      rfl
    case isFalse hne =>
      split at hn
      case h_1 p hp =>
        have hdir := (h.above o ho p hp).resolve_right fun horigin => hne (by
          rw [hp, ← horigin, hq])
        exact (ih (ht.prev_mem ho hp) (hdir.symm ▸ hq) hn).trans hdir
      case h_2 => cases hn

/-! ## The operations that change the links -/

omit ho in
theorem snapshot (ho : t.IsHead o) (hlt : t.prevSnapTxg o < t.txg) (hn : n ∉ t.objs) :
    Dirs (t.snapshot o n) (Space.snapshot t sp o n) := by
  set t' := t.snapshot o n
  obtain ⟨hm, hhead⟩ := ho
  have hne := Tree.ne_new hn
  obtain ⟨prev_n, prev_o, prev_r, txg_n, txg_o, txg_r, next_n, next_r, created_n, created_r, -⟩ :=
    Tree.snapshotted hn hm
  have dir_n : (Space.snapshot t sp o n).dirObj n = sp.dirObj o := update_self ..
  have dir_r : ∀ r ∈ t.objs, (Space.snapshot t sp o n).dirObj r = sp.dirObj r :=
    fun r hr => update_of_ne (hne r hr) _ _
  have txg_le : ∀ r ∈ t.objs, t.prevSnapTxg r ≤ t'.prevSnapTxg r := by
    intro r hr
    rcases eq_or_ne r o with rfl | hro
    · rw [txg_o]
      exact hlt.le
    · rw [txg_r r hr hro]
  have before_n : t'.Before n o :=
    ⟨next_n ▸ Option.some_ne_none o, by rw [created_n, txg_o]⟩
  have before_r : ∀ r ∈ t.objs, ∀ q ∈ t.objs, t.Before r q → t'.Before r q := by
    rintro r hr q hq ⟨hsnap, hle⟩
    refine ⟨next_r r hr ▸ Tree.relink_ne_none.mpr hsnap, ?_⟩
    rw [created_r r hr]
    exact hle.trans (txg_le q hq)
  -- a dataset of the directory other than the head is older than the new snapshot
  have older : ∀ r ∈ t.objs, r ≠ o → sp.dirObj r = sp.dirObj o → t'.Before r n := by
    intro r hr hro hdir
    rcases h.window r hr o hm hdir hro with ⟨hsnap, hle⟩ | ⟨hsnap, -⟩
    · refine ⟨next_r r hr ▸ Tree.relink_ne_none.mpr hsnap, ?_⟩
      rwa [created_r r hr, txg_n]
    · exact absurd hhead hsnap
  refine ⟨?_, ?_, ?_, ?_⟩
  · intro r hr m hnext
    rcases mem_insert.mp hr with rfl | hr
    · cases next_n.symm.trans hnext
      rw [dir_n, dir_r o hm]
    rw [next_r r hr] at hnext
    rw [dir_r r hr]
    rcases Tree.relink_cases hnext with ⟨hcond, rfl⟩ | ⟨-, hnext⟩
    · exact dir_n.trans (h.next_dir r hr o hcond.2)
    · rw [dir_r m (ht.next r hr m hnext).1]
      exact h.next_dir r hr m hnext
  · intro r hr p hp
    rcases eq_or_ne r o with rfl | hro
    · cases prev_o.symm.trans hp
      rw [dir_n, dir_r r hm]
      exact .inl rfl
    rcases mem_insert.mp hr with rfl | hr
    · rw [prev_n] at hp
      rw [dir_n, dir_r p (ht.prev_mem hm hp)]
      exact h.above o hm p hp
    · rw [prev_r r hr hro] at hp
      rw [dir_r r hr, dir_r p (ht.prev_mem hr hp)]
      exact h.above r hr p hp
  · have hbase : ∀ r ∈ t.objs, ∀ q, sp.originObj (sp.dirObj r) = some q →
        q ∈ insert n t.objs ∧ t'.nextSnapObj q ≠ none ∧ t'.creationTxg q ≤ t.prevSnapTxg r := by
      intro r hr q hq
      obtain ⟨hqm, hsnap, hle⟩ := h.base r hr q hq
      rw [next_r q hqm, created_r q hqm]
      exact ⟨mem_insert_of_mem hqm, Tree.relink_ne_none.mpr hsnap, hle⟩
    intro r hr q hq
    rcases mem_insert.mp hr with rfl | hr
    · rw [dir_n] at hq
      rw [txg_n]
      exact hbase o hm q hq
    · rw [dir_r r hr] at hq
      obtain ⟨h1, h2, h3⟩ := hbase r hr q hq
      exact ⟨h1, h2, h3.trans (txg_le r hr)⟩
  · intro r hr q hq hdir hrq
    rcases mem_insert.mp hr with rfl | hrm
    · rcases mem_insert.mp hq with rfl | hqm
      · exact absurd rfl hrq
      · rw [dir_n, dir_r q hqm] at hdir
        rcases eq_or_ne q o with rfl | hqo
        · exact .inl before_n
        · exact .inr (older q hqm hqo hdir.symm)
    rw [dir_r r hrm] at hdir
    rcases mem_insert.mp hq with rfl | hqm
    · rw [dir_n] at hdir
      rcases eq_or_ne r o with rfl | hro
      · exact .inr before_n
      · exact .inl (older r hrm hro hdir)
    · rw [dir_r q hqm] at hdir
      exact (h.window r hrm q hqm hdir hrq).imp (before_r r hrm q hqm) (before_r q hqm r hrm)

omit ho in
theorem create {dd : ℕ} {parent origin : Option ℕ} (hn : n ∉ t.objs)
    (hdd : ∀ o ∈ t.objs, sp.dirObj o ≠ dd)
    (horigin : ∀ p, origin = some p → p ∈ t.objs ∧ t.nextSnapObj p ≠ none) :
    Dirs (t.create n origin) (sp.create n dd parent origin) := by
  set sp' := sp.create n dd parent origin
  have hne := Tree.ne_new hn
  obtain ⟨hobjs, prev_n, prev_r, txg_n, txg_r, next_n, next_r, created_r, -⟩ :=
    Tree.created hn origin
  have dir_n : sp'.dirObj n = dd := update_self ..
  have dir_r : ∀ r ∈ t.objs, sp'.dirObj r = sp.dirObj r :=
    fun r hr => update_of_ne (hne r hr) _ _
  have origin_n : sp'.originObj dd = origin := update_self ..
  have origin_r : ∀ r ∈ t.objs, sp'.originObj (sp.dirObj r) =
      sp.originObj (sp.dirObj r) := fun r hr => update_of_ne (hdd r hr) _ _
  refine ⟨?_, ?_, ?_, ?_⟩
  all_goals rw [hobjs]
  · intro r hr m hnext
    rcases mem_insert.mp hr with rfl | hr
    · cases next_n.symm.trans hnext
    · rw [next_r r hr] at hnext
      rw [dir_r r hr, dir_r m (ht.next r hr m hnext).1]
      exact h.next_dir r hr m hnext
  · intro r hr p hp
    rcases mem_insert.mp hr with rfl | hr
    · rw [prev_n] at hp
      rw [dir_n, origin_n]
      exact .inr hp
    · rw [prev_r r hr] at hp
      rw [dir_r r hr, dir_r p (ht.prev_mem hr hp), origin_r r hr]
      exact h.above r hr p hp
  · intro r hr q hq
    rcases mem_insert.mp hr with rfl | hr
    · rw [dir_n, origin_n] at hq
      obtain ⟨hqm, hsnap⟩ := horigin q hq
      rw [next_r q hqm, created_r q hqm]
      refine ⟨mem_insert_of_mem hqm, hsnap, ?_⟩
      rw [txg_n, hq, Option.elim_some]
    · rw [dir_r r hr, origin_r r hr] at hq
      obtain ⟨hqm, hsnap, hle⟩ := h.base r hr q hq
      rw [next_r q hqm, created_r q hqm, txg_r r hr]
      exact ⟨mem_insert_of_mem hqm, hsnap, hle⟩
  · intro r hr q hq hdir hrq
    rcases mem_insert.mp hr with rfl | hrm
    · rcases mem_insert.mp hq with rfl | hqm
      · exact absurd rfl hrq
      · rw [dir_n, dir_r q hqm] at hdir
        exact absurd hdir.symm (hdd q hqm)
    rw [dir_r r hrm] at hdir
    rcases mem_insert.mp hq with rfl | hqm
    · rw [dir_n] at hdir
      exact absurd hdir (hdd r hrm)
    · rw [dir_r q hqm] at hdir
      rw [Tree.Before, Tree.Before, next_r r hrm, next_r q hqm, created_r r hrm,
        created_r q hqm, txg_r r hrm, txg_r q hqm]
      exact h.window r hrm q hqm hdir hrq

omit ht in
omit ho in
theorem destroyHead (ho : t.IsHead o) (hs : sp.SameDirs sp') : Dirs (t.destroyHead o) sp' := by
  have hmem : ∀ r ∈ t.objs.erase o, r ∈ t.objs := fun r hr => mem_of_mem_erase hr
  cases sp'
  obtain ⟨rfl, -, rfl⟩ := hs
  refine ⟨fun r hr => h.next_dir r (hmem r hr), fun r hr => h.above r (hmem r hr), ?_,
    fun r hr q hq => h.window r (hmem r hr) q (hmem q hq)⟩
  intro r hr q hq
  obtain ⟨hqm, hsnap, hle⟩ := h.base r (hmem r hr) q hq
  exact ⟨mem_erase.mpr ⟨Tree.ne_head hsnap ho.2, hqm⟩, hsnap, hle⟩

theorem destroySnap (hn : t.nextSnapObj o = some n) (hc : t.numChildren o ≤ 1)
    (hs : sp.SameDirs sp') : Dirs (t.destroySnap o n) sp' := by
  obtain ⟨hnm, hp, -, -, -, -⟩ := ht.next_links ho hn
  have hdir := h.next_dir o ho n hn
  obtain ⟨hmem, prev_n, prev_r, txg_n, txg_r⟩ := t.destroyed (o := o) (n := n)
  have before_mono : ∀ r q, q ≠ n → t.Before r q → (t.destroySnap o n).Before r q := by
    rintro r q hqn ⟨hsnap, hle⟩
    exact ⟨Tree.relink_ne_none.mpr hsnap, by rwa [txg_r q hqn]⟩
  -- what was older than the next dataset is the destroyed snapshot or older than it
  have before_n : ∀ r ∈ t.objs, r ≠ o → sp.dirObj r = sp.dirObj n → t.Before r n →
      (t.destroySnap o n).Before r n := by
    intro r hr hro hrd hbefore
    rcases (h.before_iff ht hnm hp hdir.symm hr hrd).mp hbefore with rfl | ⟨hsnap, hle⟩
    · exact absurd rfl hro
    · exact ⟨Tree.relink_ne_none.mpr hsnap, by rwa [txg_n]⟩
  refine ⟨?_, ?_, ?_, ?_⟩
  · rw [hs.dirObj]
    intro r hr m hnext
    obtain ⟨hrm, hro⟩ := hmem r hr
    rcases Tree.relink_cases hnext with ⟨hcond, rfl⟩ | ⟨-, hnext⟩
    · exact hdir.trans (h.next_dir r hrm o hcond.2)
    · exact h.next_dir r hrm m hnext
  · rw [hs.dirObj, hs.originObj]
    intro r hr p hp'
    rcases eq_or_ne r n with rfl | hrn
    · rw [prev_n] at hp'
      rw [hdir]
      exact h.above o ho p hp'
    · rw [prev_r r hrn] at hp'
      exact h.above r (hmem r hr).1 p hp'
  · rw [hs.dirObj, hs.originObj]
    intro r hr q hq
    have hrm := (hmem r hr).1
    obtain ⟨hqm, hsnap, hle⟩ := h.base r hrm q hq
    refine ⟨mem_erase.mpr ⟨?_, hqm⟩, Tree.relink_ne_none.mpr hsnap, ?_⟩
    · -- a directory cloned from the snapshot would hold a second child of it
      rintro rfl
      obtain ⟨f, hf, hfd, hfp⟩ := h.exists_first ht hrm hq
      cases ht.only_child ho hn hc f hf hfp
      exact h.origin_outside ht hrm hq (hdir.symm.trans hfd)
    · rcases eq_or_ne r n with rfl | hrn
      · rw [txg_n]
        exact (h.base o ho q (hdir ▸ hq)).2.2
      · rwa [txg_r r hrn]
  · rw [hs.dirObj]
    intro r hr q hq hdir' hrq
    obtain ⟨hrm, hro⟩ := hmem r hr
    obtain ⟨hqm, hqo⟩ := hmem q hq
    rcases h.window r hrm q hqm hdir' hrq with hbefore | hbefore
    · refine .inl ?_
      rcases eq_or_ne q n with rfl | hqn
      · exact before_n r hrm hro hdir' hbefore
      · exact before_mono r q hqn hbefore
    · refine .inr ?_
      rcases eq_or_ne r n with rfl | hrn
      · exact before_n q hqm hqo hdir'.symm hbefore
      · exact before_mono q r hrn hbefore

theorem mem_promoted (hsnap : t.nextSnapObj o ≠ none) (hreal : t.originSnap ≠ some o) :
    (∀ x, x ∈ (snapList t (t.txg + 1) none (some o)).1 ↔
      x ∈ t.objs ∧ sp.dirObj x = sp.dirObj o ∧ (x = o ∨ t.Before x o)) ∧
    (snapList t (t.txg + 1) none (some o)).1.Nodup := by
  refine h.mem_snapList ht ho hsnap ?_ hreal nofun
  exact Nat.lt_succ_of_le (ht.snap o ho hsnap).2.1

end

/-- A promotion: the datasets `snaps` of the origin's directory up to the origin go to the clone's
    directory, and the two directories exchange their origins. -/
structure Moves (t : Tree) (sp sp' : Space) (hds origin : ℕ) (snaps : List ℕ) : Prop where
  origin_mem : origin ∈ t.objs
  snap : t.nextSnapObj origin ≠ none
  clone : sp.originObj (sp.dirObj hds) = some origin
  mem : ∀ x, x ∈ snaps ↔
    x ∈ t.objs ∧ sp.dirObj x = sp.dirObj origin ∧ (x = origin ∨ t.Before x origin)
  dir_in : ∀ r ∈ snaps, sp'.dirObj r = sp.dirObj hds
  dir_out : ∀ r, r ∉ snaps → sp'.dirObj r = sp.dirObj r
  origin_odd : sp'.originObj (sp.dirObj origin) = some origin
  origin_dd : sp'.originObj (sp.dirObj hds) = sp.originObj (sp.dirObj origin)
  origin_r : ∀ d, d ≠ sp.dirObj origin → d ≠ sp.dirObj hds → sp'.originObj d = sp.originObj d

variable {hds origin : ℕ} {snaps : List ℕ}

theorem promote_moves (hm : hds ∈ t.objs) (hclone : sp.originObj (sp.dirObj hds) = some origin)
    (hreal : t.originSnap ≠ some origin) :
    Moves t sp (Space.promote t sp hds origin n) hds origin
      (snapList t (t.txg + 1) none (some origin)).1 := by
  obtain ⟨hom, hos, -⟩ := h.base hds hm origin hclone
  have hdd := h.origin_outside ht hm hclone
  refine ⟨hom, hos, hclone, (h.mem_promoted ht hom hos hreal).1, fun r hr => if_pos hr,
    fun r hr => if_neg hr, update_self .., ?_, ?_⟩
  · show update (update _ _ _) _ _ _ = _
    rw [update_of_ne hdd.symm, update_self]
  · intro d h1 h2
    show update (update _ _ _) _ _ _ = _
    rw [update_of_ne h1, update_of_ne h2]

section

variable (hv : Moves t sp sp' hds origin snaps) (hr : r ∈ t.objs)

include hv

omit h ht in
theorem Moves.not_mem (hne : sp.dirObj r ≠ sp.dirObj origin) : r ∉ snaps :=
  fun hr => hne ((hv.mem r).mp hr).2.1

/-- The previous snapshot of a moved one in the same directory moves with it. -/
theorem prev_moved (hr : r ∈ snaps) (hp : t.prevSnapObj r = some p)
    (hdir : sp.dirObj p = sp.dirObj origin) : p ∈ snaps := by
  obtain ⟨hrm, -, hrest⟩ := (hv.mem r).mp hr
  have hpm := ht.prev_mem hrm hp
  refine (hv.mem p).mpr ⟨hpm, hdir, ?_⟩
  rcases hrest with rfl | hbefore
  · exact .inr ((h.before_iff ht hv.origin_mem hp hdir hpm hdir).mpr (.inl rfl))
  · obtain ⟨hps, htxg⟩ := ht.prev r hrm p hp
    have := (ht.snap r hrm hbefore.1).1
    have := hbefore.2
    exact .inr ⟨hps, by omega⟩

include hr

omit ht in
/-- What stays behind begins after the origin. -/
theorem stays (hout : r ∉ snaps) (hdir : sp.dirObj r = sp.dirObj origin) : t.Before origin r := by
  have hro : r ≠ origin := by
    rintro rfl
    exact hout ((hv.mem r).mpr ⟨hr, rfl, .inl rfl⟩)
  exact (h.window r hr origin hv.origin_mem hdir hro).resolve_left
    fun hb => hout ((hv.mem r).mpr ⟨hr, hdir, .inr hb⟩)

theorem next_moved (hro : r ≠ origin) (hnext : t.nextSnapObj r = some n) :
    sp'.dirObj n = sp'.dirObj r := by
  obtain ⟨hnm, hnp⟩ := ht.next r hr n hnext
  have hdir := h.next_dir r hr n hnext
  by_cases hnin : n ∈ snaps
  · have hrin := h.prev_moved ht hv hnin hnp (hdir.symm.trans ((hv.mem n).mp hnin).2.1)
    rw [hv.dir_in r hrin, hv.dir_in n hnin]
  have hrout : r ∉ snaps := by
    intro hrin
    obtain ⟨-, hrd, hrest⟩ := (hv.mem r).mp hrin
    have := (ht.snap origin hv.origin_mem hv.snap).1
    have := (h.stays hv hnm hnin (hdir.trans hrd)).2
    have := (ht.prev n hnm r hnp).2
    have := (hrest.resolve_left hro).2
    omega
  rw [hv.dir_out r hrout, hv.dir_out n hnin, hdir]

theorem above_moved (hp : t.prevSnapObj r = some p) :
    sp'.dirObj p = sp'.dirObj r ∨ sp'.originObj (sp'.dirObj r) = some p := by
  have habove := h.above r hr p hp
  by_cases hrin : r ∈ snaps
  · have hrd := ((hv.mem r).mp hrin).2.1
    rw [hv.dir_in r hrin, hv.origin_dd]
    rw [hrd] at habove
    exact habove.imp_left fun hdir => hv.dir_in p (h.prev_moved ht hv hrin hp hdir)
  rw [hv.dir_out r hrin]
  by_cases hodd : sp.dirObj r = sp.dirObj origin
  · have hlt := (ht.snap origin hv.origin_mem hv.snap).1
    have hbefore := (h.stays hv hr hrin hodd).2
    have htxg := (ht.prev r hr p hp).2
    rw [hodd, hv.origin_odd]
    rcases habove with hdir | horg
    · by_cases hpin : p ∈ snaps
      · obtain ⟨-, -, rfl | hb⟩ := (hv.mem p).mp hpin
        · exact .inr rfl
        · have := hb.2
          omega
      · exact .inl ((hv.dir_out p hpin).trans (hdir.trans hodd))
    · have := (h.base origin hv.origin_mem p (hodd ▸ horg)).2.2
      omega
  have hout : sp.dirObj p = sp.dirObj r → sp'.dirObj p = sp.dirObj r :=
    fun hdir => (hv.dir_out p (hv.not_mem (hdir ▸ hodd))).trans hdir
  by_cases hhds : sp.dirObj r = sp.dirObj hds
  · refine .inl (habove.elim hout fun horg => ?_)
    obtain rfl : origin = p := Option.some.inj (hv.clone.symm.trans (hhds ▸ horg))
    rw [hv.dir_in origin ((hv.mem origin).mpr ⟨hv.origin_mem, rfl, .inl rfl⟩), hhds]
  · rw [hv.origin_r _ hodd hhds]
    exact habove.imp_left hout

theorem base_moved (hq : sp'.originObj (sp'.dirObj r) = some q) :
    q ∈ t.objs ∧ t.nextSnapObj q ≠ none ∧ t.creationTxg q ≤ t.prevSnapTxg r := by
  by_cases hrin : r ∈ snaps
  · rw [hv.dir_in r hrin, hv.origin_dd] at hq
    exact h.base r hr q (((hv.mem r).mp hrin).2.1.symm ▸ hq)
  rw [hv.dir_out r hrin] at hq
  by_cases hodd : sp.dirObj r = sp.dirObj origin
  · rw [hodd, hv.origin_odd] at hq
    cases hq
    exact ⟨hv.origin_mem, hv.snap, (h.stays hv hr hrin hodd).2⟩
  by_cases hhds : sp.dirObj r = sp.dirObj hds
  · rw [hhds, hv.origin_dd] at hq
    obtain ⟨hqm, hqs, hle⟩ := h.base origin hv.origin_mem q hq
    have := (h.base r hr origin (hhds.symm ▸ hv.clone)).2.2
    have := (ht.snap origin hv.origin_mem hv.snap).1
    exact ⟨hqm, hqs, by omega⟩
  · rw [hv.origin_r _ hodd hhds] at hq
    exact h.base r hr q hq

theorem window_moved (hq : q ∈ t.objs) (hdir : sp'.dirObj r = sp'.dirObj q) (hrq : r ≠ q) :
    t.Before r q ∨ t.Before q r := by
  -- a moved snapshot is not newer than the origin, after which the clone's datasets begin
  have across : ∀ r ∈ snaps, ∀ q ∈ t.objs, sp.dirObj q = sp.dirObj hds → t.Before r q := by
    intro r hr q hq hdir
    have hle := (h.base q hq origin (hdir.symm ▸ hv.clone)).2.2
    have hlt := (ht.snap origin hv.origin_mem hv.snap).1
    obtain ⟨-, -, rfl | ⟨hs, hle'⟩⟩ := (hv.mem r).mp hr
    · exact ⟨hv.snap, hle⟩
    · exact ⟨hs, by omega⟩
  by_cases hrin : r ∈ snaps
  · by_cases hqin : q ∈ snaps
    · exact h.window r hr q hq (((hv.mem r).mp hrin).2.1.trans ((hv.mem q).mp hqin).2.1.symm) hrq
    · rw [hv.dir_in r hrin, hv.dir_out q hqin] at hdir
      exact .inl (across r hrin q hq hdir.symm)
  · rw [hv.dir_out r hrin] at hdir
    by_cases hqin : q ∈ snaps
    · rw [hv.dir_in q hqin] at hdir
      exact .inr (across q hqin r hr hdir)
    · rw [hv.dir_out q hqin] at hdir
      exact h.window r hr q hq hdir hrq

end

theorem promote (hm : hds ∈ t.objs) (hclone : sp.originObj (sp.dirObj hds) = some origin)
    (hreal : t.originSnap ≠ some origin) (hnew : newNext t origin (t.txg + 1) hds = some n) :
    Dirs (t.promote origin n) (Space.promote t sp hds origin n) := by
  have hv := h.promote_moves ht (n := n) hm hclone hreal
  have hnd := h.newNext_dir ht hm hclone hnew
  have next_o : (t.promote origin n).nextSnapObj origin = some n := update_self ..
  have next_r : ∀ r, r ≠ origin → (t.promote origin n).nextSnapObj r = t.nextSnapObj r :=
    fun r hr => update_of_ne hr _ _
  have hsnap : ∀ r, (t.promote origin n).nextSnapObj r ≠ none ↔ t.nextSnapObj r ≠ none := by
    intro r
    rcases eq_or_ne r origin with rfl | hro
    · rw [next_o]
      exact iff_of_true (Option.some_ne_none n) hv.snap
    · rw [next_r r hro]
  refine ⟨?_, fun r hr p hp => h.above_moved ht hv hr hp, ?_, ?_⟩
  · intro r hr m hnext
    rcases eq_or_ne r origin with rfl | hro
    · cases next_o.symm.trans hnext
      have hout := hv.not_mem (r := n) fun h' => h.origin_outside ht hm hclone (h'.symm.trans hnd)
      rw [hv.dir_in r ((hv.mem r).mpr ⟨hv.origin_mem, rfl, .inl rfl⟩), hv.dir_out n hout, hnd]
    · exact h.next_moved ht hv hr hro ((next_r r hro).symm.trans hnext)
  · intro r hr q hq
    rw [hsnap]
    exact h.base_moved ht hv hr hq
  · intro r hr q hq hdir hrq
    refine (h.window_moved ht hv hr hq hdir hrq).imp ?_ ?_
    · exact And.imp_left (hsnap r).mpr
    · exact And.imp_left (hsnap q).mpr

end Facts

end Dirs

end Sirius.Dsl
