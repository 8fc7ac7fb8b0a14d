import Mathlib.Algebra.BigOperators.Group.Finset.Piecewise
import Mathlib.Algebra.Order.BigOperators.Group.Finset
import Sirius.Lib.Ledger
import Sirius.Zfs.DslDirs

/-! # Space accounting of datasets and directories

    `Books` says what the numbers of a pool are: `ds_used_bytes` is the size of what a dataset
    references, `ds_unique_bytes` of what would be freed with it, and a directory is charged for
    each of its datasets the larger of what the dataset bore and its refreservation.  Every
    operation keeps the books, with its own formula, as long as the clone of a
    `dsl_dataset_clone_swap_sync` has no refreservation of its own. -/

namespace Sirius.Dsl

open Function Sirius.Lib Finset Option

variable {t : Tree} {sp sp' : Space} {o n p q r dd : ℕ} {b bp : Blkptr} {A B : Finset Blkptr}

/-! ## Sizes of sets of blocks -/

def size (B : Finset Blkptr) : ℤ := bytes B.val

theorem size_eq_sum : size B = ∑ b ∈ B, (b.dasize : ℤ) := rfl

theorem size_nonneg : 0 ≤ size B := sum_nonneg fun b _ => Int.natCast_nonneg b.dasize

@[simp] theorem size_empty : size ∅ = 0 := rfl

theorem size_insert (hb : b ∉ B) : size (insert b B) = size B + b.dasize := by
  rw [size_eq_sum, sum_insert hb, size_eq_sum, add_comm]

theorem size_erase (hb : b ∈ B) : size (B.erase b) = size B - b.dasize := by
  rw [eq_sub_iff_add_eq, ← size_insert (notMem_erase b B), insert_erase hb]

theorem size_sdiff_add_inter : size (A \ B) + size (A ∩ B) = size A := by
  rw [add_comm]
  exact sum_inter_add_sum_sdiff A B _

theorem size_union (h : Disjoint A B) : size (A ∪ B) = size A + size B := sum_union h

theorem own_sdiff_blocks : t.own o \ t.blocks o = ∅ :=
  sdiff_eq_empty_iff_subset.mpr (filter_subset _ _)

def cost (t : Tree) (sp : Space) (o : ℕ) : ℤ := max (size (t.own o)) (sp.reserved o)

structure Books (t : Tree) (sp : Space) : Prop where
  used : ∀ o ∈ t.objs, sp.usedBytes o = size (t.blocks o)
  unique_head : ∀ o ∈ t.objs, t.nextSnapObj o = none → sp.uniqueBytes o = size (t.own o)
  unique_snap : ∀ o ∈ t.objs, ∀ n, t.nextSnapObj o = some n →
    sp.uniqueBytes o = size (t.own o \ t.blocks n)
  reserved : ∀ o ∈ t.objs, t.nextSnapObj o ≠ none → sp.reserved o = 0
  charged : ∀ X, sp.charged X = total t.objs sp.dirObj (cost t sp) X

theorem charged_diduse {X : ℕ} {used : ℤ} :
    (dslDirDiduseSpace sp dd used).charged X = sp.charged X + if dd = X then used else 0 := by
  show update sp.charged dd (sp.charged dd + used) X = _
  rcases eq_or_ne X dd with rfl | hne
  · rw [update_self, if_pos rfl]
  · rw [update_of_ne hne, if_neg hne.symm, add_zero]

theorem size_add_deadlist (h : t.Inv) (ho : o ∈ t.objs) :
    size (t.blocks o) + bytes (t.deadlist o) = size (t.own o) + size (t.before o) := by
  have h1 : size (t.blocks o \ t.before o) + size (t.blocks o ∩ t.before o) = size (t.blocks o) :=
    size_sdiff_add_inter
  have h2 : size (t.before o \ t.blocks o) + size (t.before o ∩ t.blocks o) = size (t.before o) :=
    size_sdiff_add_inter
  rw [inter_comm] at h2
  rw [h.own_eq ho, h.dead o ho]
  show _ + size (t.before o \ t.blocks o) = _
  omega

theorem cost_unreserved (hres : sp.reserved o = 0) : cost t sp o = size (t.own o) := by
  rw [cost, hres]
  exact max_eq_left size_nonneg

/-- `parent_delta` is the change of what the directory is charged for the dataset. -/
theorem parentDelta_eq {delta : ℤ} (hu : sp.uniqueBytes o = size (t.own o))
    (hnew : 0 ≤ size (t.own o) + delta) :
    parentDelta sp o delta = max (size (t.own o) + delta) (sp.reserved o) - cost t sp o := by
  have hold : 0 ≤ size (t.own o) := size_nonneg
  rw [parentDelta, cost, hu]
  split
  case isTrue hz =>
    omega
  case isFalse => rfl

theorem recalc_eq (ht : t.Inv) (hused : ∀ o ∈ t.objs, sp.usedBytes o = size (t.blocks o))
    (ho : o ∈ t.objs) : dslDatasetRecalcHeadUniq t sp o = size (t.own o) := by
  have hbefore : (t.prevSnapObj o).elim 0 sp.usedBytes = size (t.before o) := by
    cases hp : t.prevSnapObj o with
    | none =>
      rw [Tree.before_of_root hp]
      rfl
    | some p =>
      rw [Tree.before_of_prev hp]
      exact hused p (ht.prev_mem ho hp)
  have := size_add_deadlist ht ho
  rw [dslDatasetRecalcHeadUniq, hused o ho]
  omega

theorem bytes_deadlist_own (ht : t.Inv) (ho : o ∈ t.objs) (hp : t.prevSnapObj o = some p) :
    bytes ((t.deadlist o).filter fun b => t.prevSnapTxg p < b.birth) =
      size (t.own p \ t.blocks o) := by
  rw [ht.dead o ho, Tree.before_of_prev hp]
  show size ((t.blocks p \ t.blocks o).filter fun b => t.prevSnapTxg p < b.birth) = _
  congr 1
  ext b
  rw [mem_filter, mem_sdiff, mem_sdiff, Tree.mem_own]
  exact and_right_comm

namespace Books

section Facts

variable (h : Books t sp) (ht : t.Inv)

include h ht

/-- `dsl_dataset_unique` returns `ds_unique_bytes`, recalculated or not. -/
theorem unique_eq (ho : o ∈ t.objs) : dslDatasetUnique t sp o = sp.uniqueBytes o := by
  rw [dslDatasetUnique]
  split
  case isTrue hcond => rw [recalc_eq ht h.used ho, h.unique_head o ho hcond.2]
  case isFalse => rfl

/-! ## The blocks of a head change -/

omit ht in
/-- A head takes other blocks.  Its own numbers and those of the snapshot before it follow, and
    the directory is charged for the difference. -/
theorem replaceHead (ho : t.IsHead o) {t' : Tree} (links : t.SameLinks t')
    (hblocks : t'.blocks = update t.blocks o B) (dirs : sp.SameDirs sp')
    (hreserved : sp'.reserved = sp.reserved)
    (hused : sp'.usedBytes = update sp.usedBytes o (size B))
    (hunique : sp'.uniqueBytes o = size (t'.own o))
    (hsnap : ∀ p ∈ t.objs, t.nextSnapObj p = some o → sp'.uniqueBytes p = size (t.own p \ B))
    (hother : ∀ q ∈ t.objs, q ≠ o → t.nextSnapObj q ≠ some o → sp'.uniqueBytes q = sp.uniqueBytes q)
    (hcharged : ∀ X, sp'.charged X = sp.charged X +
      if sp.dirObj o = X then cost t' sp' o - cost t sp o else 0) : Books t' sp' := by
  obtain ⟨hm, hhead⟩ := ho
  have own_r : ∀ r, r ≠ o → t'.own r = t.own r := by
    intro r hro
    rw [Tree.own, Tree.own, hblocks, links.txg, update_of_ne hro]
  refine ⟨?_, ?_, ?_, ?_, ?_⟩
  · intro r hr
    rw [links.objs] at hr
    rw [hused, hblocks]
    rcases eq_or_ne r o with rfl | hro
    · rw [update_self, update_self]
    · rw [update_of_ne hro, update_of_ne hro]
      exact h.used r hr
  · intro r hr hnext
    rw [links.objs] at hr
    rw [links.next] at hnext
    rcases eq_or_ne r o with rfl | hro
    · exact hunique
    · rw [own_r r hro, hother r hr hro (hnext ▸ (some_ne_none o).symm)]
      exact h.unique_head r hr hnext
  · intro r hr m hnext
    rw [links.objs] at hr
    rw [links.next] at hnext
    have hro : r ≠ o := Tree.ne_head (hnext ▸ some_ne_none m) hhead
    rw [own_r r hro, hblocks]
    rcases eq_or_ne m o with rfl | hmo
    · rw [update_self]
      exact hsnap r hr hnext
    · rw [update_of_ne hmo, hother r hr hro fun heq => hmo (some.inj (hnext.symm.trans heq))]
      exact h.unique_snap r hr m hnext
  · rw [links.objs, links.next, hreserved]
    exact h.reserved
  · intro X
    rw [hcharged X, h.charged X, links.objs, dirs.dirObj]
    refine (total_change hm rfl fun q _ hqo => ⟨rfl, ?_⟩).symm
    rw [cost, cost, own_r q hqo, hreserved]

theorem blockBorn (ho : t.IsHead o) (hbirth : bp.birth = t.txg) (hlt : t.prevSnapTxg o < t.txg)
    (hnew : bp ∉ t.born) : Books (t.blockBorn o bp) (sp.blockBorn o bp) := by
  have hm := ho.1
  have hfresh : ∀ q ∈ t.objs, bp ∉ t.blocks q := fun q hq hb => hnew (ht.births q hq bp hb).2.2
  have hown : (t.blockBorn o bp).own o = insert bp (t.own o) := by
    show (update t.blocks o (insert bp (t.blocks o)) o).filter
      (fun b => t.prevSnapTxg o < b.birth) = insert bp (t.own o)
    rw [update_self, filter_insert, if_pos (by omega)]
    rfl
  have hsize : size ((t.blockBorn o bp).own o) = size (t.own o) + bp.dasize := by
    rw [hown, size_insert fun hb => hfresh o hm (Tree.mem_own.mp hb).1]
  have hu := h.unique_head o hm ho.2
  refine h.replaceHead ho (B := insert bp (t.blocks o)) ⟨rfl, rfl, rfl, rfl, rfl⟩ rfl .blockBorn
    rfl ?_ ?_ ?_ ?_ ?_
  · show update _ _ _ = _
    rw [size_insert (hfresh o hm), h.used o hm]
  · show update _ _ _ _ = _
    rw [update_self, hu, hsize]
  · intro p hp hnext
    have hpo : p ≠ o := Tree.ne_head (hnext ▸ some_ne_none o) ho.2
    have hout : bp ∉ t.own p := fun hb => hfresh p hp (Tree.mem_own.mp hb).1
    show update _ _ _ _ = _
    rw [update_of_ne hpo, sdiff_insert_of_notMem hout]
    exact h.unique_snap p hp o hnext
  · intro q _ hqo _
    exact update_of_ne hqo _ _
  · intro X
    have hsum := hsize ▸ size_nonneg (B := (t.blockBorn o bp).own o)
    rw [Space.blockBorn, charged_diduse, parentDelta_eq hu hsum, ← hsize]
    rfl

theorem blockKill (ho : t.IsHead o) (hb : bp ∈ t.blocks o) :
    Books (t.blockKill o bp) (Space.blockKill t sp o bp) := by
  have hm := ho.1
  have hu := h.unique_head o hm ho.2
  have hblocks : (t.blockKill o bp).blocks = update t.blocks o ((t.blocks o).erase bp) := by
    rw [Tree.blockKill]
    split <;> rfl
  have hown : (t.blockKill o bp).own o = (t.own o).erase bp := by
    rw [Tree.own, hblocks, Tree.SameLinks.blockKill.txg, update_self, filter_erase]
    rfl
  have hused : (Space.blockKill t sp o bp).usedBytes =
      update sp.usedBytes o (size ((t.blocks o).erase bp)) := by
    rw [size_erase hb, ← h.used o hm]
    rfl
  have hreserved : (Space.blockKill t sp o bp).reserved = sp.reserved := by
    rw [Space.blockKill]
    split <;> rfl
  have hsnapo : ∀ p, t.nextSnapObj p = some o → p ≠ o :=
    fun p hnext => Tree.ne_head (hnext ▸ some_ne_none o) ho.2
  have hcost : cost (t.blockKill o bp) (Space.blockKill t sp o bp) o =
      max (size ((t.own o).erase bp)) (sp.reserved o) := by
    rw [cost, hown, hreserved]
  rcases lt_or_ge (t.prevSnapTxg o) bp.birth with hlt | hle
  · -- freed: it was the head's own and nobody else's
    have hin : bp ∈ t.own o := Tree.mem_own.mpr ⟨hb, hlt⟩
    have hspace : Space.blockKill t sp o bp = { dslDirDiduseSpace
            { sp with uniqueBytes := update sp.uniqueBytes o (sp.uniqueBytes o - bp.dasize) }
            (sp.dirObj o) (parentDelta sp o (-bp.dasize)) with
          usedBytes := update sp.usedBytes o (sp.usedBytes o - bp.dasize) } := by
      rw [Space.blockKill, if_pos hlt]
    have hunique : (Space.blockKill t sp o bp).uniqueBytes =
        update sp.uniqueBytes o (sp.uniqueBytes o - bp.dasize) := by
      rw [hspace]
      rfl
    refine h.replaceHead ho .blockKill hblocks .blockKill hreserved hused ?_ ?_ ?_ ?_
    · rw [hunique, update_self, hown, size_erase hin, hu]
    · intro p hp hnext
      have hout : bp ∉ t.own p := fun hbp =>
        ht.lineage.leaf_alone (ht.leaf ho.2) hm hb hlt hp (hsnapo p hnext) (Tree.mem_own.mp hbp).1
      rw [hunique, update_of_ne (hsnapo p hnext), sdiff_erase_of_notMem hout]
      exact h.unique_snap p hp o hnext
    · intro q _ hqo _
      rw [hunique, update_of_ne hqo]
    intro X
    have hsum : 0 ≤ size (t.own o) + -(bp.dasize : ℤ) := by
      have := size_nonneg (B := (t.own o).erase bp)
      rw [size_erase hin] at this
      omega
    rw [hcost, size_erase hin, hspace]
    rw [charged_diduse, parentDelta_eq hu hsum]
    rfl
  · -- kept by the previous snapshot
    have hout : bp ∉ t.own o := fun hbo => by
      have := (Tree.mem_own.mp hbo).2
      omega
    have hunique : (Space.blockKill t sp o bp).uniqueBytes = fun p =>
        if t.prevSnapObj o = some p ∧ t.nextSnapObj p = some o ∧ t.prevSnapTxg p < bp.birth then
          sp.uniqueBytes p + bp.dasize
        else sp.uniqueBytes p := by
      rw [Space.blockKill, if_neg (not_lt.mpr hle)]
    have hcharged : (Space.blockKill t sp o bp).charged = sp.charged := by
      rw [Space.blockKill, if_neg (not_lt.mpr hle)]
    refine h.replaceHead ho .blockKill hblocks .blockKill hreserved hused ?_ ?_ ?_ ?_
    · rw [hunique, hown, erase_eq_of_notMem hout, ← hu]
      exact if_neg fun hcond => hsnapo o hcond.2.1 rfl
    · intro p hp hnext
      have hprev := (ht.next p hp o hnext).2
      obtain ⟨p', hp', hbp⟩ := ht.lineage.inherit o hm bp hb hle
      cases hprev.symm.trans hp'
      rw [hunique]
      dsimp only
      by_cases hlt : t.prevSnapTxg p < bp.birth
      · have hin : bp ∈ t.own p := Tree.mem_own.mpr ⟨hbp, hlt⟩
        have hnot : bp ∉ t.own p \ t.blocks o := fun hbo => (mem_sdiff.mp hbo).2 hb
        rw [if_pos ⟨hprev, hnext, hlt⟩, sdiff_erase hin, size_insert hnot,
          h.unique_snap p hp o hnext]
      · have hnot : bp ∉ t.own p := fun hbo => hlt (Tree.mem_own.mp hbo).2
        rw [if_neg fun hcond => hlt hcond.2.2, h.unique_snap p hp o hnext,
          sdiff_erase_of_notMem hnot]
    · intro q _ _ hnext
      rw [hunique]
      exact if_neg fun hcond => hnext hcond.2.1
    · intro X
      rw [hcost, hcharged, erase_eq_of_notMem hout]
      split
      · exact (add_eq_left.mpr (sub_self _)).symm
      · exact (add_zero _).symm

theorem rollback (ho : t.IsHead o) : Books (t.rollback o) (Space.rollback t sp o) := by
  set sp' := Space.rollback t sp o with hsp
  have hm := ho.1
  have hu := h.unique_head o hm ho.2
  have hto := ht.rollbackTo_blocks (o := o)
  have hown : (t.rollback o).own o = ∅ := by
    show (update t.blocks o _ o).filter (fun b => t.prevSnapTxg o < b.birth) = ∅
    rw [update_self, hto, filter_eq_empty_iff]
    intro b hb
    exact not_lt.mpr (ht.birth_le_of_before hm hb)
  have hreserved : sp'.reserved = sp.reserved := by
    rw [hsp, Space.rollback]
    split <;> rfl
  have hblocks : (t.rollback o).blocks = update t.blocks o (t.before o) := by
    rw [← hto]
    rfl
  have hsnapo : ∀ p, t.nextSnapObj p = some o → p ≠ o :=
    fun p hnext => Tree.ne_head (hnext ▸ some_ne_none o) ho.2
  -- both ends of the rollback: the previous snapshot, or nothing
  obtain ⟨hused, hunique, hsnap, hother⟩ :
      sp'.usedBytes = update sp.usedBytes o (size (t.before o)) ∧ sp'.uniqueBytes o = 0 ∧
      (∀ p ∈ t.objs, t.nextSnapObj p = some o → sp'.uniqueBytes p = 0) ∧
      ∀ q, q ≠ o → t.nextSnapObj q ≠ some o → sp'.uniqueBytes q = sp.uniqueBytes q := by
    rw [hsp, Space.rollback]
    cases hr : t.rollbackTo o with
    | some p =>
      obtain ⟨hp, -⟩ := filter_eq_some_iff.mp hr
      have hpo := ht.lineage.prev_ne hm hp
      rw [Tree.before_of_prev hp, ← h.used p (ht.prev_mem hm hp)]
      dsimp only
      refine ⟨rfl, ?_, fun p' hp'm hnext => ?_, fun q hqo hnext => ?_⟩
      · split_ifs
        · rw [update_of_ne hpo.symm, update_self]
        · exact update_self ..
      · cases hp.symm.trans (ht.next p' hp'm o hnext).2
        rw [if_pos hnext, update_self]
      split_ifs with hpnext
      · have hqp : q ≠ p := by
          rintro rfl
          exact hnext hpnext
        rw [update_of_ne hqp, update_of_ne hqo]
        rfl
      · exact update_of_ne hqo ..
    | none =>
      rw [hr, elim_none] at hto
      refine ⟨hto ▸ rfl, update_self .., fun p hpm hnext => ?_, fun q hqo _ => update_of_ne hqo ..⟩
      -- only the pool's origin snapshot is passed over, and it is empty
      have hempty : t.own p = ∅ := by
        have := Tree.before_of_prev (ht.next p hpm o hnext).2
        rw [Tree.own, ← this, ← hto, filter_empty]
      refine (update_of_ne (hsnapo p hnext) ..).trans ?_
      exact (h.unique_snap p hpm o hnext).trans (by rw [hempty, empty_sdiff, size_empty])
  refine h.replaceHead ho ⟨rfl, rfl, rfl, rfl, rfl⟩ hblocks .rollback hreserved hused ?_ ?_
    (fun q _ => hother q) fun X => ?_
  · rw [hunique, hown, size_empty]
  · intro p hpm hnext
    rw [hsnap p hpm hnext, Tree.before_of_prev (ht.next p hpm o hnext).2, own_sdiff_blocks,
      size_empty]
  have hsum : 0 ≤ size (t.own o) + -size (t.own o) := (add_neg_cancel _).ge
  have hdelta := parentDelta_eq hu hsum
  have hcost : cost (t.rollback o) sp' o = sp.reserved o := by
    rw [cost, hown, hreserved]
    exact max_eq_right (Int.natCast_nonneg _)
  rw [add_neg_cancel, max_eq_right (Int.natCast_nonneg _)] at hdelta
  rw [hcost, ← hdelta, hsp, Space.rollback]
  split <;> exact charged_diduse

theorem setReservation {new : ℕ} (ho : t.IsHead o) : Books t (Space.setReservation t sp o new) := by
  set sp' := Space.setReservation t sp o new with hsp
  obtain ⟨hm, hhead⟩ := ho
  have hu := h.unique_head o hm hhead
  have huniq := h.unique_eq ht hm
  have hunique : sp'.uniqueBytes = sp.uniqueBytes := by
    show update _ _ _ = _
    rw [huniq, update_eq_self]
  have reserved_r : ∀ r, r ≠ o → sp'.reserved r = sp.reserved r :=
    fun r hro => update_of_ne hro _ _
  have reserved_o : sp'.reserved o = new := update_self ..
  refine ⟨h.used, hunique ▸ h.unique_head, hunique ▸ h.unique_snap, ?_, ?_⟩
  · intro r hr hsnap
    rw [reserved_r r (Tree.ne_head hsnap hhead)]
    exact h.reserved r hr hsnap
  intro X
  have hsum : total t.objs sp.dirObj (cost t sp') X =
      total t.objs sp.dirObj (cost t sp) X + if sp.dirObj o = X then
        cost t sp' o - cost t sp o else 0 :=
    total_change hm rfl fun q _ hqo => ⟨rfl, by rw [cost, cost, reserved_r q hqo]⟩
  show _ = total t.objs sp.dirObj (cost t sp') X
  rw [hsum, ← h.charged X, cost, cost, reserved_o, hsp, Space.setReservation, charged_diduse, huniq]
  congr 2
  omega

theorem dropReservation (ho : o ∈ t.objs) : Books t (Space.dropReservation t sp o) ∧
    (Space.dropReservation t sp o).reserved o = 0 := by
  rw [Space.dropReservation]
  split
  case isTrue hz => exact ⟨h, hz⟩
  case isFalse hz =>
    have hhead : t.nextSnapObj o = none := by
      by_contra hsnap
      exact hz (h.reserved o ho hsnap)
    exact ⟨h.setReservation ht ⟨ho, hhead⟩, update_self ..⟩

/-- `dsl_dataset_snapshot_sync`: what the head bore is charged for the snapshot now, and the head's
    refreservation is unused again. -/
theorem snapshot (ho : t.IsHead o) (hn : n ∉ t.objs) :
    Books (t.snapshot o n) (Space.snapshot t sp o n) := by
  set t' := t.snapshot o n
  set sp' := Space.snapshot t sp o n with hsp
  obtain ⟨hm, hhead⟩ := ho
  have hu := h.unique_head o hm hhead
  have hne := Tree.ne_new hn
  obtain ⟨-, -, -, txg_n, txg_o, txg_r, next_n, next_r, -, -, blocks_n, blocks_r⟩ :=
    Tree.snapshotted hn hm
  have own_n : t'.own n = t.own o := by rw [Tree.own, blocks_n, txg_n, Tree.own]
  have own_o : t'.own o = ∅ := by
    rw [Tree.own, blocks_r o hm, txg_o, filter_eq_empty_iff]
    intro b hb
    exact not_lt.mpr (ht.births o hm b hb).2.1
  have own_r : ∀ r ∈ t.objs, r ≠ o → t'.own r = t.own r := by
    intro r hr hro
    rw [Tree.own, blocks_r r hr, txg_r r hr hro, Tree.own]
  have unique_o : sp'.uniqueBytes o = 0 := update_self ..
  have unique_n : sp'.uniqueBytes n = 0 :=
    (update_of_ne (hne o hm).symm ..).trans (update_self ..)
  have unique_r : ∀ r ∈ t.objs, r ≠ o → sp'.uniqueBytes r = sp.uniqueBytes r :=
    fun r hr hro => (update_of_ne hro ..).trans (update_of_ne (hne r hr) ..)
  have reserved_n : sp'.reserved n = 0 := update_self ..
  have reserved_r : ∀ r ∈ t.objs, sp'.reserved r = sp.reserved r :=
    fun r hr => update_of_ne (hne r hr) _ _
  refine ⟨?_, ?_, ?_, ?_, ?_⟩
  · intro r hr
    rcases mem_insert.mp hr with rfl | hr
    · rw [blocks_n, ← h.used o hm]
      exact update_self ..
    · rw [blocks_r r hr, ← h.used r hr]
      exact update_of_ne (hne r hr) _ _
  · intro r hr hnext
    rcases mem_insert.mp hr with rfl | hrm
    · cases next_n.symm.trans hnext
    rcases eq_or_ne r o with rfl | hro
    · rw [unique_o, own_o, size_empty]
    have hhead' : t.nextSnapObj r = none := by
      by_contra hsnap
      exact Tree.relink_ne_none.mpr hsnap ((next_r r hrm).symm.trans hnext)
    rw [unique_r r hrm hro, own_r r hrm hro]
    exact h.unique_head r hrm hhead'
  · intro r hr m hnext
    rcases mem_insert.mp hr with rfl | hrm
    · cases next_n.symm.trans hnext
      rw [unique_n, own_n, blocks_r o hm, own_sdiff_blocks, size_empty]
    rw [next_r r hrm] at hnext
    rcases Tree.relink_cases hnext with ⟨hcond, rfl⟩ | ⟨-, hnext⟩
    · -- the snapshot before: the same blocks follow under the new object
      have hro := ht.lineage.prev_ne hm hcond.1
      rw [unique_r r hrm hro, own_r r hrm hro, blocks_n]
      exact h.unique_snap r hrm o hcond.2
    · have hro : r ≠ o := Tree.ne_head (hnext ▸ some_ne_none m) hhead
      rw [unique_r r hrm hro, own_r r hrm hro, blocks_r m (ht.next r hrm m hnext).1]
      exact h.unique_snap r hrm m hnext
  · intro r hr hsnap
    rcases mem_insert.mp hr with rfl | hrm
    · exact reserved_n
    · rw [reserved_r r hrm]
      exact h.reserved r hrm (Tree.relink_ne_none.mp (next_r r hrm ▸ hsnap))
  · intro X
    have hadd : sp'.charged X = sp.charged X +
        if sp.dirObj o = X then min (size (t.own o)) (sp.reserved o) else 0 := by
      have hmin : (if sp.reserved o = 0 then 0 else min (size (t.own o)) (sp.reserved o)) =
          min (size (t.own o)) (sp.reserved o) := by
        split
        case isTrue hz => rw [hz, Nat.cast_zero, min_eq_right size_nonneg]
        case isFalse => rfl
      rw [hsp, Space.snapshot, charged_diduse, h.unique_eq ht hm, hu, hmin]
    have hcost_n : cost t' sp' n = size (t.own o) := by
      rw [cost_unreserved reserved_n, own_n]
    have hcost_o : cost t' sp' o = sp.reserved o := by
      rw [cost, own_o, reserved_r o hm]
      exact max_eq_right (Int.natCast_nonneg _)
    have hrest : total t.objs sp'.dirObj (cost t' sp') X =
        total t.objs sp.dirObj (cost t sp) X + if sp.dirObj o = X then
          cost t' sp' o - cost t sp o else 0 :=
      total_change hm (update_of_ne (hne o hm) _ _) fun q hq hqo =>
        ⟨update_of_ne (hne q hq) _ _, by rw [cost, cost, own_r q hq hqo, reserved_r q hq]⟩
    have hdir : sp'.dirObj n = sp.dirObj o := update_self ..
    show _ = total (insert n t.objs) _ _ X
    rw [total_insert hn, hrest, hadd, h.charged X, hcost_o, cost]
    split_ifs <;> omega

theorem create {parent origin : Option ℕ} (hn : n ∉ t.objs) (hdd : ∀ o ∈ t.objs, sp.dirObj o ≠ dd)
    (horigin : ∀ p, origin = some p → p ∈ t.objs ∧ t.nextSnapObj p ≠ none) :
    Books (t.create n origin) (sp.create n dd parent origin) := by
  set t' := t.create n origin
  set sp' := sp.create n dd parent origin
  have hne := Tree.ne_new hn
  obtain ⟨hobjs, -, -, txg_n, txg_r, next_n, next_r, -, blocks_n, blocks_r, -⟩ :=
    Tree.created hn origin
  have own_n : t'.own n = ∅ := by
    rw [Tree.own, blocks_n, txg_n, filter_eq_empty_iff]
    intro b hb
    cases horg : origin with
    | none =>
      rw [horg] at hb
      exact absurd hb (notMem_empty b)
    | some p =>
      rw [horg] at hb
      obtain ⟨hpm, hsnap⟩ := horigin p horg
      exact not_lt.mpr ((ht.snap p hpm hsnap).2.2 b hb)
  have own_r : ∀ r ∈ t.objs, t'.own r = t.own r := by
    intro r hr
    rw [Tree.own, Tree.own, blocks_r r hr, txg_r r hr]
  have unique_r : ∀ r ∈ t.objs, sp'.uniqueBytes r = sp.uniqueBytes r :=
    fun r hr => update_of_ne (hne r hr) _ _
  have reserved_n : sp'.reserved n = 0 := update_self ..
  have reserved_r : ∀ r ∈ t.objs, sp'.reserved r = sp.reserved r :=
    fun r hr => update_of_ne (hne r hr) _ _
  refine ⟨?_, ?_, ?_, ?_, ?_⟩
  all_goals rw [hobjs]
  · intro r hr
    rcases mem_insert.mp hr with rfl | hr
    · rw [blocks_n]
      show update _ _ _ _ = _
      rw [update_self]
      cases horg : origin with
      | none => rfl
      | some p => exact h.used p (horigin p horg).1
    · rw [blocks_r r hr, ← h.used r hr]
      exact update_of_ne (hne r hr) _ _
  · intro r hr hnext
    rcases mem_insert.mp hr with rfl | hr
    · rw [own_n]
      exact update_self ..
    · rw [own_r r hr, unique_r r hr]
      exact h.unique_head r hr (next_r r hr ▸ hnext)
  · intro r hr m hnext
    rcases mem_insert.mp hr with rfl | hr
    · cases next_n.symm.trans hnext
    · rw [next_r r hr] at hnext
      rw [own_r r hr, unique_r r hr, blocks_r m (ht.next r hr m hnext).1]
      exact h.unique_snap r hr m hnext
  · intro r hr hsnap
    rcases mem_insert.mp hr with rfl | hr
    · exact absurd next_n hsnap
    · rw [reserved_r r hr]
      exact h.reserved r hr (next_r r hr ▸ hsnap)
  · intro X
    have hcost : cost t' sp' n = 0 := by
      rw [cost, own_n, reserved_n]
      rfl
    have hrest : total t.objs sp'.dirObj (cost t' sp') X = total t.objs sp.dirObj (cost t sp) X :=
      total_congr fun q hq => ⟨update_of_ne (hne q hq) _ _, by
        rw [cost, cost, own_r q hq, reserved_r q hq]⟩
    rw [total_insert hn, hcost, ite_self, add_zero, hrest, ← h.charged X]
    show update sp.charged dd 0 X = sp.charged X
    rcases eq_or_ne X dd with rfl | hX
    · -- nobody was in the new directory
      rw [update_self, h.charged X]
      exact (sum_eq_zero fun q hq => if_neg (hdd q hq)).symm
    · exact update_of_ne hX _ _

section CloneSwap

variable {cds ohds : ℕ} (hc : t.IsHead cds) (ho : t.IsHead ohds) (hne : cds ≠ ohds)
  (hpc : t.prevSnapObj cds = some p) (hpo : t.prevSnapObj ohds = some p)

include hc ho hne hpc hpo

omit h in
theorem own_cloneSwap : (t.cloneSwap cds ohds).own ohds = t.own cds ∧
    (t.cloneSwap cds ohds).own cds = t.own ohds ∧
    ∀ r, r ≠ cds → r ≠ ohds → (t.cloneSwap cds ohds).own r = t.own r := by
  have hsince : t.prevSnapTxg cds = t.prevSnapTxg ohds :=
    (ht.prev cds hc.1 p hpc).2.trans (ht.prev ohds ho.1 p hpo).2.symm
  obtain ⟨blocks_o, blocks_c, blocks_r⟩ := t.cloneSwap_blocks hne
  refine ⟨?_, ?_, fun r hrc hro => ?_⟩
  · rw [Tree.own, Tree.own, blocks_o, hsince]
    rfl
  · rw [Tree.own, Tree.own, blocks_c, ← hsince]
    rfl
  · rw [Tree.own, blocks_r r hrc hro]
    rfl

theorem charged_cloneSwap (hres : sp.reserved cds = 0) (X : ℕ) :
    (Space.cloneSwap t sp cds ohds p).charged X = total t.objs sp.dirObj
      (cost (t.cloneSwap cds ohds) (Space.cloneSwap t sp cds ohds p)) X := by
  set t' := t.cloneSwap cds ohds
  set sp' := Space.cloneSwap t sp cds ohds p with hsp
  obtain ⟨own_o, own_c, own_r⟩ := own_cloneSwap ht hc ho hne hpc hpo
  -- the two heads change one after the other
  have hone : total t.objs sp.dirObj (update (cost t sp) cds (size (t.own ohds))) X =
      total t.objs sp.dirObj (cost t sp) X + if sp.dirObj cds = X then
        update (cost t sp) cds (size (t.own ohds)) cds - cost t sp cds else 0 :=
    total_change hc.1 rfl fun q _ hqc => ⟨rfl, update_of_ne hqc _ _⟩
  have hcost_c : cost t' sp' cds = size (t.own ohds) := own_c ▸ cost_unreserved hres
  have hcost_o : cost t' sp' ohds = max (size (t.own cds)) (sp.reserved ohds) := by
    rw [cost, own_o]
    rfl
  have htwo : total t.objs sp.dirObj (cost t' sp') X =
      total t.objs sp.dirObj (update (cost t sp) cds (size (t.own ohds))) X +
        if sp.dirObj ohds = X then
          cost t' sp' ohds - update (cost t sp) cds (size (t.own ohds)) ohds else 0 := by
    refine total_change ho.1 rfl fun q _ hqo => ⟨rfl, ?_⟩
    rcases eq_or_ne q cds with rfl | hqc
    · rw [update_self, hcost_c]
    · rw [update_of_ne hqc, cost, own_r q hqc hqo]
      rfl
  have hsize_c := size_add_deadlist ht hc.1
  have hsize_o := size_add_deadlist ht ho.1
  rw [Tree.before_of_prev hpc] at hsize_c
  rw [Tree.before_of_prev hpo] at hsize_o
  rw [htwo, hone, ← h.charged X, hcost_o, update_self, update_of_ne hne.symm,
    cost_unreserved hres, cost, hsp, Space.cloneSwap, charged_diduse, charged_diduse,
    charged_diduse, h.used cds hc.1, h.used ohds ho.1, h.unique_head cds hc.1 hc.2,
    h.unique_head ohds ho.1 ho.2]
  show sp.charged X + _ + _ + _ = _
  split_ifs <;> omega

/-- `dsl_dataset_clone_swap_sync` of a clone without refreservation. -/
theorem cloneSwap (hnext : t.nextSnapObj p = some ohds) (hres : sp.reserved cds = 0) :
    Books (t.cloneSwap cds ohds) (Space.cloneSwap t sp cds ohds p) := by
  set t' := t.cloneSwap cds ohds
  set sp' := Space.cloneSwap t sp cds ohds p
  have snap_r : ∀ r, t.nextSnapObj r ≠ none → r ≠ cds ∧ r ≠ ohds :=
    fun r hsnap => ⟨Tree.ne_head hsnap hc.2, Tree.ne_head hsnap ho.2⟩
  obtain ⟨hpcds, hpohds⟩ := snap_r p (hnext ▸ some_ne_none ohds)
  obtain ⟨blocks_o, blocks_c, blocks_r⟩ := t.cloneSwap_blocks hne
  obtain ⟨own_o, own_c, own_r⟩ := own_cloneSwap ht hc ho hne hpc hpo
  have unique_o : sp'.uniqueBytes ohds = sp.uniqueBytes cds :=
    update_self ..
  have unique_c : sp'.uniqueBytes cds = sp.uniqueBytes ohds := by
    show update (update (update _ _ _) _ _) _ _ _ = _
    rw [update_of_ne hne, update_self]
  have unique_p : sp'.uniqueBytes p = size (t.own p \ t.blocks cds) := by
    show update (update (update _ _ _) _ _) _ _ _ = _
    rw [update_of_ne hpohds, update_of_ne hpcds, update_self]
    exact bytes_deadlist_own ht hc.1 hpc
  have unique_r : ∀ r, r ≠ cds → r ≠ ohds → r ≠ p → sp'.uniqueBytes r = sp.uniqueBytes r := by
    intro r hrc hro hrp
    show update (update (update _ _ _) _ _) _ _ _ = _
    rw [update_of_ne hro, update_of_ne hrc, update_of_ne hrp]
  refine ⟨?_, ?_, ?_, h.reserved, h.charged_cloneSwap ht hc ho hne hpc hpo hres⟩
  · intro r hr
    show update (update sp.usedBytes cds (sp.usedBytes ohds)) ohds (sp.usedBytes cds) r = _
    rcases eq_or_ne r ohds with rfl | hro
    · rw [update_self, blocks_o, h.used cds hc.1]
    rw [update_of_ne hro]
    rcases eq_or_ne r cds with rfl | hrc
    · rw [update_self, blocks_c, h.used ohds ho.1]
    · rw [update_of_ne hrc, blocks_r r hrc hro]
      exact h.used r hr
  · intro r hr hhead
    rcases eq_or_ne r ohds with rfl | hro
    · rw [unique_o, own_o, h.unique_head cds hc.1 hc.2]
    rcases eq_or_ne r cds with rfl | hrc
    · rw [unique_c, own_c, h.unique_head ohds ho.1 ho.2]
    have hrp : r ≠ p := by
      rintro rfl
      cases hhead.symm.trans hnext
    rw [unique_r r hrc hro hrp, own_r r hrc hro]
    exact h.unique_head r hr hhead
  · intro r hr m hm
    obtain ⟨hrc, hro⟩ := snap_r r (by
      rw [show t.nextSnapObj r = some m from hm]
      exact some_ne_none m)
    rw [own_r r hrc hro]
    rcases eq_or_ne r p with rfl | hrp
    · cases hnext.symm.trans hm
      rw [unique_p, blocks_o]
    have hprev := (ht.next r hr m hm).2
    have hmo : m ≠ ohds := by
      rintro rfl
      exact hrp (some.inj (hprev.symm.trans hpo))
    have hmc : m ≠ cds := by
      rintro rfl
      exact hrp (some.inj (hprev.symm.trans hpc))
    rw [unique_r r hrc hro hrp, blocks_r m hmc hmo]
    exact h.unique_snap r hr m hm

end CloneSwap

omit ht in
theorem destroyHead (ho : t.IsHead o) (hres : sp.reserved o = 0) :
    Books (t.destroyHead o) (Space.destroyHead t sp o) := by
  have hmem : ∀ r ∈ t.objs.erase o, r ∈ t.objs := fun r hr => mem_of_mem_erase hr
  refine ⟨fun r hr => h.used r (hmem r hr), fun r hr => h.unique_head r (hmem r hr),
    fun r hr => h.unique_snap r (hmem r hr), fun r hr => h.reserved r (hmem r hr), fun X => ?_⟩
  have hcost := cost_unreserved (t := t) hres
  show _ = total (t.objs.erase o) sp.dirObj (cost t sp) X
  rw [total_erase ho.1, Space.destroyHead, charged_diduse, h.charged X]
  show _ + (if sp.dirObj o = X then -size (t.own o) else 0) = _
  split_ifs <;> omega

section DestroySnap

variable (ho : o ∈ t.objs) (hn : t.nextSnapObj o = some n)

include ho hn

omit h in
theorem own_destroySnap : (t.destroySnap o n).own n = t.own n ∪ (t.own o ∩ t.blocks n) ∧
    Disjoint (t.own n) (t.own o ∩ t.blocks n) := by
  obtain ⟨hnm, -, -, hbefore, htxg, hlt⟩ := ht.next_links ho hn
  constructor
  · ext b
    show b ∈ (t.blocks n).filter (fun b => update t.prevSnapTxg n (t.prevSnapTxg o) n < b.birth) ↔ _
    rw [update_self, mem_filter, mem_union, mem_inter, Tree.mem_own, Tree.mem_own]
    constructor
    · rintro ⟨hb, hgt⟩
      rcases lt_or_ge (t.prevSnapTxg n) b.birth with hown | hle
      · exact .inl ⟨hb, hown⟩
      · exact .inr ⟨⟨hbefore ▸ ht.mem_before hnm hb hle, hgt⟩, hb⟩
    · rintro (⟨hb, hgt⟩ | ⟨⟨-, hgt⟩, hb⟩)
      · exact ⟨hb, by omega⟩
      · exact ⟨hb, hgt⟩
  · rw [disjoint_left]
    intro b hb hb'
    have hgt := (Tree.mem_own.mp hb).2
    have hin := (Tree.mem_own.mp (mem_inter.mp hb').1).1
    have hle := ht.birth_le_of_before hnm (hbefore.symm ▸ hin)
    omega

omit h in
theorem bytes_freed :
    bytes ((t.deadlist n).filter fun b => ¬b.birth ≤ t.prevSnapTxg o) =
      size (t.own o \ t.blocks n) := by
  obtain ⟨hnm, hp, -⟩ := ht.next_links ho hn
  rw [← bytes_deadlist_own ht hnm hp]
  congr 1
  exact Multiset.filter_congr fun b _ => not_le

omit h in
theorem own_sdiff_destroySnap (hprev : t.prevSnapObj o = some r) :
    size (t.own r \ t.blocks n) = size (t.own r \ t.blocks o) +
      bytes ((t.deadlist n).filter fun b => b.birth ≤ t.prevSnapTxg o ∧
        t.prevSnapTxg r < b.birth) := by
  obtain ⟨hnm, -, -, hbefore, htxg, hlt⟩ := ht.next_links ho hn
  have hbefore_o := Tree.before_of_prev hprev
  rw [ht.dead n hnm, hbefore]
  show _ = _ + size ((t.blocks o \ t.blocks n).filter fun b =>
    b.birth ≤ t.prevSnapTxg o ∧ t.prevSnapTxg r < b.birth)
  rw [← size_union]
  · congr 1
    ext b
    rw [mem_union, mem_filter, mem_sdiff, mem_sdiff, mem_sdiff, Tree.mem_own]
    constructor
    · rintro ⟨⟨hb, hgt⟩, hbn⟩
      have hle := ht.birth_le_of_before ho (hbefore_o.symm ▸ hb)
      by_cases hbo : b ∈ t.blocks o
      · exact .inr ⟨⟨hbo, hbn⟩, hle, hgt⟩
      · exact .inl ⟨⟨hb, hgt⟩, hbo⟩
    · rintro (⟨⟨hb, hgt⟩, hbo⟩ | ⟨⟨hbo, hbn⟩, hle, hgt⟩)
      · refine ⟨⟨hb, hgt⟩, fun hbn => hbo ?_⟩
        have hle := ht.birth_le_of_before ho (hbefore_o.symm ▸ hb)
        exact hbefore ▸ ht.mem_before hnm hbn (by omega)
      · exact ⟨⟨hbefore_o ▸ ht.mem_before ho hbo hle, hgt⟩, hbn⟩
  · rw [disjoint_left]
    intro b hb hb'
    exact (mem_sdiff.mp hb).2 (mem_sdiff.mp (mem_filter.mp hb').1).1

omit h in
theorem own_sdiff_next {a : ℕ} (ha : t.nextSnapObj n = some a) :
    size ((t.destroySnap o n).own n \ t.blocks a) = size (t.own n \ t.blocks a) +
      bytes ((t.deadlist a).filter fun b =>
        t.prevSnapTxg o < b.birth ∧ b.birth ≤ t.creationTxg o) := by
  obtain ⟨hnm, -, -, hbefore, htxg, -⟩ := ht.next_links ho hn
  obtain ⟨ham, -, -, hbefore_a, -⟩ := ht.next_links hnm ha
  obtain ⟨hown, -⟩ := own_destroySnap ht ho hn
  rw [ht.dead a ham, hbefore_a]
  show _ = _ + size ((t.blocks n \ t.blocks a).filter fun b =>
    t.prevSnapTxg o < b.birth ∧ b.birth ≤ t.creationTxg o)
  rw [hown, ← size_union]
  · congr 1
    ext b
    rw [mem_sdiff, mem_union, mem_inter, mem_union, mem_sdiff,
      mem_filter, mem_sdiff, Tree.mem_own, Tree.mem_own]
    constructor
    · rintro ⟨hb | ⟨⟨hbo, hgt⟩, hb⟩, hba⟩
      · exact .inl ⟨hb, hba⟩
      · exact .inr ⟨⟨hb, hba⟩, hgt, htxg ▸ ht.birth_le_of_before hnm (hbefore.symm ▸ hbo)⟩
    · rintro (⟨hb, hba⟩ | ⟨⟨hb, hba⟩, hgt, hle⟩)
      · exact ⟨.inl hb, hba⟩
      · exact ⟨.inr ⟨⟨hbefore ▸ ht.mem_before hnm hb (by omega), hgt⟩, hb⟩, hba⟩
  · rw [disjoint_left]
    intro b hb hb'
    have hgt := (Tree.mem_own.mp (mem_sdiff.mp hb).1).2
    have hle := (mem_filter.mp hb').2.2
    omega

theorem destroySnap_of (dirs : sp.SameDirs sp')
    (hreserved : sp'.reserved = sp.reserved) (hused : sp'.usedBytes = sp.usedBytes)
    (hprev : ∀ r, t.prevSnapObj o = some r → t.nextSnapObj r = some o → sp'.uniqueBytes r =
      sp.uniqueBytes r + bytes ((t.deadlist n).filter fun b =>
        b.birth ≤ t.prevSnapTxg o ∧ t.prevSnapTxg r < b.birth))
    (hother : ∀ r, r ≠ n → ¬(t.prevSnapObj o = some r ∧ t.nextSnapObj r = some o) →
      sp'.uniqueBytes r = sp.uniqueBytes r)
    (hhead : t.nextSnapObj n = none → sp'.uniqueBytes n = size ((t.destroySnap o n).own n))
    (hsnap : ∀ a, t.nextSnapObj n = some a →
      sp'.uniqueBytes n = size ((t.destroySnap o n).own n \ t.blocks a))
    (hdir : sp.dirObj n = sp.dirObj o)
    (hcharged : ∀ X, sp'.charged X = sp.charged X + if sp.dirObj o = X then
      max (size ((t.destroySnap o n).own n)) (sp.reserved n) - cost t sp n - size (t.own o)
      else 0) : Books (t.destroySnap o n) sp' := by
  set t' := t.destroySnap o n
  obtain ⟨hnm, hp, hno, -⟩ := ht.next_links ho hn
  obtain ⟨hmem, -, -, -, txg_r⟩ := t.destroyed (o := o) (n := n)
  have own_r : ∀ r, r ≠ n → t'.own r = t.own r := by
    intro r hrn
    rw [Tree.own, txg_r r hrn]
    rfl
  refine ⟨?_, ?_, ?_, ?_, ?_⟩
  · intro r hr
    rw [hused]
    exact h.used r (hmem r hr).1
  · intro r hr hnext
    have hold : t.nextSnapObj r = none := by
      by_contra hne
      exact Tree.relink_ne_none.mpr hne hnext
    rcases eq_or_ne r n with rfl | hrn
    · exact hhead hold
    · rw [own_r r hrn, hother r hrn fun hcond => by cases hold.symm.trans hcond.2]
      exact h.unique_head r (hmem r hr).1 hold
  · intro r hr m hnext
    obtain ⟨hrm, -⟩ := hmem r hr
    show sp'.uniqueBytes r = size (t'.own r \ t.blocks m)
    rcases Tree.relink_cases hnext with ⟨hcond, rfl⟩ | ⟨hcond, hold⟩
    · have hrn : r ≠ n := by
        rintro rfl
        exact ht.prev_ne_next ho hn hcond.1
      rw [own_r r hrn, own_sdiff_destroySnap ht ho hn hcond.1, hprev r hcond.1 hcond.2,
        h.unique_snap r hrm o hcond.2]
    · rcases eq_or_ne r n with rfl | hrn
      · exact hsnap m hold
      · rw [own_r r hrn, hother r hrn hcond]
        exact h.unique_snap r hrm m hold
  · intro r hr hne
    rw [hreserved]
    exact h.reserved r (hmem r hr).1 (Tree.relink_ne_none.mp hne)
  · intro X
    have hchange : total t.objs sp.dirObj (cost t' sp') X =
        total t.objs sp.dirObj (cost t sp) X + if sp.dirObj n = X then
          cost t' sp' n - cost t sp n else 0 :=
      total_change hnm rfl fun q _ hqn => ⟨rfl, by rw [cost, cost, own_r q hqn, hreserved]⟩
    have hcost_o : cost t' sp' o = size (t.own o) := by
      rw [cost_unreserved (hreserved ▸ h.reserved o ho (hn ▸ some_ne_none n)), own_r o hno.symm]
    rw [hcharged X, dirs.dirObj]
    show _ = total (t.objs.erase o) sp.dirObj _ X
    rw [total_erase ho, hchange, ← h.charged X]
    rw [show cost t' sp' n = max (size (t'.own n)) (sp.reserved n) by rw [cost, hreserved]]
    split_ifs <;> omega

theorem destroySnap (ht' : (t.destroySnap o n).Inv) (hdir : sp.dirObj n = sp.dirObj o) :
    Books (t.destroySnap o n) (Space.destroySnap t sp o n) := by
  set sp₁ := Space.uniqueToPrev t sp o n
  obtain ⟨hnm, hp, hno, -⟩ := ht.next_links ho hn
  obtain ⟨hown, hdisj⟩ := own_destroySnap ht ho hn
  have hfreed := bytes_freed ht ho hn
  have hsize : size ((t.destroySnap o n).own n) = size (t.own n) + size (t.own o ∩ t.blocks n) := by
    rw [hown, size_union hdisj]
  have hsplit : size (t.own o \ t.blocks n) + size (t.own o ∩ t.blocks n) = size (t.own o) :=
    size_sdiff_add_inter
  have hn_prev : ¬(t.prevSnapObj o = some n ∧ t.nextSnapObj n = some o) :=
    fun hcond => ht.prev_ne_next ho hn hcond.1
  -- only the next dataset's own number depends on what it is
  have hunique : ∀ {u : ℤ}, (Space.destroySnap t sp o n).uniqueBytes = update sp₁.uniqueBytes n u →
      (∀ r, t.prevSnapObj o = some r → t.nextSnapObj r = some o →
        (Space.destroySnap t sp o n).uniqueBytes r = sp.uniqueBytes r +
          bytes ((t.deadlist n).filter fun b =>
            b.birth ≤ t.prevSnapTxg o ∧ t.prevSnapTxg r < b.birth)) ∧
      ∀ r, r ≠ n → ¬(t.prevSnapObj o = some r ∧ t.nextSnapObj r = some o) →
        (Space.destroySnap t sp o n).uniqueBytes r = sp.uniqueBytes r := by
    intro u hu
    rw [hu]
    constructor
    · intro r hr hro
      have hrn : r ≠ n := by
        rintro rfl
        exact hn_prev ⟨hr, hro⟩
      rw [update_of_ne hrn]
      exact if_pos ⟨hr, hro⟩
    · intro r hrn hcond
      rw [update_of_ne hrn]
      exact if_neg hcond
  cases hnext : t.nextSnapObj n with
  | some a =>
    have hspace : Space.destroySnap t sp o n = dslDirDiduseSpace { Space.uniqueToPrev t sp o n with
          uniqueBytes := update sp₁.uniqueBytes n (sp.uniqueBytes n +
            bytes ((t.deadlist a).filter fun b =>
              t.prevSnapTxg o < b.birth ∧ b.birth ≤ t.creationTxg o)) }
        (sp.dirObj o) (-size (t.own o \ t.blocks n)) := by
      rw [Space.destroySnap, hnext, hfreed,
        show sp₁.uniqueBytes n = sp.uniqueBytes n from if_neg hn_prev]
    obtain ⟨hprev, hother⟩ := hunique (by rw [hspace]; rfl)
    refine h.destroySnap_of ht ho hn .destroySnap (by rw [hspace]; rfl) (by rw [hspace]; rfl)
      hprev hother ?_ ?_ hdir ?_
    · intro hnone
      cases hnext.symm.trans hnone
    · intro a' ha'
      cases hnext.symm.trans ha'
      rw [own_sdiff_next ht ho hn hnext, ← h.unique_snap n hnm a hnext, hspace]
      exact update_self ..
    · intro X
      have hres : sp.reserved n = 0 := h.reserved n hnm (hnext ▸ some_ne_none a)
      rw [hspace, charged_diduse, cost, hres, Nat.cast_zero, max_eq_left size_nonneg,
        max_eq_left size_nonneg]
      show sp.charged X + _ = _
      split_ifs <;> omega
  | none =>
    have hnew : dslDatasetRecalcHeadUniq (t.destroySnap o n) sp₁ n =
        size ((t.destroySnap o n).own n) :=
      recalc_eq ht' (fun r hr => h.used r (mem_of_mem_erase hr)) (mem_erase.mpr ⟨hno, hnm⟩)
    have hold : dslDatasetUnique t sp n = size (t.own n) :=
      (h.unique_eq ht hnm).trans (h.unique_head n hnm hnext)
    let sp' : Space :=
      { Space.uniqueToPrev t sp o n with
        uniqueBytes := update sp₁.uniqueBytes n
          (size ((t.destroySnap o n).own n))
        accurate := update sp₁.accurate n true }
    have hspace : Space.destroySnap t sp o n = dslDirDiduseSpace
        (if size (t.own n) < sp.reserved n then
          dslDirDiduseSpace sp' (sp.dirObj o) (-min (size ((t.destroySnap o n).own n) -
            size (t.own n)) (sp.reserved n - size (t.own n)))
        else sp')
        (sp.dirObj o) (-size (t.own o \ t.blocks n)) := by
      rw [Space.destroySnap, hnext, hfreed, hold, hnew]
    have hfields : (Space.destroySnap t sp o n).uniqueBytes = sp'.uniqueBytes ∧
        (Space.destroySnap t sp o n).reserved = sp.reserved ∧
        (Space.destroySnap t sp o n).usedBytes = sp.usedBytes := by
      rw [hspace]
      split <;> exact ⟨rfl, rfl, rfl⟩
    obtain ⟨hprev, hother⟩ := hunique hfields.1
    refine h.destroySnap_of ht ho hn .destroySnap hfields.2.1 hfields.2.2 hprev hother ?_ ?_ hdir ?_
    · intro _
      rw [hfields.1]
      exact update_self ..
    · intro a ha
      cases hnext.symm.trans ha
    · -- the refreservation of the head covers what it takes over
      intro X
      have hshared : 0 ≤ size (t.own o ∩ t.blocks n) := size_nonneg
      rw [hspace, charged_diduse, cost]
      by_cases hlt : size (t.own n) < sp.reserved n
      · rw [if_pos hlt, charged_diduse]
        show sp.charged X + _ + _ = _
        split_ifs <;> omega
      · rw [if_neg hlt]
        show sp.charged X + _ = _
        split_ifs <;> omega

end DestroySnap

/-- The comment in `dsl_dataset_promote_check`: "Each snapshot gave birth to: (my used) - (prev's
    used) + (deadlist's used)", and in the sum all but the two ends cancel. -/
theorem sum_snapList {fuel : ℕ} {last start : Option ℕ} (hstart : ∀ r, start = some r →
      r ∈ t.objs ∧ t.nextSnapObj r ≠ none ∧ t.creationTxg r < fuel) :
    ((snapList t fuel last start).1.map fun x => size (t.own x)).sum = start.elim 0 sp.usedBytes +
        ((snapList t fuel last start).1.map fun x =>
          if t.prevSnapObj x = none then 0 else bytes (t.deadlist x)).sum -
        (snapList t fuel last start).2.elim 0 sp.usedBytes := by
  induction fuel generalizing last start with
  | zero =>
    cases start with
    | none => rfl
    | some r => exact absurd (hstart r rfl).2.2 (Nat.not_lt_zero _)
  | succ fuel ih =>
    cases start with
    | none => rfl
    | some r =>
      obtain ⟨hr, hsnap, hfuel⟩ := hstart r rfl
      rw [snapList]
      split
      case isTrue horigin =>
        show (0 : ℤ) = sp.usedBytes r + 0 - 0
        rw [h.used r hr, (ht.origin r horigin).2.2]
        rfl
      case isFalse =>
        split
        case isTrue =>
          show (0 : ℤ) = sp.usedBytes r + 0 - sp.usedBytes r
          omega
        case isFalse =>
          have hrest := @ih (some r) (t.prevSnapObj r) fun p hp => by
            obtain ⟨hps, htxg⟩ := ht.prev r hr p hp
            have := (ht.snap r hr hsnap).1
            exact ⟨ht.prev_mem hr hp, hps, by omega⟩
          have hone : size (t.own r) + (t.prevSnapObj r).elim 0 sp.usedBytes = sp.usedBytes r +
                if t.prevSnapObj r = none then 0 else bytes (t.deadlist r) := by
            have hsize := size_add_deadlist ht hr
            cases hp : t.prevSnapObj r with
            | none =>
              rw [ht.dead r hr, Tree.before_of_root hp, empty_sdiff] at hsize
              rw [h.used r hr]
              exact hsize.symm
            | some p =>
              rw [Tree.before_of_prev hp] at hsize
              rw [h.used r hr, elim_some, h.used p (ht.prev_mem hr hp)]
              exact hsize.symm
          dsimp only
          rw [List.map_cons, List.sum_cons, List.map_cons, List.sum_cons, elim_some]
          omega

theorem promote {hds origin : ℕ} (hd : Dirs t sp) (hm : hds ∈ t.objs)
    (hclone : sp.originObj (sp.dirObj hds) = some origin) (hreal : t.originSnap ≠ some origin)
    (hnew : newNext t origin (t.txg + 1) hds = some n) :
    Books (t.promote origin n) (Space.promote t sp hds origin n) := by
  set sp' := Space.promote t sp hds origin n
  obtain ⟨hom, hos, -⟩ := hd.base hds hm origin hclone
  obtain ⟨hnm, hnp⟩ := newNext_spec ht hm hnew
  obtain ⟨hmem, hnodup⟩ := hd.mem_promoted ht hom hos hreal
  have hsum := @sum_snapList t sp h ht (t.txg + 1) none (some origin) fun r hr => by
    cases hr
    exact ⟨hom, hos, Nat.lt_succ_of_le (ht.snap origin hom hos).2.1⟩
  have hnext_r : ∀ r, r ≠ origin → (t.promote origin n).nextSnapObj r = t.nextSnapObj r :=
    fun r hr => update_of_ne hr _ _
  have hnext_o : (t.promote origin n).nextSnapObj origin = some n := update_self ..
  have unique_o : sp'.uniqueBytes origin = size (t.own origin \ t.blocks n) :=
    (update_self ..).trans (bytes_deadlist_own ht hnm hnp)
  have unique_r : ∀ r, r ≠ origin → sp'.uniqueBytes r = sp.uniqueBytes r :=
    fun r hr => update_of_ne hr _ _
  refine ⟨h.used, ?_, ?_, ?_, ?_⟩
  · intro r hr hhead
    have hro : r ≠ origin := by
      rintro rfl
      cases hnext_o.symm.trans hhead
    rw [unique_r r hro]
    exact h.unique_head r hr (hnext_r r hro ▸ hhead)
  · intro r hr m hnext
    rcases eq_or_ne r origin with rfl | hro
    · cases hnext_o.symm.trans hnext
      exact unique_o
    · rw [unique_r r hro]
      exact h.unique_snap r hr m (hnext_r r hro ▸ hnext)
  · intro r hr hsnap
    rcases eq_or_ne r origin with rfl | hro
    · exact h.reserved r hr hos
    · exact h.reserved r hr (hnext_r r hro ▸ hsnap)
  intro X
  let w := snapList t (t.txg + 1) none (some origin)
  have hsnap : ∀ x ∈ w.1, x ∈ t.objs ∧
      sp.dirObj x = sp.dirObj origin ∧ cost t sp x = size (t.own x) := by
    intro x hx
    obtain ⟨hxm, hxd, hrest⟩ := (hmem x).mp hx
    have hxs : t.nextSnapObj x ≠ none := by
      rcases hrest with rfl | hb
      · exact hos
      · exact hb.1
    refine ⟨hxm, hxd, ?_⟩
    rw [cost, h.reserved x hxm hxs]
    exact max_eq_left size_nonneg
  let used := promoteUsed t sp origin w.1 w.2
  have hgroup : ∑ x ∈ w.1.toFinset, cost t sp x = used := by
    rw [List.sum_toFinset _ hnodup]
    refine Eq.trans ?_ hsum
    exact congrArg List.sum (List.map_congr_left fun x hx => (hsnap x hx).2.2)
  have hdirs : sp'.dirObj = fun q =>
      if q ∈ w.1.toFinset then sp.dirObj hds
      else sp.dirObj q := by
    funext q
    show (if q ∈ w.1 then _ else _) = _
    simp only [List.mem_toFinset]
  have hcharged : sp'.charged X = sp.charged X +
      (if sp.dirObj origin = X then -used else 0) + if sp.dirObj hds = X then used else 0 := by
    show (dslDirDiduseSpace (dslDirDiduseSpace _ _ (-used)) _ used).charged X = _
    rw [charged_diduse, charged_diduse]
  show _ = total t.objs sp'.dirObj (cost t sp) X
  rw [hdirs,
    total_move (fun x hx => (hsnap x (List.mem_toFinset.mp hx)).1)
      fun x hx => (hsnap x (List.mem_toFinset.mp hx)).2.1,
    ← h.charged X]
  split_ifs <;> omega

end Facts

end Books

end Sirius.Dsl
