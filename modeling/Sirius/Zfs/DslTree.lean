import Sirius.Lib.Lineage
import Sirius.Zfs.DslDataset

/-! # Block lifetime: no block is freed early, twice or never

    `Tree.Inv` says what links, txgs and deadlists mean in terms of the blocks the datasets
    reference: the datasets form a `Lineage` by birth txg, a deadlist is exactly what the
    previous snapshot references and the dataset does not, and the blocks passed to `dsl_free`
    are exactly those born that no dataset references any more.  Every operation keeps it, so
    after every history a block has been freed if and only if its last reference is gone. -/

namespace Sirius.Dsl

open Function Sirius.Lib Finset Option

variable {t : Tree} {o n p q : ℕ} {b bp : Blkptr} {f : ℕ → Finset Blkptr}

theorem sdiff_erase_of_notMem {A B : Finset Blkptr} (h : b ∉ A) : A \ B.erase b = A \ B := by
  ext c
  rw [mem_sdiff, mem_sdiff, mem_erase]
  refine and_congr_right fun hc => not_congr (and_iff_right ?_)
  rintro rfl
  exact h hc

theorem forall_notMem_update {A : Finset ℕ} {B : Finset Blkptr}
    (ho : o ∈ A) : (∀ q ∈ A, b ∉ update f o B q) ↔ b ∉ B ∧ ∀ q ∈ A, q ≠ o → b ∉ f q := by
  constructor
  · intro h
    refine ⟨by simpa using h o ho, fun q hq hqo => ?_⟩
    simpa [hqo] using h q hq
  rintro ⟨hB, h⟩ q hq
  rcases eq_or_ne q o with rfl | hqo
  · rwa [update_self]
  · rw [update_of_ne hqo]
    exact h q hq hqo

namespace Tree

def before (t : Tree) (o : ℕ) : Finset Blkptr := (t.prevSnapObj o).elim ∅ t.blocks

structure Inv (t : Tree) : Prop where
  lineage : Lineage t.objs t.prevSnapObj t.prevSnapTxg Blkptr.birth t.blocks
  prev : ∀ o ∈ t.objs, ∀ p, t.prevSnapObj o = some p →
    t.nextSnapObj p ≠ none ∧ t.prevSnapTxg o = t.creationTxg p
  root : ∀ o ∈ t.objs, t.prevSnapObj o = none → t.prevSnapTxg o = 0
  snap : ∀ o ∈ t.objs, t.nextSnapObj o ≠ none →
    t.prevSnapTxg o < t.creationTxg o ∧ t.creationTxg o ≤ t.txg ∧
      ∀ b ∈ t.blocks o, b.birth ≤ t.creationTxg o
  births : ∀ o ∈ t.objs, ∀ b ∈ t.blocks o, 0 < b.birth ∧ b.birth ≤ t.txg ∧ b ∈ t.born
  dead : ∀ o ∈ t.objs, t.deadlist o = (t.before o \ t.blocks o).val
  next : ∀ o ∈ t.objs, ∀ n, t.nextSnapObj o = some n → n ∈ t.objs ∧ t.prevSnapObj n = some o
  children : ∀ o ∈ t.objs, t.numChildren o = (t.objs.filter fun q => t.prevSnapObj q = some o).card
  origin : ∀ p, t.originSnap = some p → p ∈ t.objs ∧ t.nextSnapObj p ≠ none ∧ t.blocks p = ∅
  hidden : ∀ p, t.originSnap = some p → ∀ m, t.nextSnapObj p = some m → t.nextSnapObj m = none
  freed_nodup : t.freed.Nodup
  freed_iff : ∀ b, b ∈ t.freed ↔ b ∈ t.born ∧ ∀ o ∈ t.objs, b ∉ t.blocks o

/-! ## What the invariant says about one dataset -/

theorem before_of_prev (h : t.prevSnapObj o = some p) : t.before o = t.blocks p := by
  rw [before, h, elim_some]

theorem before_of_root (h : t.prevSnapObj o = none) : t.before o = ∅ := by rw [before, h, elim_none]

theorem mem_own : b ∈ t.own o ↔ b ∈ t.blocks o ∧ t.prevSnapTxg o < b.birth := by
  rw [own, mem_filter]

theorem card_relabel {A B : Finset ℕ} (hn : n ∉ A) (ho : o ∉ B) (hnB : n ∈ B ↔ o ∈ A)
    (hrest : ∀ q, q ≠ o → q ≠ n → (q ∈ B ↔ q ∈ A)) : B.card = A.card := by
  by_cases hoA : o ∈ A
  · have hB : B = insert n (A.erase o) := by
      ext q
      rw [mem_insert, mem_erase]
      grind
    rw [hB, card_insert_of_notMem fun hmem => hn (mem_of_mem_erase hmem), card_erase_add_one hoA]
  · have hB : B = A := by
      ext q
      grind
    rw [hB]

theorem relink_ne_none : t.relink o n q ≠ none ↔ t.nextSnapObj q ≠ none := by
  rw [relink]
  split
  case isTrue hcond =>
    rw [hcond.2]
    exact ⟨fun _ => some_ne_none _, fun _ => some_ne_none _⟩
  case isFalse => rfl

theorem relink_cases {m : ℕ} (h : t.relink o n q = some m) :
    (t.prevSnapObj o = some q ∧ t.nextSnapObj q = some o) ∧ n = m ∨
      ¬(t.prevSnapObj o = some q ∧ t.nextSnapObj q = some o) ∧ t.nextSnapObj q = some m := by
  rw [relink] at h
  split at h
  case isTrue hcond => exact .inl ⟨hcond, some.inj h⟩
  case isFalse hcond => exact .inr ⟨hcond, h⟩

/-! ## The fields after a snapshot and with a new head -/

/-- The three kinds of dataset after a snapshot: the head, its new snapshot, and all others. -/
structure Snapshotted (t : Tree) (o n : ℕ) (t' : Tree) : Prop where
  prev_n : t'.prevSnapObj n = t.prevSnapObj o
  prev_o : t'.prevSnapObj o = some n
  prev_r : ∀ r ∈ t.objs, r ≠ o → t'.prevSnapObj r = t.prevSnapObj r
  txg_n : t'.prevSnapTxg n = t.prevSnapTxg o
  txg_o : t'.prevSnapTxg o = t.txg
  txg_r : ∀ r ∈ t.objs, r ≠ o → t'.prevSnapTxg r = t.prevSnapTxg r
  next_n : t'.nextSnapObj n = some o
  next_r : ∀ r ∈ t.objs, t'.nextSnapObj r = t.relink o n r
  created_n : t'.creationTxg n = t.txg
  created_r : ∀ r ∈ t.objs, t'.creationTxg r = t.creationTxg r
  blocks_n : t'.blocks n = t.blocks o
  blocks_r : ∀ r ∈ t.objs, t'.blocks r = t.blocks r

/-- When a snapshot is destroyed, the dataset after it takes over its predecessor. -/
structure Destroyed (t : Tree) (o n : ℕ) (t' : Tree) : Prop where
  mem : ∀ r ∈ t'.objs, r ∈ t.objs ∧ r ≠ o
  prev_n : t'.prevSnapObj n = t.prevSnapObj o
  prev_r : ∀ r, r ≠ n → t'.prevSnapObj r = t.prevSnapObj r
  txg_n : t'.prevSnapTxg n = t.prevSnapTxg o
  txg_r : ∀ r, r ≠ n → t'.prevSnapTxg r = t.prevSnapTxg r

theorem destroyed : t.Destroyed o n (t.destroySnap o n) :=
  ⟨fun _ hr => ⟨mem_of_mem_erase hr, ne_of_mem_erase hr⟩, update_self ..,
    fun _ hrn => update_of_ne hrn .., update_self .., fun _ hrn => update_of_ne hrn ..⟩

/-- A new head is empty or has the blocks of the snapshot it is cloned from. -/
structure Created (t : Tree) (n : ℕ) (origin : Option ℕ) (t' : Tree) : Prop where
  objs : t'.objs = insert n t.objs
  prev_n : t'.prevSnapObj n = origin
  prev_r : ∀ r ∈ t.objs, t'.prevSnapObj r = t.prevSnapObj r
  txg_n : t'.prevSnapTxg n = origin.elim 0 t.creationTxg
  txg_r : ∀ r ∈ t.objs, t'.prevSnapTxg r = t.prevSnapTxg r
  next_n : t'.nextSnapObj n = none
  next_r : ∀ r ∈ t.objs, t'.nextSnapObj r = t.nextSnapObj r
  created_r : ∀ r ∈ t.objs, t'.creationTxg r = t.creationTxg r
  blocks_n : t'.blocks n = origin.elim ∅ t.blocks
  blocks_r : ∀ r ∈ t.objs, t'.blocks r = t.blocks r
  dead_n : t'.deadlist n = 0
  dead_r : ∀ r ∈ t.objs, t'.deadlist r = t.deadlist r
  rest : t'.txg = t.txg ∧ t'.born = t.born ∧ t'.freed = t.freed ∧ t'.originSnap = t.originSnap

/-- `dsl_dataset_clone_swap_sync` exchanges the blocks of the two heads. -/
theorem cloneSwap_blocks {cds ohds : ℕ} (hne : cds ≠ ohds) :
    (t.cloneSwap cds ohds).blocks ohds = t.blocks cds ∧
    (t.cloneSwap cds ohds).blocks cds = t.blocks ohds ∧
    ∀ r, r ≠ cds → r ≠ ohds → (t.cloneSwap cds ohds).blocks r = t.blocks r :=
  ⟨update_self .., (update_of_ne hne ..).trans (update_self ..),
    fun _ hrc hro => (update_of_ne hro ..).trans (update_of_ne hrc ..)⟩

theorem ne_head (hsnap : t.nextSnapObj p ≠ none) (hhead : t.nextSnapObj o = none) : p ≠ o := by
  rintro rfl
  exact hsnap hhead

section

variable (hn : n ∉ t.objs)

include hn

theorem ne_new (r : ℕ) (hr : r ∈ t.objs) : r ≠ n := by
  rintro rfl
  exact hn hr

theorem snapshotted (ho : o ∈ t.objs) : t.Snapshotted o n (t.snapshot o n) := by
  have hne := ne_new hn
  have hno : n ≠ o := (hne o ho).symm
  exact
    { prev_n := (update_of_ne hno ..).trans (update_self ..)
      prev_o := update_self ..
      prev_r := fun r hr hro => (update_of_ne hro ..).trans (update_of_ne (hne r hr) ..)
      txg_n := (update_of_ne hno ..).trans (update_self ..)
      txg_o := update_self ..
      txg_r := fun r hr hro => (update_of_ne hro ..).trans (update_of_ne (hne r hr) ..)
      next_n := update_self ..
      next_r := fun r hr => update_of_ne (hne r hr) ..
      created_n := update_self ..
      created_r := fun r hr => update_of_ne (hne r hr) ..
      blocks_n := update_self ..
      blocks_r := fun r hr => update_of_ne (hne r hr) .. }

theorem created (origin : Option ℕ) : t.Created n origin (t.create n origin) := by
  have hne := ne_new hn
  constructor
  case objs => cases origin <;> rfl
  case rest => cases origin <;> exact ⟨rfl, rfl, rfl, rfl⟩
  case prev_n | txg_n | next_n | blocks_n | dead_n => cases origin <;> exact update_self ..
  all_goals
    intro r hr
    cases origin <;> exact update_of_ne (hne r hr) ..

end

namespace Inv

section

variable (h : t.Inv)

include h

theorem leaf (ho : t.nextSnapObj o = none) : Leaf t.objs t.prevSnapObj o := by
  intro q hq hp
  exact (h.prev q hq o hp).1 ho

section

variable (ho : o ∈ t.objs)

include ho

theorem prev_mem (hp : t.prevSnapObj o = some p) : p ∈ t.objs := h.lineage.prev_mem o ho p hp

/-- The blocks of the previous snapshot are no younger than the dataset's `ds_prev_snap_txg`. -/
theorem birth_le_of_before (hb : b ∈ t.before o) : b.birth ≤ t.prevSnapTxg o := by
  cases hp : t.prevSnapObj o with
  | none =>
    rw [before_of_root hp] at hb
    exact absurd hb (notMem_empty b)
  | some p =>
    rw [before_of_prev hp] at hb
    obtain ⟨hnext, htxg⟩ := h.prev o ho p hp
    rw [htxg]
    exact (h.snap p (h.prev_mem ho hp) hnext).2.2 b hb

theorem mem_before (hb : b ∈ t.blocks o) (hle : b.birth ≤ t.prevSnapTxg o) : b ∈ t.before o := by
  obtain ⟨p, hp, hbp⟩ := h.lineage.inherit o ho b hb hle
  rwa [before_of_prev hp]

/-- **HEADLINE**: the comparison with `ds_prev_snap_txg` tells exactly the blocks that the
    previous snapshot does not reference. -/
theorem own_eq : t.own o = t.blocks o \ t.before o := by
  ext b
  rw [mem_own, mem_sdiff]
  constructor
  · rintro ⟨hb, hlt⟩
    refine ⟨hb, fun hbefore => ?_⟩
    have := h.birth_le_of_before ho hbefore
    omega
  · rintro ⟨hb, hbefore⟩
    refine ⟨hb, ?_⟩
    by_contra hle
    exact hbefore (h.mem_before ho hb (by omega))

theorem mem_deadlist : b ∈ t.deadlist o ↔ b ∈ t.before o ∧ b ∉ t.blocks o := by
  rw [h.dead o ho, mem_val, mem_sdiff]

theorem not_freed (hb : b ∈ t.blocks o) : b ∉ t.freed := by
  intro hf
  exact ((h.freed_iff b).mp hf).2 o ho hb

/-- A snapshot with at most one child has `ds_next_snap_obj` as its only one. -/
theorem only_child (hn : t.nextSnapObj o = some n)
    (hc : t.numChildren o ≤ 1) : ∀ q ∈ t.objs, t.prevSnapObj q = some o → q = n := by
  intro q hq hp
  obtain ⟨hnm, hnp⟩ := h.next o ho n hn
  rw [h.children o ho] at hc
  exact card_le_one.mp hc q (mem_filter.mpr ⟨hq, hp⟩) n (mem_filter.mpr ⟨hnm, hnp⟩)

end

/-! ## The blocks of a head change -/

theorem before_congr (hq : q ∈ t.objs)
    (hf : ∀ p ∈ t.objs, t.nextSnapObj p ≠ none → f p = t.blocks p) :
    (t.prevSnapObj q).elim ∅ f = t.before q := by
  rw [before]
  cases hp : t.prevSnapObj q with
  | none => rfl
  | some p => exact hf p (h.prev_mem hq hp) (h.prev q hq p hp).1

theorem before_update (ho : t.nextSnapObj o = none) (hq : q ∈ t.objs) (B : Finset Blkptr) :
    (t.prevSnapObj q).elim ∅ (update t.blocks o B) = t.before q :=
  h.before_congr hq fun _ _ hsnap => update_of_ne (ne_head hsnap ho) ..

theorem held_congr {A : Finset ℕ} (hheld : ∀ b, (∃ r ∈ A, b ∈ f r) ↔ ∃ r ∈ t.objs, b ∈ t.blocks r) :
    (∀ r ∈ A, ∀ b ∈ f r, 0 < b.birth ∧ b.birth ≤ t.txg ∧ b ∈ t.born) ∧
      ∀ b, b ∈ t.freed ↔ b ∈ t.born ∧ ∀ r ∈ A, b ∉ f r := by
  refine ⟨fun r hr b hb => ?_, fun b => ?_⟩
  · obtain ⟨q, hq, hbq⟩ := (hheld b).mp ⟨r, hr, hb⟩
    exact h.births q hq b hbq
  · have hnone := not_congr (hheld b)
    push Not at hnone
    exact (h.freed_iff b).trans (and_congr_right fun _ => hnone.symm)

theorem snap_update (ho : t.nextSnapObj o = none) (B : Finset Blkptr) :
    ∀ q ∈ t.objs, t.nextSnapObj q ≠ none →
      t.prevSnapTxg q < t.creationTxg q ∧ t.creationTxg q ≤ t.txg ∧
        ∀ b ∈ update t.blocks o B q, b.birth ≤ t.creationTxg q := by
  intro q hq hnext
  rw [update_of_ne (ne_head hnext ho)]
  exact h.snap q hq hnext

theorem origin_update (ho : t.nextSnapObj o = none) (B : Finset Blkptr) :
    ∀ p, t.originSnap = some p →
      p ∈ t.objs ∧ t.nextSnapObj p ≠ none ∧ update t.blocks o B p = ∅ := by
  intro p hp
  obtain ⟨hm, hnext, hempty⟩ := h.origin p hp
  exact ⟨hm, hnext, by rwa [update_of_ne (ne_head hnext ho)]⟩

section

variable (ho : t.IsHead o)

include ho

theorem blockBorn (hbirth : bp.birth = t.txg)
    (hlt : t.prevSnapTxg o < t.txg) (hnew : bp ∉ t.born) : (t.blockBorn o bp).Inv := by
  obtain ⟨hm, hhead⟩ := ho
  have hfresh : ∀ q ∈ t.objs, bp ∉ t.blocks q := fun q hq hb => hnew (h.births q hq bp hb).2.2
  have hmem : ∀ q, ∀ b ∈ update t.blocks o (insert bp (t.blocks o)) q, b ∈ t.blocks q ∨ b = bp := by
    intro q b hb
    rcases eq_or_ne q o with rfl | hqo
    · rw [update_self] at hb
      exact (mem_insert.mp hb).symm
    · rw [update_of_ne hqo] at hb
      exact .inl hb
  refine { h with
      lineage := h.lineage.insert_item hm hfresh (hbirth ▸ hlt)
      snap := h.snap_update hhead _
      births := ?_
      dead := ?_
      origin := h.origin_update hhead _
      freed_iff := ?_ }
  · intro q hq b hb
    rcases hmem q b hb with hb | rfl
    · obtain ⟨h1, h2, h3⟩ := h.births q hq b hb
      exact ⟨h1, h2, mem_insert_of_mem h3⟩
    · refine ⟨?_, le_of_eq hbirth, mem_insert_self ..⟩
      rw [hbirth]
      exact Nat.zero_lt_of_lt hlt
  · intro q hq
    show t.deadlist q =
      ((t.prevSnapObj q).elim ∅ (update t.blocks o (insert bp (t.blocks o))) \ _).val
    rw [h.before_update hhead hq, h.dead q hq]
    congr 1
    show _ = t.before q \ update t.blocks o (insert bp (t.blocks o)) q
    rcases eq_or_ne q o with rfl | hqo
    · -- the previous snapshot cannot reference the new block
      have hbefore : bp ∉ t.before q := by
        intro hb
        have := h.birth_le_of_before hq hb
        omega
      rw [update_self, sdiff_insert_of_notMem hbefore]
    · rw [update_of_ne hqo]
  · intro b
    show b ∈ t.freed ↔ b ∈ insert bp t.born ∧ _
    refine (h.freed_iff b).trans (Iff.trans ?_ (and_congr_right fun _ =>
      (forall_notMem_update hm).symm))
    rw [mem_insert, mem_insert, not_or]
    constructor
    · rintro ⟨hb, hun⟩
      exact ⟨.inr hb, ⟨fun heq => hnew (heq ▸ hb), hun o hm⟩, fun q hq _ => hun q hq⟩
    rintro ⟨hb, ⟨hne, hbo⟩, hun⟩
    refine ⟨hb.resolve_left hne, fun q hq => ?_⟩
    rcases eq_or_ne q o with rfl | hqo
    · exact hbo
    · exact hun q hq hqo

/-- The blocks `F` of its own time that a head drops for good are freed with the head's blocks
    cut to `B`; what else the head drops some other dataset still references. -/
theorem freed_replace {B F : Finset Blkptr} (hF : F ⊆ t.own o)
    (hB : ∀ b ∈ B, b ∉ F ∧ ∃ q ∈ t.objs, b ∈ t.blocks q)
    (hlost : ∀ b ∈ t.blocks o, b ∉ B → b ∈ F ∨ ∃ q ∈ t.objs, q ≠ o ∧ b ∈ t.blocks q) :
    (t.freed + F.val).Nodup ∧
      ∀ b, b ∈ t.freed + F.val ↔ b ∈ t.born ∧ ∀ q ∈ t.objs, b ∉ update t.blocks o B q := by
  obtain ⟨hm, hhead⟩ := ho
  have hown : ∀ b ∈ F, b ∈ t.blocks o ∧ t.prevSnapTxg o < b.birth := fun b hb => mem_own.mp (hF hb)
  constructor
  · refine Multiset.nodup_add.mpr ⟨h.freed_nodup, F.nodup, ?_⟩
    rw [Multiset.disjoint_left]
    intro b hf hb
    exact h.not_freed hm (hown b hb).1 hf
  intro b
  rw [Multiset.mem_add, h.freed_iff b, forall_notMem_update hm]
  constructor
  · rintro (⟨hborn, hun⟩ | hb)
    · refine ⟨hborn, fun hbB => ?_, fun q hq _ => hun q hq⟩
      obtain ⟨-, r, hr, hbr⟩ := hB b hbB
      exact hun r hr hbr
    · obtain ⟨hbo, hlt⟩ := hown b hb
      refine ⟨(h.births o hm b hbo).2.2, fun hbB => (hB b hbB).1 hb, fun q hq hqo hbq => ?_⟩
      -- nobody comes after a head, so nobody else has a block of its own time
      exact h.lineage.leaf_alone (h.leaf hhead) hm hbo hlt hq hqo hbq
  · rintro ⟨hborn, hbB, hun⟩
    by_cases hb : b ∈ F
    · exact .inr hb
    refine .inl ⟨hborn, fun q hq hbq => ?_⟩
    rcases eq_or_ne q o with rfl | hqo
    · rcases hlost b hbq hbB with hbF | ⟨r, hr, hro, hbr⟩
      · exact hb hbF
      · exact hun r hr hro hbr
    · exact hun q hq hqo hbq

theorem replaceBlocks {B F : Finset Blkptr} (hF : F ⊆ t.own o)
    (hB : ∀ b ∈ B, (b ∈ t.blocks o ∨ b ∈ t.before o) ∧ b ∉ F)
    (hlost : ∀ b ∈ t.blocks o, b ∉ B → b ∈ F ∨ b ∈ t.before o) (birth : ℕ → ℕ) :
    Inv { t with
      blocks := update t.blocks o B
      bpBirth := birth
      deadlist := update t.deadlist o (t.before o \ B).val
      freed := t.freed + F.val } := by
  have hm := ho.1
  have hhead := ho.2
  have hprev : ∀ b ∈ t.before o, ∃ p, t.prevSnapObj o = some p ∧ p ∈ t.objs ∧ p ≠ o ∧
      b ∈ t.blocks p := by
    intro b hb
    cases hp : t.prevSnapObj o with
    | none =>
      rw [before_of_root hp] at hb
      exact absurd hb (notMem_empty b)
    | some p =>
      rw [before_of_prev hp] at hb
      exact ⟨p, rfl, h.prev_mem hm hp, h.lineage.prev_ne hm hp, hb⟩
  have hheld : ∀ b ∈ B, ∃ q ∈ t.objs, b ∈ t.blocks q := by
    intro b hb
    rcases (hB b hb).1 with hbo | hbo
    · exact ⟨o, hm, hbo⟩
    · obtain ⟨p, -, hpm, -, hbp⟩ := hprev b hbo
      exact ⟨p, hpm, hbp⟩
  obtain ⟨hnodup, hiff⟩ := h.freed_replace ho hF (fun b hb => ⟨(hB b hb).2, hheld b hb⟩)
    (fun b hb hbB => (hlost b hb hbB).imp_right fun hbo => by
      obtain ⟨p, -, hpm, hpo, hbp⟩ := hprev b hbo
      exact ⟨p, hpm, hpo, hbp⟩)
  refine { h with
      lineage := ?_
      snap := h.snap_update hhead _
      births := ?_
      dead := ?_
      origin := h.origin_update hhead _
      freed_nodup := hnodup
      freed_iff := hiff }
  · refine h.lineage.replace_items (h.leaf hhead) hm fun b hb => (hB b hb).1.imp_right fun hbo => ?_
    obtain ⟨p, hp, -, -, hbp⟩ := hprev b hbo
    exact ⟨h.birth_le_of_before hm hbo, p, hp, hbp⟩
  · intro q hq b hb
    have hsome : ∃ r ∈ t.objs, b ∈ t.blocks r := by
      rcases eq_or_ne q o with rfl | hqo
      · exact hheld b (by simpa only [update_self] using hb)
      · exact ⟨q, hq, by simpa only [update_of_ne hqo] using hb⟩
    obtain ⟨r, hr, hbr⟩ := hsome
    exact h.births r hr b hbr
  · intro q hq
    show update t.deadlist o (t.before o \ B).val q =
      ((t.prevSnapObj q).elim ∅ (update t.blocks o B) \ update t.blocks o B q).val
    rw [h.before_update hhead hq]
    rcases eq_or_ne q o with rfl | hqo
    · rw [update_self, update_self]
    · rw [update_of_ne hqo, update_of_ne hqo]
      exact h.dead q hq

theorem blockKill (hb : bp ∈ t.blocks o) : (t.blockKill o bp).Inv := by
  have hm := ho.1
  rw [Tree.blockKill]
  split
  case isTrue hlt =>
    -- born after the last snapshot: nobody else references it
    have hbefore : bp ∉ t.before o := by
      intro hbo
      have := h.birth_le_of_before hm hbo
      omega
    have hdead : (t.before o \ (t.blocks o).erase bp).val = t.deadlist o := by
      rw [h.dead o hm, sdiff_erase_of_notMem hbefore]
    have := h.replaceBlocks ho (B := (t.blocks o).erase bp) (F := {bp})
      (singleton_subset_iff.mpr (mem_own.mpr ⟨hb, hlt⟩))
      (fun b hbB => ⟨.inl (mem_of_mem_erase hbB), fun hbF =>
        ne_of_mem_erase hbB (mem_singleton.mp hbF)⟩)
      (fun b hbo hbB => .inl (by
        rw [mem_singleton]
        by_contra hne
        exact hbB (mem_erase.mpr ⟨hne, hbo⟩)))
      (update t.bpBirth o t.txg)
    rw [hdead, update_eq_self, singleton_val, add_comm] at this
    exact this
  case isFalse hle =>
    -- older: the previous snapshot references it, so it goes on the deadlist
    have hbefore := h.mem_before hm hb (by omega)
    have hdead : (t.before o \ (t.blocks o).erase bp).val = bp ::ₘ t.deadlist o := by
      have hout : bp ∉ t.before o \ t.blocks o := by
        rw [mem_sdiff]
        exact fun hout => hout.2 hb
      rw [sdiff_erase hbefore, insert_val_of_notMem hout, h.dead o hm]
    have := h.replaceBlocks ho (B := (t.blocks o).erase bp) (F := ∅) (empty_subset _)
      (fun b hbB => ⟨.inl (mem_of_mem_erase hbB), notMem_empty b⟩) (fun b hbo hbB => .inr (by
        have hbp : b = bp := by
          by_contra hne
          exact hbB (mem_erase.mpr ⟨hne, hbo⟩)
        rwa [hbp]))
      (update t.bpBirth o t.txg)
    rw [hdead, empty_val, add_zero] at this
    exact this

omit ho in
theorem rollbackTo_blocks : (t.rollbackTo o).elim ∅ t.blocks = t.before o := by
  rw [rollbackTo]
  cases hp : t.prevSnapObj o with
  | none =>
    rw [before_of_root hp]
    rfl
  | some p =>
    rw [before_of_prev hp]
    by_cases horigin : t.originSnap = some p
    · rw [filter_some_neg (by simpa using horigin), (h.origin p horigin).2.2]
      rfl
    · rw [filter_some_pos (by simpa using horigin)]
      rfl

theorem rollback : (t.rollback o).Inv := by
  have := h.replaceBlocks ho (B := t.before o) (F := t.own o) (Finset.Subset.refl _)
    (fun b hbB => ⟨.inr hbB, fun hbF => by
      have := h.birth_le_of_before ho.1 hbB
      have := (mem_own.mp hbF).2
      omega⟩)
    (fun b hbo hbB => .inl (by
      rw [h.own_eq ho.1, mem_sdiff]
      exact ⟨hbo, hbB⟩))
    (update t.bpBirth o ((t.rollbackTo o).elim 0 t.bpBirth))
  rw [sdiff_self, ← h.rollbackTo_blocks] at this
  exact this

/-! ## Datasets come and go -/

theorem snapshot_children (hn : n ∉ t.objs) (r : ℕ) (hr : r ∈ insert n t.objs) :
    (t.snapshot o n).numChildren r =
      ((insert n t.objs).filter fun q => (t.snapshot o n).prevSnapObj q = some r).card := by
  obtain ⟨prev_n, prev_o, prev_r, -⟩ := snapshotted hn ho.1
  show update t.numChildren n 1 r = _
  rcases mem_insert.mp hr with rfl | hrm
  · have honly : ((insert r t.objs).filter fun q => (t.snapshot o r).prevSnapObj q = some r) =
        {o} := by
      ext q
      rw [mem_filter, mem_singleton]
      constructor
      · rintro ⟨hq, hp⟩
        by_contra hqo
        rcases mem_insert.mp hq with rfl | hq
        · rw [prev_n] at hp
          exact hn (h.prev_mem ho.1 hp)
        · rw [prev_r q hq hqo] at hp
          exact hn (h.prev_mem hq hp)
      · rintro rfl
        exact ⟨mem_insert_of_mem ho.1, prev_o⟩
    rw [update_self, honly, card_singleton]
  · rw [update_of_ne (ne_new hn r hrm), h.children r hrm]
    refine (card_relabel (n := n) (o := o) ?_ ?_ ?_ ?_).symm
    · exact fun hnA => hn (mem_filter.mp hnA).1
    · rw [mem_filter, prev_o]
      rintro ⟨-, hp⟩
      exact hn (some.inj hp ▸ hrm)
    · rw [mem_filter, mem_filter, prev_n]
      exact ⟨fun hp => ⟨ho.1, hp.2⟩, fun hp => ⟨mem_insert_self .., hp.2⟩⟩
    · intro q hqo hqn
      rw [mem_filter, mem_filter, mem_insert, or_iff_right hqn]
      exact and_congr_right fun hq => by rw [prev_r q hq hqo]

theorem snapshot (hnamed : t.Named o) (hlt : t.prevSnapTxg o < t.txg)
    (hn : n ∉ t.objs) : (t.snapshot o n).Inv := by
  set t' := t.snapshot o n
  have hm := ho.1
  obtain ⟨prev_n, prev_o, prev_r, txg_n, txg_o, txg_r, next_n, next_r, created_n, created_r,
    blocks_n, blocks_r⟩ := snapshotted hn hm
  -- all but the head look back as some dataset did before
  have old : ∀ r ∈ insert n t.objs, r ≠ o → ∃ q ∈ t.objs, t'.prevSnapObj r = t.prevSnapObj q ∧
        t'.prevSnapTxg r = t.prevSnapTxg q := by
    intro r hr hro
    rcases mem_insert.mp hr with rfl | hr
    · exact ⟨o, hm, prev_n, txg_n⟩
    · exact ⟨r, hr, prev_r r hr hro, txg_r r hr hro⟩
  have before_r : ∀ r ∈ t.objs, (t.prevSnapObj r).elim ∅ t'.blocks = t.before r :=
    fun r hr => h.before_congr hr fun p hp _ => blocks_r p hp
  obtain ⟨hbirths, hfreed⟩ := h.held_congr (A := insert n t.objs) (f := t'.blocks) (by
      intro b
      constructor
      · rintro ⟨r, hr, hb⟩
        rcases mem_insert.mp hr with rfl | hr
        · exact ⟨o, hm, blocks_n ▸ hb⟩
        · exact ⟨r, hr, blocks_r r hr ▸ hb⟩
      · rintro ⟨r, hr, hb⟩
        exact ⟨r, mem_insert_of_mem hr, (blocks_r r hr).symm ▸ hb⟩)
  refine
    { lineage := h.lineage.split (h.leaf ho.2) hn hm hlt fun b hb => (h.births o hm b hb).2.1
      prev := ?_, root := ?_, snap := ?_, births := hbirths, dead := ?_, next := ?_
      children := h.snapshot_children ho hn, origin := ?_, hidden := ?_
      freed_nodup := h.freed_nodup, freed_iff := hfreed }
  · -- prev
    intro r hr p hp
    rcases eq_or_ne r o with rfl | hro
    · cases prev_o.symm.trans hp
      rw [next_n, txg_o, created_n]
      exact ⟨some_ne_none _, rfl⟩
    obtain ⟨q, hq, hprev, htxg⟩ := old r hr hro
    rw [hprev] at hp
    have hpm := h.prev_mem hq hp
    rw [next_r p hpm, htxg, created_r p hpm]
    exact ⟨relink_ne_none.mpr (h.prev q hq p hp).1, (h.prev q hq p hp).2⟩
  · -- root
    intro r hr hp
    rcases eq_or_ne r o with rfl | hro
    · cases prev_o.symm.trans hp
    · obtain ⟨q, hq, hprev, htxg⟩ := old r hr hro
      exact htxg.trans (h.root q hq (hprev.symm.trans hp))
  · -- snap
    intro r hr hnext
    rcases mem_insert.mp hr with rfl | hr
    · rw [txg_n, created_n, blocks_n]
      exact ⟨hlt, le_refl _, fun b hb => (h.births o hm b hb).2.1⟩
    · rw [next_r r hr] at hnext
      have hsnap := relink_ne_none.mp hnext
      rw [txg_r r hr (ne_head hsnap ho.2), created_r r hr, blocks_r r hr]
      exact h.snap r hr hsnap
  · -- dead
    intro r hr
    rw [before]
    rcases eq_or_ne r o with rfl | hro
    · rw [prev_o, elim_some, blocks_n, blocks_r r hm, sdiff_self]
      exact update_self ..
    rcases mem_insert.mp hr with rfl | hr
    · rw [prev_n, before_r o hm, blocks_n, ← h.dead o hm]
      show update (update _ _ _) _ _ _ = _
      rw [update_of_ne hro, update_self]
    · rw [prev_r r hr hro, before_r r hr, blocks_r r hr, ← h.dead r hr]
      show update (update _ _ _) _ _ _ = _
      rw [update_of_ne hro, update_of_ne (ne_new hn r hr)]
  · -- next
    intro r hr m hnext
    rcases mem_insert.mp hr with rfl | hr
    · cases next_n.symm.trans hnext
      exact ⟨mem_insert_of_mem hm, prev_o⟩
    rw [next_r r hr] at hnext
    rcases relink_cases hnext with ⟨hcond, rfl⟩ | ⟨hcond, hold⟩
    · exact ⟨mem_insert_self .., prev_n.trans hcond.1⟩
    obtain ⟨hmm, hmp⟩ := h.next r hr m hold
    have hmo : m ≠ o := by
      rintro rfl
      exact hcond ⟨hmp, hold⟩
    exact ⟨mem_insert_of_mem hmm, (prev_r m hmm hmo).trans hmp⟩
  · -- origin
    intro p hp
    obtain ⟨hpm, hnext, hempty⟩ := h.origin p hp
    rw [next_r p hpm, blocks_r p hpm]
    exact ⟨mem_insert_of_mem hpm, relink_ne_none.mpr hnext, hempty⟩
  · -- hidden
    intro p hp m hnext
    have hpm := (h.origin p hp).1
    rw [next_r p hpm, relink, if_neg fun hcond => (hnamed p hp).2 hcond.2] at hnext
    have hmm := (h.next p hpm m hnext).1
    rw [next_r m hmm]
    by_contra hsnap
    exact relink_ne_none.mp hsnap (h.hidden p hp m hnext)

end

theorem create_children (hn : n ∉ t.objs) {origin : Option ℕ}
    (horigin : ∀ p, origin = some p → p ∈ t.objs) (r : ℕ) (hr : r ∈ insert n t.objs) :
    (t.create n origin).numChildren r =
      ((insert n t.objs).filter fun q => (t.create n origin).prevSnapObj q = some r).card := by
  obtain ⟨-, prev_n, prev_r, -⟩ := created hn origin
  have hfilter : (t.objs.filter fun q => (t.create n origin).prevSnapObj q = some r) =
      t.objs.filter fun q => t.prevSnapObj q = some r :=
    filter_congr fun q hq => by rw [prev_r q hq]
  rw [filter_insert, prev_n, hfilter]
  rcases mem_insert.mp hr with rfl | hrm
  · have hnone : origin ≠ some r := fun horg => hn (horigin r horg)
    have hempty : (t.objs.filter fun q => t.prevSnapObj q = some r) = ∅ :=
      filter_eq_empty_iff.mpr fun q hq hp => hn (h.prev_mem hq hp)
    rw [if_neg hnone, hempty, card_empty]
    cases origin <;> exact update_self ..
  cases origin with
  | none => exact (update_of_ne (ne_new hn r hrm) ..).trans (h.children r hrm)
  | some p =>
    show update (update _ _ _) _ _ _ = _
    rw [update_of_ne (ne_new hn r hrm)]
    split
    case isTrue hp =>
      cases hp
      rw [update_self, card_insert_of_notMem fun hnm => hn (mem_filter.mp hnm).1,
        h.children r hrm]
    case isFalse hp =>
      rw [update_of_ne fun heq => hp (congrArg some heq.symm), h.children r hrm]

theorem create (hn : n ∉ t.objs) {origin : Option ℕ}
    (horigin : ∀ p, origin = some p → p ∈ t.objs ∧ t.nextSnapObj p ≠ none) :
    (t.create n origin).Inv := by
  obtain ⟨hobjs, prev_n, prev_r, txg_n, txg_r, next_n, next_r, created_r, blocks_n, blocks_r,
    dead_n, dead_r, htxg, hborn, hfreed, hsnaps⟩ := created hn origin
  obtain ⟨hbirths, hheld⟩ := h.held_congr (A := insert n t.objs)
    (f := (t.create n origin).blocks) (by
      intro b
      constructor
      · rintro ⟨r, hr, hb⟩
        rcases mem_insert.mp hr with rfl | hr
        · rw [blocks_n] at hb
          cases origin with
          | none => exact absurd hb (notMem_empty b)
          | some p => exact ⟨p, (horigin p rfl).1, hb⟩
        · exact ⟨r, hr, blocks_r r hr ▸ hb⟩
      · rintro ⟨r, hr, hb⟩
        exact ⟨r, mem_insert_of_mem hr, (blocks_r r hr).symm ▸ hb⟩)
  constructor
  case freed_nodup => exact hfreed ▸ h.freed_nodup
  case lineage =>
    cases origin with
    | none => exact h.lineage.insert_leaf hn nofun
    | some p =>
      obtain ⟨hpm, hsnap⟩ := horigin p rfl
      obtain ⟨hlt, -, hle⟩ := h.snap p hpm hsnap
      exact h.lineage.insert_leaf hn fun q hq => some.inj hq ▸ ⟨hpm, hlt, hle⟩
  case origin =>
    intro p hp
    obtain ⟨hpm, hsnap, hempty⟩ := h.origin p (hsnaps ▸ hp)
    rw [hobjs, next_r p hpm, blocks_r p hpm]
    exact ⟨mem_insert_of_mem hpm, hsnap, hempty⟩
  case hidden =>
    intro p hp m hm
    rw [hsnaps] at hp
    have hpm := (h.origin p hp).1
    rw [next_r p hpm] at hm
    rw [next_r m (h.next p hpm m hm).1]
    exact h.hidden p hp m hm
  all_goals rw [hobjs]
  case prev =>
    intro r hr p hp
    rcases mem_insert.mp hr with rfl | hr
    · rw [prev_n] at hp
      obtain ⟨hpm, hsnap⟩ := horigin p hp
      rw [next_r p hpm, txg_n, created_r p hpm, hp]
      exact ⟨hsnap, rfl⟩
    · rw [prev_r r hr] at hp
      have hpm := h.prev_mem hr hp
      rw [next_r p hpm, txg_r r hr, created_r p hpm]
      exact h.prev r hr p hp
  case root =>
    intro r hr hp
    rcases mem_insert.mp hr with rfl | hr
    · rw [prev_n] at hp
      rw [txg_n, hp, elim_none]
    · rw [prev_r r hr] at hp
      rw [txg_r r hr]
      exact h.root r hr hp
  case snap =>
    intro r hr hsnap
    rcases mem_insert.mp hr with rfl | hr
    · exact absurd next_n hsnap
    · rw [next_r r hr] at hsnap
      rw [txg_r r hr, created_r r hr, blocks_r r hr, htxg]
      exact h.snap r hr hsnap
  case births =>
    rw [htxg, hborn]
    exact hbirths
  case dead =>
    intro r hr
    rw [before]
    rcases mem_insert.mp hr with rfl | hr
    · rw [dead_n, prev_n, blocks_n]
      cases origin with
      | none => rfl
      | some p =>
        rw [elim_some, elim_some, blocks_r p (horigin p rfl).1, sdiff_self]
        rfl
    · rw [dead_r r hr, prev_r r hr, blocks_r r hr, h.before_congr hr fun p hp _ => blocks_r p hp]
      exact h.dead r hr
  case next =>
    intro r hr m hm
    rcases mem_insert.mp hr with rfl | hr
    · cases next_n.symm.trans hm
    · rw [next_r r hr] at hm
      obtain ⟨hmm, hmp⟩ := h.next r hr m hm
      exact ⟨mem_insert_of_mem hmm, (prev_r m hmm).trans hmp⟩
  case children => exact h.create_children hn fun p hp => (horigin p hp).1
  case freed_iff =>
    rw [hfreed, hborn]
    exact hheld

/-- `dsl_dataset_promote_sync`: the origin points to another one of its children. -/
theorem promote (hreal : t.originSnap ≠ some o) (hn : n ∈ t.objs)
    (hp : t.prevSnapObj n = some o) : (t.promote o n).Inv := by
  have hnext : ∀ r, (t.promote o n).nextSnapObj r ≠ none ↔ t.nextSnapObj r ≠ none := by
    intro r
    show update t.nextSnapObj o (some n) r ≠ none ↔ _
    rcases eq_or_ne r o with rfl | hro
    · rw [update_self]
      exact iff_of_true (some_ne_none n) (h.prev n hn r hp).1
    · rw [update_of_ne hro]
  refine { h with
      prev := fun r hr p hp => ⟨(hnext p).mpr (h.prev r hr p hp).1, (h.prev r hr p hp).2⟩
      snap := fun r hr hsnap => h.snap r hr ((hnext r).mp hsnap)
      next := ?_
      origin := fun p hp => ⟨(h.origin p hp).1, (hnext p).mpr (h.origin p hp).2.1,
        (h.origin p hp).2.2⟩
      hidden := ?_ }
  · intro r hr m hm
    rcases eq_or_ne r o with rfl | hro
    · cases (update_self ..).symm.trans hm
      exact ⟨hn, hp⟩
    · exact h.next r hr m ((update_of_ne hro _ _).symm.trans hm)
  · intro p hp' m hm
    have hpo : p ≠ o := by
      rintro rfl
      exact hreal hp'
    by_contra hsnap
    exact (hnext m).mp hsnap (h.hidden p hp' m ((update_of_ne hpo _ _).symm.trans hm))

theorem cloneSwap {cds ohds : ℕ} (hc : t.IsHead cds) (ho : t.IsHead ohds)
    (hne : cds ≠ ohds) (hpc : t.prevSnapObj cds = some p) (hpo : t.prevSnapObj ohds = some p) :
    (t.cloneSwap cds ohds).Inv := by
  obtain ⟨hcm, hchead⟩ := hc
  obtain ⟨hom, hohead⟩ := ho
  have hsince : t.prevSnapTxg cds = t.prevSnapTxg ohds :=
    (h.prev cds hcm p hpc).2.trans (h.prev ohds hom p hpo).2.symm
  obtain ⟨blocks_o, blocks_c, blocks_r⟩ := t.cloneSwap_blocks hne
  have snap_r : ∀ r, t.nextSnapObj r ≠ none → r ≠ cds ∧ r ≠ ohds :=
    fun r hsnap => ⟨ne_head hsnap hchead, ne_head hsnap hohead⟩
  have before_r : ∀ r ∈ t.objs, (t.cloneSwap cds ohds).before r = t.before r :=
    fun r hr => h.before_congr hr fun p _ hsnap => blocks_r p (snap_r p hsnap).1 (snap_r p hsnap).2
  -- the two sets of blocks change hands, so the same blocks are referenced
  obtain ⟨hbirths, hfreed⟩ := h.held_congr (f := (t.cloneSwap cds ohds).blocks) (by
    intro b
    constructor
    · rintro ⟨r, hr, hb⟩
      rcases eq_or_ne r cds with rfl | hrc
      · exact ⟨ohds, hom, blocks_c ▸ hb⟩
      · rcases eq_or_ne r ohds with rfl | hro
        · exact ⟨cds, hcm, blocks_o ▸ hb⟩
        · exact ⟨r, hr, blocks_r r hrc hro ▸ hb⟩
    · rintro ⟨r, hr, hb⟩
      rcases eq_or_ne r cds with rfl | hrc
      · exact ⟨ohds, hom, blocks_o.symm ▸ hb⟩
      · rcases eq_or_ne r ohds with rfl | hro
        · exact ⟨cds, hcm, blocks_c.symm ▸ hb⟩
        · exact ⟨r, hr, (blocks_r r hrc hro).symm ▸ hb⟩)
  refine { h with
      lineage := h.lineage.swap_items (h.leaf hchead) (h.leaf hohead) hcm hom hne
        (hpc.trans hpo.symm) hsince
      snap := ?_, births := hbirths, dead := ?_, origin := ?_, freed_iff := hfreed }
  · intro r hr hsnap
    obtain ⟨h1, h2⟩ := snap_r r hsnap
    rw [blocks_r r h1 h2]
    exact h.snap r hr hsnap
  · intro r hr
    rw [before_r r hr]
    show update (update t.deadlist cds (t.deadlist ohds)) ohds (t.deadlist cds) r = _
    rcases eq_or_ne r ohds with rfl | hro
    · rw [update_self, blocks_o, h.dead cds hcm, before_of_prev hpc, before_of_prev hpo]
    rw [update_of_ne hro]
    rcases eq_or_ne r cds with rfl | hrc
    · rw [update_self, blocks_c, h.dead ohds hom, before_of_prev hpc, before_of_prev hpo]
    · rw [update_of_ne hrc, blocks_r r hrc hro]
      exact h.dead r hr
  · intro p hp
    obtain ⟨hpm, hsnap, hempty⟩ := h.origin p hp
    obtain ⟨h1, h2⟩ := snap_r p hsnap
    exact ⟨hpm, hsnap, (blocks_r p h1 h2).trans hempty⟩

theorem destroyHead (ho : t.IsHead o)
    (hbranch : ∀ p, t.prevSnapObj o = some p → t.nextSnapObj p ≠ some o) :
    (t.destroyHead o).Inv := by
  have hm := ho.1
  have hhead := ho.2
  have hmem : ∀ r ∈ t.objs.erase o, r ∈ t.objs ∧ r ≠ o :=
    fun r hr => ⟨mem_of_mem_erase hr, ne_of_mem_erase hr⟩
  obtain ⟨hnodup, hiff⟩ := h.freed_replace ho (B := ∅) (F := t.own o) (Finset.Subset.refl _)
    (fun b hb => absurd hb (notMem_empty b)) (fun b hb _ => by
      rcases lt_or_ge (t.prevSnapTxg o) b.birth with hlt | hle
      · exact .inl (mem_own.mpr ⟨hb, hlt⟩)
      · obtain ⟨p, hp, hbp⟩ := h.lineage.inherit o hm b hb hle
        exact .inr ⟨p, h.prev_mem hm hp, h.lineage.prev_ne hm hp, hbp⟩)
  refine { h with
      lineage := h.lineage.remove_leaf (h.leaf hhead)
      prev := fun r hr => h.prev r (hmem r hr).1
      root := fun r hr => h.root r (hmem r hr).1
      snap := fun r hr => h.snap r (hmem r hr).1
      births := fun r hr => h.births r (hmem r hr).1
      dead := fun r hr => h.dead r (hmem r hr).1
      next := ?_
      children := ?_
      origin := ?_
      freed_nodup := hnodup
      freed_iff := ?_ }
  · intro r hr m hnext
    obtain ⟨hmm, hmp⟩ := h.next r (hmem r hr).1 m hnext
    refine ⟨mem_erase.mpr ⟨?_, hmm⟩, hmp⟩
    rintro rfl
    exact hbranch r hmp hnext
  · intro r hr
    show (if t.prevSnapObj o = some r then t.numChildren r - 1 else t.numChildren r) =
      ((t.objs.erase o).filter fun q => t.prevSnapObj q = some r).card
    rw [filter_erase, h.children r (hmem r hr).1]
    split
    case isTrue hp =>
      rw [card_erase_of_mem (mem_filter.mpr ⟨hm, hp⟩)]
    case isFalse hp =>
      have hout : o ∉ t.objs.filter fun q => t.prevSnapObj q = some r :=
        fun ho => hp (mem_filter.mp ho).2
      rw [erase_eq_of_notMem hout]
  · intro p hp
    obtain ⟨hpm, hsnap, hempty⟩ := h.origin p hp
    exact ⟨mem_erase.mpr ⟨ne_head hsnap hhead, hpm⟩, hsnap, hempty⟩
  · intro b
    refine (hiff b).trans (and_congr_right fun _ => (forall_notMem_update hm).trans ⟨?_, ?_⟩)
    · exact fun hun r hr => hun.2 r (hmem r hr).1 (hmem r hr).2
    · exact fun hun => ⟨notMem_empty b, fun r hr hro => hun r (mem_erase.mpr ⟨hro, hr⟩)⟩

end

section DestroySnap

variable (h : t.Inv) (ho : o ∈ t.objs) (hn : t.nextSnapObj o = some n)
  (hc : t.numChildren o ≤ 1)

include h ho hn

theorem next_links : n ∈ t.objs ∧ t.prevSnapObj n = some o ∧ n ≠ o ∧ t.before n = t.blocks o ∧
    t.prevSnapTxg n = t.creationTxg o ∧ t.prevSnapTxg o < t.creationTxg o := by
  obtain ⟨hnm, hp⟩ := h.next o ho n hn
  exact ⟨hnm, hp, (h.lineage.prev_ne hnm hp).symm, before_of_prev hp, (h.prev n hnm o hp).2,
    (h.snap o ho (hn ▸ some_ne_none n)).1⟩

theorem prev_ne_next : t.prevSnapObj o ≠ some n := by
  intro hcycle
  obtain ⟨hnm, hp, -⟩ := h.next_links ho hn
  have h1 := h.lineage.since_lt o ho n hcycle
  have h2 := h.lineage.since_lt n hnm o hp
  omega

theorem deadlist_merge :
    t.deadlist o + (t.deadlist n).filter (fun b => b.birth ≤ t.prevSnapTxg o) =
      (t.before o \ t.blocks n).val := by
  obtain ⟨hnm, -, -, hbefore, htxg, hlt⟩ := h.next_links ho hn
  have hnodup : (t.deadlist o +
      (t.deadlist n).filter fun b => b.birth ≤ t.prevSnapTxg o).Nodup := by
    refine Multiset.nodup_add.mpr ⟨?_, Multiset.Nodup.filter _ ?_, ?_⟩
    · rw [h.dead o ho]
      exact nodup _
    · rw [h.dead n hnm]
      exact nodup _
    rw [Multiset.disjoint_left]
    intro b hb hb'
    have hin := ((h.mem_deadlist hnm).mp (Multiset.mem_of_mem_filter hb')).1
    rw [hbefore] at hin
    exact ((h.mem_deadlist ho).mp hb).2 hin
  refine (Multiset.Nodup.ext hnodup (nodup _)).mpr fun b => ?_
  rw [Multiset.mem_add, Multiset.mem_filter, h.mem_deadlist ho, h.mem_deadlist hnm, hbefore,
    mem_val, mem_sdiff]
  constructor
  · rintro (⟨hb, hbo⟩ | ⟨⟨hbo, hbn⟩, hle⟩)
    · refine ⟨hb, fun hbn => hbo ?_⟩
      -- a block of the next dataset that old is in the snapshot between
      have hle := h.birth_le_of_before ho hb
      have := h.mem_before hnm hbn (by omega)
      rwa [hbefore] at this
    · exact ⟨h.mem_before ho hbo hle, hbn⟩
  · rintro ⟨hb, hbn⟩
    by_cases hbo : b ∈ t.blocks o
    · exact .inr ⟨⟨hbo, hbn⟩, h.birth_le_of_before ho hb⟩
    · exact .inl ⟨hb, hbo⟩

include hc

/-- The entries of the next dataset's deadlist that are not older than the destroyed snapshot's
    predecessor are exactly the blocks nobody else references. -/
theorem freed_destroySnap : (t.destroySnap o n).freed.Nodup ∧
    ∀ b, b ∈ (t.destroySnap o n).freed ↔ b ∈ t.born ∧ ∀ q ∈ t.objs.erase o, b ∉ t.blocks q := by
  obtain ⟨hnm, -, hno, hbefore, -, -⟩ := h.next_links ho hn
  have hmem : ∀ b, b ∈ (t.deadlist n).filter (fun b => ¬b.birth ≤ t.prevSnapTxg o) ↔
      (b ∈ t.blocks o ∧ b ∉ t.blocks n) ∧ t.prevSnapTxg o < b.birth := by
    intro b
    rw [Multiset.mem_filter, h.mem_deadlist hnm, hbefore, not_le]
  constructor
  · refine Multiset.nodup_add.mpr ⟨h.freed_nodup, Multiset.Nodup.filter _ ?_, ?_⟩
    · rw [h.dead n hnm]
      exact nodup _
    · rw [Multiset.disjoint_left]
      intro b hf hb
      exact h.not_freed ho ((hmem b).mp hb).1.1 hf
  intro b
  show b ∈ t.freed + _ ↔ _
  rw [Multiset.mem_add, hmem, h.freed_iff b]
  constructor
  · rintro (⟨hborn, hun⟩ | ⟨⟨hbo, hbn⟩, hown⟩)
    · exact ⟨hborn, fun q hq => hun q (mem_of_mem_erase hq)⟩
    refine ⟨(h.births o ho b hbo).2.2, fun q hq hbq => hbn ?_⟩
    -- another holder would have to be reached through the only child
    obtain ⟨c, hcm, hcp, hbc⟩ := h.lineage.held_after ho hbo hown (mem_of_mem_erase hq)
      hbq (ne_of_mem_erase hq)
    cases h.only_child ho hn hc c hcm hcp
    exact hbc
  · rintro ⟨hborn, hun⟩
    by_cases hbo : b ∈ t.blocks o
    · refine .inr ⟨⟨hbo, hun n (mem_erase.mpr ⟨hno, hnm⟩)⟩, ?_⟩
      by_contra hle
      obtain ⟨a, ha, hba⟩ := h.lineage.inherit o ho b hbo (by omega)
      exact hun a (mem_erase.mpr ⟨h.lineage.prev_ne ho ha, h.prev_mem ho ha⟩) hba
    · refine .inl ⟨hborn, fun q hq => ?_⟩
      rcases eq_or_ne q o with rfl | hqo
      · exact hbo
      · exact hun q (mem_erase.mpr ⟨hqo, hq⟩)

theorem destroySnap (hnamed : t.Named o) : (t.destroySnap o n).Inv := by
  obtain ⟨hnm, hp, hno, -, htxg, hlt⟩ := h.next_links ho hn
  have honly := h.only_child ho hn hc
  obtain ⟨hnodup, hiff⟩ := h.freed_destroySnap ho hn hc
  obtain ⟨hmem, prev_n, prev_r, txg_n, txg_r⟩ := t.destroyed (o := o) (n := n)
  refine
    { lineage := h.lineage.remove_inner ho hnm hp honly
      prev := ?_, root := ?_, snap := ?_
      births := fun r hr => h.births r (hmem r hr).1
      dead := ?_, next := ?_, children := ?_, origin := ?_, hidden := ?_
      freed_nodup := hnodup, freed_iff := hiff }
  · -- prev
    intro r hr p hp'
    have hrm := (hmem r hr).1
    rcases eq_or_ne r n with rfl | hrn
    · rw [prev_n] at hp'
      rw [txg_n]
      exact ⟨relink_ne_none.mpr (h.prev o ho p hp').1, (h.prev o ho p hp').2⟩
    · rw [prev_r r hrn] at hp'
      rw [txg_r r hrn]
      exact ⟨relink_ne_none.mpr (h.prev r hrm p hp').1, (h.prev r hrm p hp').2⟩
  · -- root
    intro r hr hp'
    rcases eq_or_ne r n with rfl | hrn
    · rw [prev_n] at hp'
      rw [txg_n]
      exact h.root o ho hp'
    · rw [prev_r r hrn] at hp'
      rw [txg_r r hrn]
      exact h.root r (hmem r hr).1 hp'
  · -- snap
    intro r hr hsnap
    obtain ⟨h1, h2, h3⟩ := h.snap r (hmem r hr).1 (relink_ne_none.mp hsnap)
    refine ⟨?_, h2, h3⟩
    show (t.destroySnap o n).prevSnapTxg r < t.creationTxg r
    rcases eq_or_ne r n with rfl | hrn
    · omega
    · rwa [txg_r r hrn]
  · -- dead
    intro r hr
    rw [before]
    show update t.deadlist n _ r = _
    rcases eq_or_ne r n with rfl | hrn
    · rw [update_self, prev_n]
      exact h.deadlist_merge ho hn
    · rw [update_of_ne hrn, prev_r r hrn]
      exact h.dead r (hmem r hr).1
  · -- next
    intro r hr m hnext
    obtain ⟨hrm, hro⟩ := hmem r hr
    rcases relink_cases hnext with ⟨hcond, rfl⟩ | ⟨hcond, hold⟩
    · exact ⟨mem_erase.mpr ⟨hno, hnm⟩, prev_n.trans hcond.1⟩
    obtain ⟨hmm, hmp⟩ := h.next r hrm m hold
    have hmo : m ≠ o := by
      rintro rfl
      exact hcond ⟨hmp, hold⟩
    have hmn : m ≠ n := by
      rintro rfl
      exact hro (some.inj (hmp.symm.trans hp))
    exact ⟨mem_erase.mpr ⟨hmo, hmm⟩, (prev_r m hmn).trans hmp⟩
  · -- children
    intro r hr
    obtain ⟨hrm, hro⟩ := hmem r hr
    show t.numChildren r =
      ((t.objs.erase o).filter fun q => (t.destroySnap o n).prevSnapObj q = some r).card
    have hnr : ∀ {q}, t.prevSnapObj q = some r → q ≠ n := by
      rintro q hqp rfl
      exact hro (some.inj (hqp.symm.trans hp))
    rw [h.children r hrm]
    refine (card_relabel (n := n) (o := o) ?_ ?_ ?_ ?_).symm
    · exact fun hnA => hnr (mem_filter.mp hnA).2 rfl
    · exact fun hoB => (hmem o (mem_filter.mp hoB).1).2 rfl
    · rw [mem_filter, mem_filter, prev_n]
      exact ⟨fun hq => ⟨ho, hq.2⟩, fun hq => ⟨mem_erase.mpr ⟨hno, hnm⟩, hq.2⟩⟩
    · intro q hqo hqn
      rw [mem_filter, mem_filter, mem_erase, prev_r q hqn, and_iff_right hqo]
  · -- origin
    intro p hp'
    obtain ⟨hpm, hsnap, hempty⟩ := h.origin p hp'
    refine ⟨mem_erase.mpr ⟨?_, hpm⟩, relink_ne_none.mpr hsnap, hempty⟩
    rintro rfl
    exact (hnamed p hp').1 rfl
  · -- hidden
    intro p hp' m hnext
    change t.relink o n p = some m at hnext
    rw [relink, if_neg fun hcond => (hnamed p hp').2 hcond.2] at hnext
    by_contra hsnap
    exact relink_ne_none.mp hsnap (h.hidden p hp' m hnext)

end DestroySnap

end Inv

end Tree

/-- The new next dataset that `dsl_dataset_promote_check` finds is a child of the origin. -/
theorem newNext_spec (h : t.Inv) {fuel : ℕ} (ho : o ∈ t.objs) (hn : newNext t p fuel o = some n) :
    n ∈ t.objs ∧ t.prevSnapObj n = some p := by
  induction fuel generalizing o with
  | zero => cases hn
  | succ fuel ih =>
    rw [newNext] at hn
    split at hn
    case isTrue hp =>
      cases hn
      exact ⟨ho, hp⟩
    case isFalse =>
      split at hn
      case h_1 q hq => exact ih (h.prev_mem ho hq) hn
      case h_2 => cases hn

variable {s s' : State} {e : Event}

/-- What holds of a pool after every history: the meaning of the links, and no directory is
    inside itself. -/
structure State.Inv (s : State) : Prop where
  tree : s.tree.Inv
  parent : ∀ dd, s.space.parent dd ≠ some dd

/-- The datasets that `dsl_dataset_clone_swap_check` lets through are two. -/
theorem State.Inv.swap_ne {cds ohds : ℕ} (h : s.Inv)
    (hp : s.space.parent (s.space.dirObj cds) = some (s.space.dirObj ohds)) : cds ≠ ohds := by
  rintro rfl
  exact h.parent _ hp

theorem newPool_inv (hasOrigin : Bool) : (newPool hasOrigin).Inv := by
  refine ⟨?_, fun dd => (some_ne_none dd).symm⟩
  constructor
  case lineage =>
    refine ⟨?_, ?_, ?_, fun o _ q _ b hb => ?_⟩
    case refine_4 =>
      cases hasOrigin <;> exact absurd hb (notMem_empty b)
    all_goals cases hasOrigin <;> decide
  case origin =>
    intro p hp
    cases hasOrigin <;> cases hp
    decide
  case hidden =>
    intro p hp m hm
    cases hasOrigin <;> cases hp
    cases hm
    rfl
  case freed_nodup => exact Multiset.nodup_zero
  case freed_iff =>
    exact fun b => iff_of_false (Multiset.notMem_zero b) fun hb => notMem_empty b hb.1
  all_goals cases hasOrigin <;> decide

/-- **Step lemma**: every operation that its check function allows keeps the invariant. -/
theorem Allowed.inv (h : s.Inv) (hs : Allowed s e s') : s'.Inv := by
  have ht := h.tree
  have same : ∀ {sp : Space}, s.space.SameDirs sp → ∀ dd, sp.parent dd ≠ some dd := by
    intro sp hsp dd
    rw [hsp.parent]
    exact h.parent dd
  cases hs with
  | sync =>
    refine ⟨?_, h.parent⟩
    exact { ht with
        snap := fun o ho hsnap => by
          obtain ⟨h1, h2, h3⟩ := ht.snap o ho hsnap
          exact ⟨h1, Nat.le_succ_of_le h2, h3⟩
        births := fun o ho b hb => by
          obtain ⟨h1, h2, h3⟩ := ht.births o ho b hb
          exact ⟨h1, Nat.le_succ_of_le h2, h3⟩ }
  | born head birth txg new => exact ⟨ht.blockBorn head birth txg new, h.parent⟩
  | kill head mem => exact ⟨ht.blockKill head mem, same .blockKill⟩
  | snapshot head named txg new => exact ⟨ht.snapshot head named txg new, h.parent⟩
  | @create n dd parent origin from? new dir outside choice snap =>
    refine ⟨ht.create new snap, fun dd' => ?_⟩
    show update s.space.parent dd parent dd' ≠ some dd'
    rcases eq_or_ne dd' dd with rfl | hne
    · rw [update_self]
      exact outside
    · rw [update_of_ne hne]
      exact h.parent dd'
  | rollback head clean => exact ⟨ht.rollback head, same .rollback⟩
  | promote head clone real next =>
    obtain ⟨hm, hp⟩ := newNext_spec ht head.1 next
    exact ⟨ht.promote real hm hp, h.parent⟩
  | cloneSwap clone head prev prev' next parent =>
    exact ⟨ht.cloneSwap clone head (h.swap_ne parent) prev prev', h.parent⟩
  | destroySnap mem next children named =>
    exact ⟨ht.destroySnap mem next children named,
      same (Space.SameDirs.dropReservation.trans .destroySnap)⟩
  | destroyHead head branch =>
    exact ⟨ht.destroyHead head branch, same (Space.SameDirs.dropReservation.trans .destroyHead)⟩
  | setReservation head => exact ⟨ht, h.parent⟩

theorem run_inv {es : List Event} (h : s.Inv) (hr : run s es = some s') : s'.Inv := by
  induction es generalizing s with
  | nil =>
    cases hr
    exact h
  | cons e es ih =>
    obtain ⟨s₁, h₁, hr⟩ := bind_eq_some_iff.mp hr
    exact ih ((Allowed.of_step h₁).inv h) hr

theorem Allowed.freed_le (hs : Allowed s e s') : s.tree.freed ≤ s'.tree.freed := by
  cases hs with
  | kill head mem =>
    rw [Tree.blockKill]
    split
    · exact Multiset.le_cons_self ..
    · exact le_refl _
  | rollback head clean | destroySnap mem next children named | destroyHead head branch =>
    exact Multiset.le_add_right ..
  | @create n dd parent origin from? new dir outside choice snap =>
    cases from? with
    | none | some p => exact le_refl _
  | _ => exact le_refl _

theorem Allowed.born_cases (hs : Allowed s e s') : s.tree.born ⊆ s'.tree.born ∧
    ∀ b ∈ s'.tree.born, b ∈ s.tree.born ∨ ∃ o ∈ s'.tree.objs, b ∈ s'.tree.blocks o := by
  cases hs with
  | @born o bp head birth txg new =>
    refine ⟨subset_insert .., fun b hb => ?_⟩
    rcases mem_insert.mp hb with rfl | hb
    · refine .inr ⟨o, head.1, ?_⟩
      show b ∈ update s.tree.blocks o (insert b (s.tree.blocks o)) o
      rw [update_self]
      exact mem_insert_self ..
    · exact .inl hb
  | @kill o bp head mem =>
    have hborn : (s.tree.blockKill o bp).born = s.tree.born := by
      rw [Tree.blockKill]
      split <;> rfl
    rw [hborn]
    exact ⟨Finset.Subset.refl _, fun b hb => .inl hb⟩
  | @create n dd parent origin from? new dir outside choice snap =>
    cases from? with
    | none | some p => exact ⟨Finset.Subset.refl _, fun b hb => .inl hb⟩
  | _ => exact ⟨Finset.Subset.refl _, fun b hb => .inl hb⟩

/-- **HEADLINE**: after every history of a pool no block has been passed to `dsl_free` twice, and
    a block that was born has been passed to it if and only if no dataset references it.  Each
    further operation frees exactly the blocks whose last reference it drops. -/
theorem block_freed_with_last_reference (hasOrigin : Bool) (es : List Event) (s : State)
    (h : run (newPool hasOrigin) es = some s) :
    s.tree.freed.Nodup ∧
    (∀ b ∈ s.tree.born, b ∈ s.tree.freed ↔ ∀ o ∈ s.tree.objs, b ∉ s.tree.blocks o) ∧
    ∀ e s', step s e = some s' → s.tree.freed ≤ s'.tree.freed ∧
      ∀ b, (b ∈ s'.tree.freed ∧ b ∉ s.tree.freed) ↔
        (∃ o ∈ s.tree.objs, b ∈ s.tree.blocks o) ∧ ∀ o ∈ s'.tree.objs, b ∉ s'.tree.blocks o := by
  have hinv := run_inv (newPool_inv hasOrigin) h
  have ht := hinv.tree
  refine ⟨ht.freed_nodup, fun b hb => (ht.freed_iff b).trans (and_iff_right hb), ?_⟩
  intro e s' he
  have hs := Allowed.of_step he
  have ht' := (hs.inv hinv).tree
  obtain ⟨hsub, hborn⟩ := hs.born_cases
  refine ⟨hs.freed_le, fun b => ?_⟩
  rw [ht'.freed_iff b]
  constructor
  · rintro ⟨⟨hb, hun⟩, hnot⟩
    refine ⟨?_, hun⟩
    rcases hborn b hb with hold | ⟨o, ho, hbo⟩
    · by_contra hnone
      push Not at hnone
      exact hnot ((ht.freed_iff b).mpr ⟨hold, hnone⟩)
    · exact absurd hbo (hun o ho)
  · rintro ⟨⟨o, ho, hbo⟩, hun⟩
    exact ⟨⟨hsub (ht.births o ho b hbo).2.2, hun⟩, ht.not_freed ho hbo⟩

/-- A file system with one block is snapshotted and cloned; the block dies in the file system,
    then the clone is promoted, the file system and finally the clone and its snapshot go. -/
def lifeOfABlock : List Event :=
  [.create 2 7 none none, .born 2 ⟨0, 4, 512⟩, .snapshot 2 3, .sync, .create 4 8 (some 7) (some 3),
    .kill 2 ⟨0, 4, 512⟩, .sync, .promote 4, .destroy 2, .sync, .kill 4 ⟨0, 4, 512⟩, .sync,
    .destroy 3]

/-- The block is freed with the snapshot, once. -/
theorem block_freed_with_snapshot :
    ∃ s, run (newPool true) lifeOfABlock = some s ∧ s.tree.freed = {⟨0, 4, 512⟩} ∧
      s.tree.freed.Nodup := by
  obtain ⟨s, hs, hfreed⟩ : ∃ s, run (newPool true) lifeOfABlock = some s ∧
      s.tree.freed = {⟨0, 4, 512⟩} := map_eq_some_iff.mp (by decide)
  exact ⟨s, hs, hfreed, (block_freed_with_last_reference true lifeOfABlock s hs).1⟩

/-- **DEADLISTS AND LINKS**: after every history a dataset's deadlist holds exactly the blocks of
    its previous snapshot that it does not reference, `ds_num_children` counts the datasets
    behind it, a next link leads back, and previous links lead to snapshots, at falling txgs. -/
theorem deadlists_exact (hasOrigin : Bool) (es : List Event) (s : State)
    (h : run (newPool hasOrigin) es = some s) : ∀ o ∈ s.tree.objs,
    s.tree.deadlist o = (s.tree.before o \ s.tree.blocks o).val ∧
    s.tree.numChildren o = (s.tree.objs.filter fun q => s.tree.prevSnapObj q = some o).card ∧
    (∀ n, s.tree.nextSnapObj o = some n → n ∈ s.tree.objs ∧ s.tree.prevSnapObj n = some o) ∧
    ∀ p, s.tree.prevSnapObj o = some p →
      p ∈ s.tree.objs ∧ s.tree.nextSnapObj p ≠ none ∧
        s.tree.prevSnapTxg p < s.tree.prevSnapTxg o := by
  intro o ho
  have ht := (run_inv (newPool_inv hasOrigin) h).tree
  refine ⟨ht.dead o ho, ht.children o ho, ht.next o ho, fun p hp => ?_⟩
  have hmem := ht.prev_mem ho hp
  obtain ⟨hnext, htxg⟩ := ht.prev o ho p hp
  exact ⟨hmem, hnext, htxg ▸ (ht.snap p hmem hnext).1⟩

theorem deadlists_exact_clone : ∃ s, run (newPool true) (lifeOfABlock.take 6) = some s ∧
    s.tree.deadlist 2 = (s.tree.before 2 \ s.tree.blocks 2).val := by
  obtain ⟨s, hs, hmem⟩ : ∃ s, run (newPool true) (lifeOfABlock.take 6) = some s ∧
      s.tree.objs = {0, 1, 2, 3, 4} := map_eq_some_iff.mp (by decide)
  exact ⟨s, hs, (deadlists_exact true _ s hs 2 (by simp [hmem])).1⟩

end Sirius.Dsl
