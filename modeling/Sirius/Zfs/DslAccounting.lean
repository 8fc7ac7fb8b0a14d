import Sirius.Zfs.DslSpace

/-! # The numbers of a pool after every history

    `DslSpace` keeps the books for one operation at a time.  After every history in which no
    clone with a refreservation was swapped, the numbers are what they should be: a directory
    is charged for the distinct blocks its datasets reference beyond its origin, plus the
    refreservation that its head does not use.  The exception is real: such a swap leaves the
    clone's directory charged for the unused part as it was before. -/

namespace Sirius.Dsl

open Function Sirius.Lib Finset

variable {t : Tree} {sp : Space} {s s' : State} {e : Event} {o X : ℕ} {b : Blkptr}

/-- The distinct blocks that the datasets of a directory reference. -/
def dirBlocks (t : Tree) (sp : Space) (X : ℕ) : Finset Blkptr :=
  (t.objs.filter fun o => sp.dirObj o = X).biUnion t.blocks

def originBlocks (t : Tree) (sp : Space) (X : ℕ) : Finset Blkptr := (sp.originObj X).elim ∅ t.blocks

theorem Dirs.exists_own (h : Dirs t sp) (ht : t.Inv) (ho : o ∈ t.objs) (hb : b ∈ t.blocks o)
    (hout : b ∉ originBlocks t sp (sp.dirObj o)) :
    ∃ q ∈ t.objs, sp.dirObj q = sp.dirObj o ∧ b ∈ t.own q := by
  -- back to the previous snapshot as long as the block is older
  induction htxg : t.prevSnapTxg o using Nat.strong_induction_on generalizing o with
  | _ k ih =>
    rcases Nat.lt_or_ge (t.prevSnapTxg o) b.birth with hown | hle
    · exact ⟨o, ho, rfl, Tree.mem_own.mpr ⟨hb, hown⟩⟩
    obtain ⟨p, hp, hbp⟩ := ht.lineage.inherit o ho b hb hle
    rcases h.above o ho p hp with hdir | horigin
    · have hlt := ht.lineage.since_lt o ho p hp
      obtain ⟨q, hq, hqd, hbq⟩ :=
        ih (t.prevSnapTxg p) (htxg ▸ hlt) (ht.prev_mem ho hp) hbp (hdir ▸ hout) rfl
      exact ⟨q, hq, hqd.trans hdir, hbq⟩
    · rw [originBlocks, horigin] at hout
      exact absurd hbp hout

theorem Dirs.dirBlocks_sdiff (h : Dirs t sp) (ht : t.Inv) :
    dirBlocks t sp X \ originBlocks t sp X =
      (t.objs.filter fun o => sp.dirObj o = X).biUnion t.own := by
  ext b
  rw [mem_sdiff, dirBlocks, mem_biUnion, mem_biUnion]
  constructor
  · rintro ⟨⟨o, ho, hb⟩, hout⟩
    obtain ⟨hom, rfl⟩ := mem_filter.mp ho
    obtain ⟨q, hq, hqd, hbq⟩ := h.exists_own ht hom hb hout
    exact ⟨q, mem_filter.mpr ⟨hq, hqd⟩, hbq⟩
  rintro ⟨o, ho, hb⟩
  obtain ⟨hom, rfl⟩ := mem_filter.mp ho
  obtain ⟨hbo, hgt⟩ := Tree.mem_own.mp hb
  refine ⟨⟨o, ho, hbo⟩, fun horigin => ?_⟩
  rw [originBlocks] at horigin
  cases hq : sp.originObj (sp.dirObj o) with
  | none =>
    rw [hq] at horigin
    exact absurd horigin (notMem_empty b)
  | some q =>
    rw [hq] at horigin
    obtain ⟨hqm, hsnap, hle⟩ := h.base o hom q hq
    have := (ht.snap q hqm hsnap).2.2 b horigin
    omega

theorem Dirs.size_dir (h : Dirs t sp) (ht : t.Inv) :
    size (dirBlocks t sp X \ originBlocks t sp X) =
      ∑ o ∈ t.objs.filter (fun o => sp.dirObj o = X), size (t.own o) := by
  rw [h.dirBlocks_sdiff ht, size_eq_sum, sum_biUnion]
  · rfl
  intro o ho q hq hne
  show Disjoint (t.own o) (t.own q)
  rw [disjoint_left]
  intro b hbo hbq
  obtain ⟨h1, h2⟩ := Tree.mem_own.mp hbo
  obtain ⟨h3, h4⟩ := Tree.mem_own.mp hbq
  exact hne (ht.lineage.owner o (mem_filter.mp ho).1 q (mem_filter.mp hq).1 b h1 h3 h2 h4)

theorem Books.charged_dir (h : Books t sp) (ht : t.Inv) (hd : Dirs t sp) (ho : t.IsHead o) :
    sp.charged (sp.dirObj o) =
      size (dirBlocks t sp (sp.dirObj o) \ originBlocks t sp (sp.dirObj o)) +
        max 0 ((sp.reserved o : ℤ) - sp.uniqueBytes o) := by
  obtain ⟨hm, hhead⟩ := ho
  have hin : o ∈ t.objs.filter fun q => sp.dirObj q = sp.dirObj o := mem_filter.mpr ⟨hm, rfl⟩
  -- every other dataset of the directory is a snapshot and has no reservation
  have hcost : ∀ q ∈ t.objs.filter (fun q => sp.dirObj q = sp.dirObj o), cost t sp q =
      size (t.own q) + if q = o then max 0 ((sp.reserved o : ℤ) - sp.uniqueBytes o) else 0 := by
    intro q hq
    obtain ⟨hqm, hqd⟩ := mem_filter.mp hq
    rw [cost]
    rcases eq_or_ne q o with rfl | hqo
    · rw [h.unique_head q hm hhead]
      omega
    have hsnap : t.nextSnapObj q ≠ none := by
      rcases hd.window q hqm o hm hqd hqo with hb | hb
      · exact hb.1
      · exact absurd hhead hb.1
    rw [if_neg hqo, h.reserved q hqm hsnap, add_zero]
    exact max_eq_left size_nonneg
  rw [h.charged, hd.size_dir ht, total, ← sum_filter, sum_congr rfl hcost,
    sum_add_distrib, sum_ite_eq' _ o fun _ =>
      max 0 ((sp.reserved o : ℤ) - sp.uniqueBytes o), if_pos hin]

structure Sound (s : State) : Prop where
  inv : s.Inv
  dirs : Dirs s.tree s.space
  books : Books s.tree s.space

/-- `ASSERT(csa->cds->ds_reserved == 0)` of `dsl_dataset_clone_swap_sync`. -/
def Unreserved (s : State) : Event → Prop
  | .cloneSwap cds _ => s.space.reserved cds = 0
  | _ => True

instance (s : State) : (e : Event) → Decidable (Unreserved s e)
  | .cloneSwap cds _ => inferInstanceAs (Decidable (s.space.reserved cds = 0))
  | .sync | .born .. | .kill .. | .snapshot .. | .create .. | .rollback .. | .promote ..
  | .destroy .. | .setReservation .. => inferInstanceAs (Decidable True)

/-- No swap of a history is one of a clone with a refreservation. -/
def UnreservedSwaps (s : State) : List Event → Prop
  | [] => True
  | e :: es => Unreserved s e ∧ ∀ s' ∈ step s e, UnreservedSwaps s' es

instance decidableUnreservedSwaps :
    (s : State) → (es : List Event) → Decidable (UnreservedSwaps s es)
  | _, [] => inferInstanceAs (Decidable True)
  | s, e :: es =>
    have : ∀ s', Decidable (UnreservedSwaps s' es) := fun s' => decidableUnreservedSwaps s' es
    inferInstanceAs (Decidable (Unreserved s e ∧ ∀ s' ∈ step s e, UnreservedSwaps s' es))

theorem newPool_sound (hasOrigin : Bool) : Sound (newPool hasOrigin) := by
  set n' := newPool true
  refine ⟨newPool_inv hasOrigin, ?_, ?_⟩
  · cases hasOrigin with
    | false =>
      have hnone : ∀ o ∈ (newPool false).tree.objs, False := fun o ho => notMem_empty o ho
      exact ⟨fun o ho => (hnone o ho).elim, fun o ho => (hnone o ho).elim,
        fun o ho => (hnone o ho).elim, fun o ho => (hnone o ho).elim⟩
    | true =>
      refine ⟨fun _ _ _ _ => rfl, fun _ _ _ _ => .inl rfl, nofun, ?_⟩
      show ∀ o ∈ n'.tree.objs, ∀ q ∈ n'.tree.objs, _ → o ≠ q →
        (n'.tree.nextSnapObj o ≠ none ∧ n'.tree.creationTxg o ≤
          n'.tree.prevSnapTxg q) ∨ (n'.tree.nextSnapObj q ≠ none ∧
          n'.tree.creationTxg q ≤ n'.tree.prevSnapTxg o)
      decide
  · refine ⟨fun _ _ => rfl, fun _ _ _ => rfl, fun o _ n _ => rfl, fun _ _ _ => rfl, fun X => ?_⟩
    have hzero : ∀ o, cost (newPool hasOrigin).tree (newPool hasOrigin).space o = 0 := fun o => rfl
    exact (sum_eq_zero fun o _ => by rw [hzero, ite_self]).symm

/-- **Step lemma**: every allowed operation keeps the books, except for the swap of a clone with a
    refreservation. -/
theorem Allowed.sound (h : Sound s) (hs : Allowed s e s') (hu : Unreserved s e) : Sound s' := by
  have hi := hs.inv h.inv
  have ht := h.inv.tree
  refine ⟨hi, ?_, ?_⟩
  · cases hs with
    | sync => exact h.dirs.same ⟨rfl, rfl, rfl, rfl, rfl⟩ .refl
    | born head birth txg new => exact h.dirs.same ⟨rfl, rfl, rfl, rfl, rfl⟩ .blockBorn
    | kill head mem => exact h.dirs.same .blockKill .blockKill
    | snapshot head named txg new => exact h.dirs.snapshot ht head txg new
    | create new dir outside choice snap => exact h.dirs.create ht new dir snap
    | rollback head clean => exact h.dirs.same ⟨rfl, rfl, rfl, rfl, rfl⟩ .rollback
    | promote head clone real next => exact h.dirs.promote ht head.1 clone real next
    | cloneSwap clone head prev prev' next parent =>
      exact h.dirs.same ⟨rfl, rfl, rfl, rfl, rfl⟩ .cloneSwap
    | destroySnap mem next children named =>
      exact h.dirs.destroySnap ht mem next children
        (Space.SameDirs.dropReservation.trans .destroySnap)
    | destroyHead head branch =>
      exact h.dirs.destroyHead head (Space.SameDirs.dropReservation.trans .destroyHead)
    | setReservation head => exact h.dirs.same ⟨rfl, rfl, rfl, rfl, rfl⟩ .setReservation
  · cases hs with
    | sync =>
      exact { h.books with }
    | born head birth txg new => exact h.books.blockBorn ht head birth txg new
    | kill head mem => exact h.books.blockKill ht head mem
    | snapshot head named txg new => exact h.books.snapshot ht head new
    | create new dir outside choice snap => exact h.books.create ht new dir snap
    | rollback head clean => exact h.books.rollback ht head
    | promote head clone real next => exact h.books.promote ht h.dirs head.1 clone real next
    | cloneSwap clone head prev prev' next parent =>
      exact h.books.cloneSwap ht clone head (h.inv.swap_ne parent) prev prev' next hu
    | @destroySnap o n mem next children named =>
      have hdrop := (h.books.dropReservation ht mem).1
      refine hdrop.destroySnap ht mem next hi.tree ?_
      rw [Space.SameDirs.dropReservation.dirObj]
      exact h.dirs.next_dir o mem n next
    | destroyHead head branch =>
      obtain ⟨hbooks, hres⟩ := h.books.dropReservation ht head.1
      exact hbooks.destroyHead head hres
    | setReservation head => exact h.books.setReservation ht head

theorem run_sound {es : List Event} (h : Sound s) (hu : UnreservedSwaps s es)
    (hr : run s es = some s') : Sound s' := by
  induction es generalizing s with
  | nil =>
    cases hr
    exact h
  | cons e es ih =>
    obtain ⟨s₁, h₁, hr⟩ := Option.bind_eq_some_iff.mp hr
    exact ih ((Allowed.of_step h₁).sound h hu.1) (hu.2 s₁ h₁) hr

theorem Sound.destroy_frees {n : ℕ} (h : Sound s) (hn : s.tree.nextSnapObj o = some n)
    (hs : step s (.destroy o) = some s') :
    ∃ F, s'.tree.freed = s.tree.freed + F ∧ bytes F = s.space.uniqueBytes o := by
  cases Allowed.of_step hs with
  | destroySnap mem next children named =>
    refine ⟨_, rfl, ?_⟩
    rw [Books.bytes_freed h.inv.tree mem next, h.books.unique_snap o mem _ next]
  | destroyHead head branch => cases hn.symm.trans head.2

/-- **HEADLINE**: after every history without the swap of a clone that has a refreservation,
    `ds_used_bytes` and `ds_unique_bytes` of every dataset and the charge of every directory are
    the sizes of the sets of blocks they stand for, and destroying a snapshot frees exactly its
    `ds_unique_bytes`. -/
theorem space_accounting (hasOrigin : Bool) (es : List Event) (s : State)
    (h : run (newPool hasOrigin) es = some s) (hswap : UnreservedSwaps (newPool hasOrigin) es) :
    (∀ o ∈ s.tree.objs, s.space.usedBytes o = size (s.tree.blocks o)) ∧
    (∀ o ∈ s.tree.objs, ∀ n, s.tree.nextSnapObj o = some n →
      s.space.uniqueBytes o = size (s.tree.blocks o \ (s.tree.before o ∪ s.tree.blocks n))) ∧
    (∀ o ∈ s.tree.objs, s.tree.nextSnapObj o = none →
      s.space.uniqueBytes o = size (s.tree.blocks o \ s.tree.before o) ∧
      s.space.charged (s.space.dirObj o) = size (dirBlocks s.tree s.space (s.space.dirObj o) \
          originBlocks s.tree s.space (s.space.dirObj o)) +
          max 0 ((s.space.reserved o : ℤ) - s.space.uniqueBytes o)) ∧
    ∀ o ∈ s.tree.objs, ∀ n, s.tree.nextSnapObj o = some n → ∀ s', step s (.destroy o) = some s' →
        ∃ F, s'.tree.freed = s.tree.freed + F ∧ bytes F = s.space.uniqueBytes o := by
  have hsound := run_sound (newPool_sound hasOrigin) hswap h
  have ht := hsound.inv.tree
  refine ⟨hsound.books.used, ?_, ?_, ?_⟩
  · intro o ho n hn
    have hsplit : s.tree.blocks o \ (s.tree.before o ∪ s.tree.blocks n) =
        (s.tree.blocks o \ s.tree.before o) \ s.tree.blocks n := sdiff_sdiff_left.symm
    rw [hsplit, ← ht.own_eq ho]
    exact hsound.books.unique_snap o ho n hn
  · intro o ho hhead
    rw [← ht.own_eq ho]
    exact ⟨hsound.books.unique_head o ho hhead, hsound.books.charged_dir ht hsound.dirs ⟨ho, hhead⟩⟩
  · intro o _ n hn s' hs
    exact hsound.destroy_frees hn hs

/-- A file system with a refreservation receives into a clone, which is swapped in; then its
    snapshot is destroyed. -/
def receiveIntoClone : List Event :=
  [.create 2 7 none none, .born 2 ⟨0, 4, 512⟩, .setReservation 2 1024, .snapshot 2 3, .sync,
    .create 4 8 (some 7) (some 3), .kill 4 ⟨0, 4, 512⟩, .born 4 ⟨1, 5, 256⟩, .sync,
    .cloneSwap 4 2, .sync, .destroy 4]

/-- The directory is charged for both blocks and for what the new one leaves of the
    refreservation. -/
theorem space_after_receive : ∃ s, run (newPool true) receiveIntoClone = some s ∧
    s.space.charged 7 = 1536 ∧ s.space.uniqueBytes 3 = 512 ∧ s.space.charged (s.space.dirObj 2) =
      size (dirBlocks s.tree s.space (s.space.dirObj 2) \
        originBlocks s.tree s.space (s.space.dirObj 2)) +
        max 0 ((s.space.reserved 2 : ℤ) - s.space.uniqueBytes 2) := by
  obtain ⟨s, hs, hvals⟩ := Option.map_eq_some_iff.mp
    (show (run (newPool true) receiveIntoClone).map (fun s =>
      (s.space.charged 7, s.space.uniqueBytes 3, decide (2 ∈ s.tree.objs), s.tree.nextSnapObj 2)) =
      some (1536, 512, true, none) by decide)
  obtain ⟨h1, h2, h3, h4⟩ : s.space.charged 7 = 1536 ∧ s.space.uniqueBytes 3 = 512 ∧
      2 ∈ s.tree.objs ∧ s.tree.nextSnapObj 2 = none := by
    simpa using hvals
  exact ⟨s, hs, h1, h2, ((space_accounting true receiveIntoClone s hs (by decide)).2.2.1 2 h3 h4).2⟩

/-- A clone with a refreservation is swapped with the file system it was cloned from. -/
def swapReservedClone : List Event :=
  [.create 2 7 none none, .snapshot 2 3, .sync, .create 4 8 (some 7) (some 3),
    .setReservation 4 100, .born 4 ⟨0, 5, 30⟩, .cloneSwap 4 2]

/-- The clone references nothing of its own any more and its whole refreservation is unused, but
    its directory is charged for 70 bytes of it only. -/
theorem swap_keeps_old_refreservation : ∃ s, run (newPool true) swapReservedClone = some s ∧
    4 ∈ s.tree.objs ∧ s.tree.nextSnapObj 4 = none ∧ s.space.dirObj 4 = 8 ∧ s.space.charged 8 = 70 ∧
    size (dirBlocks s.tree s.space 8 \ originBlocks s.tree s.space 8) +
      max 0 ((s.space.reserved 4 : ℤ) - s.space.uniqueBytes 4) = 100 := by
  obtain ⟨s, hs, hvals⟩ := Option.map_eq_some_iff.mp
    (show (run (newPool true) swapReservedClone).map (fun s =>
      (decide (4 ∈ s.tree.objs), s.tree.nextSnapObj 4, s.space.dirObj 4, s.space.charged 8,
        size (dirBlocks s.tree s.space 8 \ originBlocks s.tree s.space 8) +
          max 0 ((s.space.reserved 4 : ℤ) - s.space.uniqueBytes 4))) =
      some (true, none, 8, 70, 100) by decide)
  refine ⟨s, hs, ?_⟩
  simpa using hvals

end Sirius.Dsl
