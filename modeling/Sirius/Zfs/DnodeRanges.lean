import Sirius.Lib.TreeList
import Sirius.Lib.Tiling

/-! # Pending free ranges: `dn_ranges` of a dnode (`dnode.c`)

    Every txg that is not synced has a tree of block ranges to free.  `dnode_clear_range`
    takes blocks out of it again: from the range found at the first block, or the one before,
    it removes, trims or splits ranges as it goes.  The outcome is that of treating every
    range of the tree (`dnodeClearRange_eq`), so that a tree is a set of blocks, and
    `dnode_block_freed` looks its block up in the four sets. -/

namespace Sirius.DnodeRanges

open Sirius.Lib List Function

/-- `free_range_t`. -/
structure FreeRange where
  frBlkid : ℕ
  frNblks : ℕ
  deriving DecidableEq

/-- `fr_endblk`. -/
def FreeRange.endblk (r : FreeRange) : ℕ := r.frBlkid + r.frNblks

def avlFind (tree : List FreeRange) (blkid : ℕ) : Option FreeRange :=
  tree.find? fun r => r.frBlkid == blkid

def avlWhere (tree : List FreeRange) (blkid : ℕ) : ℕ := place FreeRange.frBlkid tree blkid

def clearOne (blkid endblk : ℕ) (rp : FreeRange) : List FreeRange :=
  if blkid ≤ rp.frBlkid ∧ rp.endblk ≤ endblk then []
  else if blkid ≤ rp.frBlkid ∧ rp.frBlkid < endblk ∧ endblk < rp.endblk then
    [⟨endblk, rp.endblk - endblk⟩]
  else if rp.frBlkid < blkid ∧ blkid < rp.endblk ∧ rp.endblk ≤ endblk then
    [⟨rp.frBlkid, blkid - rp.frBlkid⟩]
  else if rp.frBlkid < blkid ∧ endblk < rp.endblk then
    [⟨rp.frBlkid, blkid - rp.frBlkid⟩, ⟨endblk, rp.endblk - endblk⟩]
  else [rp]

/-- The loop, from `rp` on. -/
def clearFrom (blkid endblk : ℕ) : List FreeRange → List FreeRange
  | [] => []
  | rp :: nrp =>
    if rp.frBlkid ≤ endblk then clearOne blkid endblk rp ++ clearFrom blkid endblk nrp
    else rp :: nrp

/-- `dnode_clear_range`, on the tree of the txg. -/
def dnodeClearRange (tree : List FreeRange) (blkid nblks : ℕ) : List FreeRange :=
  -- the range at `blkid`, else the nearest before it, else the nearest after it: the first one
  let i := if (avlFind tree blkid).isSome then avlWhere tree blkid else avlWhere tree blkid - 1
  tree.take i ++ clearFrom blkid (blkid + nblks) (tree.drop i)

/-- `dnode_free_range` from `done` on; `none` is the failed ASSERT. -/
def addRange (tree : List FreeRange) (blkid nblks : ℕ) : Option (List FreeRange) :=
  let tree := dnodeClearRange tree blkid nblks
  match avlFind tree blkid with
  | some _ => none
  | none => some (insertAt tree (avlWhere tree blkid) ⟨blkid, nblks⟩)

structure Dnode where
  dnRanges : ℕ → List FreeRange
  dnFreeTxg : ℕ

/-- `TXG_SIZE`; `txg & TXG_MASK` is the remainder. -/
def txgSize : ℕ := 4

def dbBonusBlkid : ℕ := 2 ^ 64 - 1

/-- Whether the search of one tree ends the loop of `dnode_block_freed`. -/
def freedIn (tree : List FreeRange) (blkid : ℕ) : Bool :=
  match avlFind tree blkid with
  | some _ => true
  | none => (before tree (avlWhere tree blkid)).any fun r => decide (blkid < r.endblk)

/-- `dnode_block_freed`; `dp` is whether the pool has been opened. -/
def dnodeBlockFreed (dp : Bool) (dn : Dnode) (blkid : ℕ) : Bool :=
  if blkid = dbBonusBlkid then false
  else if dp = false then false
  else if dn.dnFreeTxg ≠ 0 then true
  else (range txgSize).any fun i => freedIn (dn.dnRanges i) blkid

/-! ## Trees as sets of blocks -/

variable {tree l : List FreeRange} {blkid endblk nblks : ℕ} {r : FreeRange}

def Has (tree : List FreeRange) (b : ℕ) : Prop := ∃ r ∈ tree, r.frBlkid ≤ b ∧ b < r.endblk

abbrev InOrder (tree : List FreeRange) : Prop := Ordered FreeRange.frBlkid FreeRange.endblk tree

/-- Disjoint non-empty ranges in order, whose ends are 64-bit numbers. -/
structure Ranges (tree : List FreeRange) : Prop where
  inOrder : InOrder tree
  fits : ∀ r ∈ tree, r.endblk < 2 ^ 64

theorem clearOne_eq_self (hr : r.frBlkid < r.endblk) (hle : blkid ≤ endblk)
    (h : r.endblk ≤ blkid ∨ endblk < r.frBlkid) : clearOne blkid endblk r = [r] := by
  rw [clearOne, if_neg, if_neg, if_neg, if_neg] <;> omega

theorem flatMap_eq_self {f : FreeRange → List FreeRange} (h : ∀ r ∈ l, f r = [r]) :
    l.flatMap f = l := by
  rw [flatMap_congr h]
  exact flatMap_singleton' l

theorem clearOne_spec (hr : r.frBlkid < r.endblk) (hle : blkid ≤ endblk) :
    (∀ q ∈ clearOne blkid endblk r, r.frBlkid ≤ q.frBlkid ∧ q.endblk ≤ r.endblk) ∧
    InOrder (clearOne blkid endblk r) ∧ ∀ b, Has (clearOne blkid endblk r) b ↔
      (r.frBlkid ≤ b ∧ b < r.endblk) ∧ ¬ (blkid ≤ b ∧ b < endblk) := by
  have hnil : InOrder [] := ⟨nofun, Pairwise.nil⟩
  rw [clearOne]
  split_ifs <;> simp [Has, Ordered.cons_iff, hnil, FreeRange.endblk] at * <;> grind

theorem clearFrom_eq (h : InOrder l) (hle : blkid ≤ endblk) :
    clearFrom blkid endblk l = l.flatMap (clearOne blkid endblk) := by
  induction l with
  | nil => rfl
  | cons rp nrp ih =>
    obtain ⟨hrp, hd, hnrp⟩ := Ordered.cons_iff.mp h
    rw [clearFrom]
    split_ifs with hgo
    · rw [flatMap_cons, ih hnrp]
    · -- the ranges after one that lies behind the cleared blocks lie behind them, too
      refine (flatMap_eq_self fun r hr => clearOne_eq_self (h.nonempty r hr) hle (.inr ?_)).symm
      rcases mem_cons.mp hr with rfl | hr
      · omega
      · have := hd r hr
        omega

/-- **HEADLINE**: wherever it starts, the loop treats every range of the tree. -/
theorem dnodeClearRange_eq (h : InOrder tree) :
    dnodeClearRange tree blkid nblks = tree.flatMap (clearOne blkid (blkid + nblks)) := by
  obtain ⟨A, C, rfl, hA, hC⟩ := exists_split blkid h.increasing
  have hw : avlWhere (A ++ C) blkid = A.length := place_append hA hC
  -- the ranges before the start end at or before `blkid`
  have hstart : ∀ A' C', A ++ C = A' ++ C' → (∀ r ∈ A', r.endblk ≤ blkid) →
      A' ++ clearFrom blkid (blkid + nblks) C' =
        (A' ++ C').flatMap (clearOne blkid (blkid + nblks)) := by
    intro A' C' heq hend
    obtain ⟨hA', hC', -⟩ := Ordered.append_iff.mp (heq ▸ h)
    rw [flatMap_append, clearFrom_eq hC' (Nat.le_add_right _ _), flatMap_eq_self fun r hr =>
      clearOne_eq_self (hA'.nonempty r hr) (Nat.le_add_right _ _) (.inl (hend r hr))]
  obtain ⟨hoA, -, hpair⟩ := Ordered.append_iff.mp h
  rw [dnodeClearRange, hw]
  cases hf : avlFind (A ++ C) blkid with
  | some c =>
    have hc : c.frBlkid = blkid := by simpa using find?_some hf
    have hcC : c ∈ C := (mem_append.mp (mem_of_find?_eq_some hf)).resolve_left
      fun hcA => (hA c hcA).ne hc
    simp only [Option.isSome_some, if_true, take_left, drop_left]
    exact hstart A C rfl fun r hr => hc ▸ hpair r hr c hcC
  | none =>
    rcases eq_nil_or_concat' A with rfl | ⟨A, x, rfl⟩
    · exact hstart [] C rfl (by simp)
    have hlast := (Ordered.append_iff.mp hoA).2.2
    simp only [Option.isSome_none, Bool.false_eq_true, if_false, length_append, length_singleton,
      Nat.add_sub_cancel, append_assoc, take_left, drop_left]
    refine hstart A ([x] ++ C) (append_assoc ..) fun r hr => ?_
    exact (hlast r hr x (mem_singleton_self x)).trans (hA x (by simp)).le

theorem dnodeClearRange_spec (h : Ranges tree) (blkid nblks : ℕ) :
    Ranges (dnodeClearRange tree blkid nblks) ∧ ∀ b, Has (dnodeClearRange tree blkid nblks) b ↔
      Has tree b ∧ ¬ (blkid ≤ b ∧ b < blkid + nblks) := by
  have hone := fun r hr => clearOne_spec (h.inOrder.nonempty r hr) (Nat.le_add_right blkid nblks)
  rw [dnodeClearRange_eq h.inOrder]
  refine ⟨⟨⟨fun q hq => ?_, pairwise_flatMap.mpr ⟨fun r hr => (hone r hr).2.1.apart, ?_⟩⟩,
    fun q hq => ?_⟩, fun b => ?_⟩
  · obtain ⟨r, hr, hq⟩ := mem_flatMap.mp hq
    exact (hone r hr).2.1.nonempty q hq
  · refine h.inOrder.apart.imp_of_mem fun {r q} hr hq hrq x hx y hy => ?_
    exact ((hone r hr).1 x hx).2.trans (hrq.trans ((hone q hq).1 y hy).1)
  · obtain ⟨r, hr, hq⟩ := mem_flatMap.mp hq
    exact ((hone r hr).1 q hq).2.trans_lt (h.fits r hr)
  constructor
  · rintro ⟨q, hq, hb⟩
    obtain ⟨r, hr, hq⟩ := mem_flatMap.mp hq
    obtain ⟨hin, hout⟩ := ((hone r hr).2.2 b).mp ⟨q, hq, hb⟩
    exact ⟨⟨r, hr, hin⟩, hout⟩
  · rintro ⟨⟨r, hr, hin⟩, hout⟩
    obtain ⟨q, hq, hb⟩ := ((hone r hr).2.2 b).mpr ⟨hin, hout⟩
    exact ⟨q, mem_flatMap.mpr ⟨r, hr, hq⟩, hb⟩

/-- **FREEING** adds exactly the given blocks, and its ASSERT holds. -/
theorem addRange_spec (h : Ranges tree) (hn : 0 < nblks) (hend : blkid + nblks < 2 ^ 64) :
    ∃ tree', addRange tree blkid nblks = some tree' ∧ Ranges tree' ∧
      ∀ b, Has tree' b ↔ Has tree b ∨ (blkid ≤ b ∧ b < blkid + nblks) := by
  obtain ⟨hr, hhas⟩ := dnodeClearRange_spec h blkid nblks
  rw [addRange]
  generalize dnodeClearRange tree blkid nblks = t at *
  -- a range holds its first block, so none begins among the cleared ones
  have hfree : ∀ r ∈ t, ∀ b, r.frBlkid ≤ b → b < r.endblk → ¬ (blkid ≤ b ∧ b < blkid + nblks) :=
    fun r hrt b h1 h2 => ((hhas b).mp ⟨r, hrt, h1, h2⟩).2
  obtain ⟨A, C, rfl, hA, hC⟩ := exists_split blkid hr.inOrder.increasing
  have hw : avlWhere (A ++ C) blkid = A.length := place_append hA hC
  have hpre : ∀ a ∈ A, a.endblk ≤ blkid := by
    intro a ha
    have := hfree a (mem_append_left C ha) blkid (hA a ha).le
    omega
  have hpost : ∀ c ∈ C, blkid + nblks ≤ c.frBlkid := by
    intro c hc
    have hct := mem_append_right A hc
    have := hfree c hct c.frBlkid le_rfl (hr.inOrder.nonempty c hct)
    have := hC c hc
    omega
  have hnone : avlFind (A ++ C) blkid = none := by
    refine find?_eq_none.mpr fun r hrt hkey => ?_
    have hkey : r.frBlkid = blkid := by simpa using hkey
    exact hfree r hrt blkid hkey.le (hkey ▸ hr.inOrder.nonempty r hrt) ⟨le_rfl, by omega⟩
  obtain ⟨hoA, hoC, hAC⟩ := Ordered.append_iff.mp hr.inOrder
  obtain ⟨hfA, hfC⟩ := forall_mem_append.mp hr.fits
  refine ⟨A ++ ⟨blkid, nblks⟩ :: C, by simp only [hnone, hw, insertAt_append], ⟨?_, ?_⟩, ?_⟩
  · exact Ordered.append_iff.mpr ⟨hoA,
      Ordered.cons_iff.mpr ⟨Nat.lt_add_of_pos_right hn, hpost, hoC⟩,
      fun a ha => forall_mem_cons.mpr ⟨hpre a ha, hAC a ha⟩⟩
  · exact forall_mem_append.mpr ⟨hfA, forall_mem_cons.mpr ⟨hend, hfC⟩⟩
  intro b
  have hold := hhas b
  simp only [Has, mem_append, mem_cons, or_and_right, exists_or, exists_eq_left] at hold ⊢
  rw [show FreeRange.endblk ⟨blkid, nblks⟩ = blkid + nblks from rfl]
  grind

/-- **THE SEARCH**: the range at the block, or the one before it, has the block if any has. -/
theorem freedIn_iff (h : InOrder tree) : freedIn tree blkid = true ↔ Has tree blkid := by
  obtain ⟨A, C, rfl, hA, hC⟩ := exists_split blkid h.increasing
  have hw : avlWhere (A ++ C) blkid = A.length := place_append hA hC
  rw [freedIn, hw, before_append]
  cases hf : avlFind (A ++ C) blkid with
  | some c =>
    have hmem := mem_of_find?_eq_some hf
    have hc : c.frBlkid = blkid := by simpa using find?_some hf
    exact iff_of_true rfl ⟨c, hmem, hc.le, hc ▸ h.nonempty c hmem⟩
  | none =>
    have hin : ∀ r ∈ A ++ C, r.frBlkid ≤ blkid → r ∈ A := by
      intro r hr hle
      have hne : r.frBlkid ≠ blkid := by simpa using find?_eq_none.mp hf r hr
      exact (mem_append.mp hr).resolve_right fun hrC => hne (le_antisymm hle (hC r hrC))
    rcases eq_nil_or_concat' A with rfl | ⟨A, x, rfl⟩
    · refine iff_of_false (by simp) ?_
      rintro ⟨r, hr, hle, -⟩
      exact absurd (hin r hr hle) not_mem_nil
    have hlast := (Ordered.append_iff.mp (Ordered.append_iff.mp h).1).2.2
    have hx := hA x (by simp)
    rw [getLast?_concat, Option.any_some, decide_eq_true_iff]
    constructor
    · exact fun hlt => ⟨x, by simp, hx.le, hlt⟩
    · rintro ⟨r, hr, hle, hlt⟩
      rcases mem_append.mp (hin r hr hle) with hrA | hrx
      · exact absurd (hlast r hrA x (mem_singleton_self x)) (by omega)
      · rwa [mem_singleton.mp hrx] at hlt

inductive Kind
  /-- `dnode_free_range` of whole blocks. -/
  | free
  | clear

structure Op where
  kind : Kind
  txg : ℕ
  blkid : ℕ
  nblks : ℕ

/-- `txg & TXG_MASK`. -/
def Op.slot (op : Op) : ℕ := op.txg % txgSize

def Op.Asserted (op : Op) : Prop :=
  op.blkid + op.nblks < 2 ^ 64 ∧ match op.kind with
    | .free => 0 < op.nblks
    | .clear => True

def Op.edit (op : Op) (tree : List FreeRange) : Option (List FreeRange) :=
  match op.kind with
  | .free => addRange tree op.blkid op.nblks
  | .clear => some (dnodeClearRange tree op.blkid op.nblks)

def step (dn : Dnode) (op : Op) : Option Dnode :=
  (op.edit (dn.dnRanges op.slot)).map fun tree =>
    { dn with dnRanges := update dn.dnRanges op.slot tree }

def Op.onSet (op : Op) (S : ℕ → Prop) (b : ℕ) : Prop :=
  match op.kind with
  | .free => S b ∨ (op.blkid ≤ b ∧ b < op.blkid + op.nblks)
  | .clear => S b ∧ ¬ (op.blkid ≤ b ∧ b < op.blkid + op.nblks)

def pending (P : ℕ → ℕ → Prop) (op : Op) : ℕ → ℕ → Prop := update P op.slot (op.onSet (P op.slot))

def Dnode.blocks (dn : Dnode) (i : ℕ) : ℕ → Prop := Has (dn.dnRanges i)

variable {dn : Dnode} {op : Op}

theorem edit_spec (h : Ranges tree) (hop : op.Asserted) :
    ∃ tree', op.edit tree = some tree' ∧ Ranges tree' ∧ Has tree' = op.onSet (Has tree) := by
  obtain ⟨kind, txg, blkid, nblks⟩ := op
  cases kind with
  | free =>
    obtain ⟨tree', heq, ht, hhas⟩ := addRange_spec h hop.2 hop.1
    exact ⟨tree', heq, ht, funext fun b => propext (hhas b)⟩
  | clear =>
    obtain ⟨ht, hhas⟩ := dnodeClearRange_spec h blkid nblks
    exact ⟨_, rfl, ht, funext fun b => propext (hhas b)⟩

theorem step_spec (h : ∀ i, Ranges (dn.dnRanges i)) (hop : op.Asserted) :
    ∃ dn', step dn op = some dn' ∧ dn'.dnFreeTxg = dn.dnFreeTxg ∧
      (∀ i, Ranges (dn'.dnRanges i)) ∧ dn'.blocks = pending dn.blocks op := by
  obtain ⟨tree', heq, ht, hhas⟩ := edit_spec (h op.slot) hop
  refine ⟨⟨update dn.dnRanges op.slot tree', dn.dnFreeTxg⟩, by rw [step, heq]; rfl, rfl, ?_, ?_⟩
  · exact (forall_update_iff dn.dnRanges fun _ t => Ranges t).mpr ⟨ht, fun i _ => h i⟩
  · exact (comp_update Has dn.dnRanges op.slot tree').trans (congrArg (update _ op.slot) hhas)

theorem run_spec {ops : List Op} (h : ∀ i, Ranges (dn.dnRanges i))
    (hops : ∀ op ∈ ops, op.Asserted) :
    ∃ dn', ops.foldlM step dn = some dn' ∧ dn'.dnFreeTxg = dn.dnFreeTxg ∧
      (∀ i, Ranges (dn'.dnRanges i)) ∧ dn'.blocks = ops.foldl pending dn.blocks := by
  induction ops generalizing dn with
  | nil => exact ⟨dn, rfl, rfl, h, rfl⟩
  | cons op ops ih =>
    obtain ⟨hop, hops⟩ := forall_mem_cons.mp hops
    obtain ⟨dn₁, hstep, hfree, h₁, hset⟩ := step_spec h hop
    obtain ⟨dn', hrun, hfree', h', hset'⟩ := ih h₁ hops
    refine ⟨dn', ?_, hfree'.trans hfree, h', by rw [hset', hset, foldl_cons]⟩
    rw [foldlM_cons, hstep]
    exact hrun

/-- **HEADLINE**: pending free ranges are sets of blocks.  After any frees and clears in any txgs
    the trees hold disjoint non-empty ranges, and their blocks are those that the operations added
    and did not remove; `dnode_block_freed` answers for the blocks of an open pool, the bonus buffer
    apart, whether one of the sets has the block or the object is being freed. -/
theorem free_ranges_are_sets (ops : List Op) (hops : ∀ op ∈ ops, op.Asserted) (freeTxg : ℕ)
    (dp : Bool) :
    ∃ dn, ops.foldlM step ⟨fun _ => [], freeTxg⟩ = some dn ∧
      (∀ i, Ranges (dn.dnRanges i)) ∧ dn.blocks = ops.foldl pending (fun _ _ => False) ∧
      ∀ b, dnodeBlockFreed dp dn b = true ↔
        b ≠ dbBonusBlkid ∧ dp = true ∧ (freeTxg ≠ 0 ∨ ∃ i < txgSize, dn.blocks i b) := by
  have hempty : (Dnode.mk (fun _ => []) freeTxg).blocks = fun _ _ => False :=
    funext fun _ => funext fun _ => by simp [Dnode.blocks, Has]
  obtain ⟨dn, hrun, hfree, h, hset⟩ := @run_spec ⟨fun _ => [], freeTxg⟩ ops
    (fun _ => ⟨⟨nofun, Pairwise.nil⟩, nofun⟩) hops
  refine ⟨dn, hrun, h, hempty ▸ hset, fun b => ?_⟩
  have hany : ((range txgSize).any fun i => freedIn (dn.dnRanges i) b) = true ↔
      ∃ i < txgSize, dn.blocks i b := by
    simp only [any_eq_true, mem_range, freedIn_iff (h _).inOrder, Dnode.blocks]
  have hfree : dn.dnFreeTxg = freeTxg := hfree
  rw [dnodeBlockFreed, hfree, ← hany]
  split_ifs <;> simp_all

/-- Three blocks are freed and the second is written again: two ranges are left. -/
theorem free_ranges_split :
    ∃ dn, [Op.mk .free 9 4 3, ⟨.clear, 9, 5, 1⟩].foldlM step ⟨fun _ => [], 0⟩ = some dn ∧
      ∀ b, dnodeBlockFreed true dn b = true ↔ b = 4 ∨ b = 6 := by
  obtain ⟨dn, hrun, -, hset, hfreed⟩ := free_ranges_are_sets [⟨.free, 9, 4, 3⟩, ⟨.clear, 9, 5, 1⟩]
    (by simp [Op.Asserted]) 0 true
  refine ⟨dn, hrun, fun b => (hfreed b).trans ?_⟩
  rw [hset]
  simp only [foldl_cons, foldl_nil, pending, update_apply, ite_apply, Op.onSet, Op.slot, txgSize,
    dbBonusBlkid]
  constructor
  · grind
  · exact fun hb => ⟨by omega, trivial, .inr ⟨1, by decide, by simp only [if_true]; omega⟩⟩

/-- The bonus buffer of an object that is being freed is not reported as freed. -/
theorem bonus_not_freed : dnodeBlockFreed true ⟨fun _ => [], 7⟩ dbBonusBlkid = false := rfl

end Sirius.DnodeRanges
