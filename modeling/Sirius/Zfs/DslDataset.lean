import Mathlib.Algebra.Ring.Int.Defs
import Mathlib.Algebra.BigOperators.Group.Finset.Basic

/-! # Datasets, snapshots and clones: `dsl_dataset.c`

    The fields of `dsl_dataset_phys_t` are one function each from object numbers; `objs` are
    the objects that exist.  `Tree` is what decides the life of a block: the links between
    datasets, their txgs, their deadlists, and for every `ds_bp` the set of blocks it leads
    to.  `Space` is the accounting: `ds_used_bytes`, `ds_unique_bytes`, `ds_reserved`, and per
    directory its origin and the bytes charged for its datasets.

    Every operation is one definition: what the `_check` function checks, then the two halves
    of the `_sync` function. -/

namespace Sirius.Dsl

open Function Option

/-- A block pointer: its address, the txg it was born in, and the space `bp_get_dasize` finds. -/
structure Blkptr where
  dva : ℕ
  birth : ℕ
  dasize : ℕ
deriving DecidableEq

def txgInitial : ℕ := 4

/-- What `bplist_space` adds up. -/
def bytes (l : Multiset Blkptr) : ℤ := (l.map fun b => (b.dasize : ℤ)).sum

structure Tree where
  /-- `tx->tx_txg` of the operation at hand -/
  txg : ℕ
  objs : Finset ℕ
  prevSnapObj : ℕ → Option ℕ
  prevSnapTxg : ℕ → ℕ
  nextSnapObj : ℕ → Option ℕ
  creationTxg : ℕ → ℕ
  numChildren : ℕ → ℕ
  deadlist : ℕ → Multiset Blkptr
  /-- the blocks that `traverse_dsl_dataset(ds, 0)` visits -/
  blocks : ℕ → Finset Blkptr
  /-- `ds_bp.blk_birth` -/
  bpBirth : ℕ → ℕ
  /-- `dp_origin_snap`, in pools that have one -/
  originSnap : Option ℕ
  /-- every block that was ever born -/
  born : Finset Blkptr
  /-- the blocks passed to `dsl_free`, as often as they were -/
  freed : Multiset Blkptr

structure Space where
  dirObj : ℕ → ℕ
  usedBytes : ℕ → ℤ
  uniqueBytes : ℕ → ℤ
  /-- `DS_FLAG_UNIQUE_ACCURATE` -/
  accurate : ℕ → Bool
  reserved : ℕ → ℕ
  /-- `dd_parent` of a directory -/
  parent : ℕ → Option ℕ
  /-- `dd_origin_obj` of a directory -/
  originObj : ℕ → Option ℕ
  /-- what `dsl_dir_diduse_space` was told about the datasets of a directory -/
  charged : ℕ → ℤ

structure State where
  tree : Tree
  space : Space

namespace Tree

variable (t : Tree)

def IsHead (o : ℕ) : Prop := o ∈ t.objs ∧ t.nextSnapObj o = none

instance (o : ℕ) : Decidable (t.IsHead o) := inferInstanceAs (Decidable (_ ∧ _))

/-- A dataset that a name can be given for: neither the pool's origin snapshot nor the dataset it
    was taken of, whose directory is called `$ORIGIN`. -/
def Named (o : ℕ) : Prop := ∀ p ∈ t.originSnap, o ≠ p ∧ t.nextSnapObj p ≠ some o

instance (o : ℕ) : Decidable (t.Named o) :=
  inferInstanceAs (Decidable (∀ p ∈ t.originSnap, o ≠ p ∧ t.nextSnapObj p ≠ some o))

/-- What `traverse_dsl_dataset(ds, ds_prev_snap_txg)` visits. -/
def own (o : ℕ) : Finset Blkptr := (t.blocks o).filter fun b => t.prevSnapTxg o < b.birth

/-- The previous dataset of `old` now points to `new` if it pointed to `old`. -/
def relink (old new : ℕ) : ℕ → Option ℕ := fun p =>
  if t.prevSnapObj old = some p ∧ t.nextSnapObj p = some old then some new else t.nextSnapObj p

end Tree

def parentDelta (sp : Space) (o : ℕ) (delta : ℤ) : ℤ :=
  if sp.reserved o = 0 then delta
  else max (sp.uniqueBytes o + delta) (sp.reserved o) - max (sp.uniqueBytes o) (sp.reserved o)

/-- `dsl_dir_diduse_space`, for the directory itself. -/
def dslDirDiduseSpace (sp : Space) (dd : ℕ) (used : ℤ) : Space :=
  { sp with charged := update sp.charged dd (sp.charged dd + used) }

/-- The value that `dsl_dataset_recalc_head_uniq` stores. -/
def dslDatasetRecalcHeadUniq (t : Tree) (sp : Space) (o : ℕ) : ℤ :=
  let mrsUsed : ℤ := (t.prevSnapObj o).elim 0 sp.usedBytes
  sp.usedBytes o - (mrsUsed - bytes (t.deadlist o))

/-- `dsl_dataset_unique`: the value it returns. -/
def dslDatasetUnique (t : Tree) (sp : Space) (o : ℕ) : ℤ :=
  if sp.accurate o = false ∧ t.nextSnapObj o = none then dslDatasetRecalcHeadUniq t sp o
  else sp.uniqueBytes o

/-! ## Blocks are born and killed -/

def Tree.blockBorn (t : Tree) (o : ℕ) (bp : Blkptr) : Tree :=
  { t with
    blocks := update t.blocks o (insert bp (t.blocks o))
    bpBirth := update t.bpBirth o t.txg
    born := insert bp t.born }

def Space.blockBorn (sp : Space) (o : ℕ) (bp : Blkptr) : Space :=
  dslDirDiduseSpace { sp with
      usedBytes := update sp.usedBytes o (sp.usedBytes o + bp.dasize)
      uniqueBytes := update sp.uniqueBytes o (sp.uniqueBytes o + bp.dasize) }
    (sp.dirObj o) (parentDelta sp o bp.dasize)

/-- `dsl_dataset_block_born`.  A block is new and carries the txg of its birth.  The data of a
    txg is written before its sync tasks run, so the dataset has no snapshot of this txg yet. -/
def dslDatasetBlockBorn (s : State) (o : ℕ) (bp : Blkptr) : Option State :=
  if s.tree.IsHead o ∧ bp.birth = s.tree.txg ∧ s.tree.prevSnapTxg o < s.tree.txg ∧
      bp ∉ s.tree.born then
    some ⟨s.tree.blockBorn o bp, s.space.blockBorn o bp⟩
  else none

def Tree.blockKill (t : Tree) (o : ℕ) (bp : Blkptr) : Tree :=
  if t.prevSnapTxg o < bp.birth then
    { t with
      blocks := update t.blocks o ((t.blocks o).erase bp)
      bpBirth := update t.bpBirth o t.txg
      freed := bp ::ₘ t.freed }
  else
    { t with
      blocks := update t.blocks o ((t.blocks o).erase bp)
      bpBirth := update t.bpBirth o t.txg
      deadlist := update t.deadlist o (bp ::ₘ t.deadlist o) }

def Space.blockKill (t : Tree) (sp : Space) (o : ℕ) (bp : Blkptr) : Space :=
  let used : ℤ := bp.dasize
  let sp' : Space :=
    if t.prevSnapTxg o < bp.birth then
      dslDirDiduseSpace { sp with uniqueBytes := update sp.uniqueBytes o (sp.uniqueBytes o - used) }
        (sp.dirObj o) (parentDelta sp o (-used))
    else
      { sp with
        uniqueBytes := fun p =>
          if t.prevSnapObj o = some p ∧ t.nextSnapObj p = some o ∧ t.prevSnapTxg p < bp.birth then
            sp.uniqueBytes p + used
          else sp.uniqueBytes p }
  { sp' with usedBytes := update sp.usedBytes o (sp.usedBytes o - used) }

/-- `dsl_dataset_block_kill` of a block the dataset references. -/
def dslDatasetBlockKill (s : State) (o : ℕ) (bp : Blkptr) : Option State :=
  if s.tree.IsHead o ∧ bp ∈ s.tree.blocks o then
    some ⟨s.tree.blockKill o bp, Space.blockKill s.tree s.space o bp⟩
  else none

def Tree.snapshot (t : Tree) (o n : ℕ) : Tree :=
  { t with
    objs := insert n t.objs
    prevSnapObj := update (update t.prevSnapObj n (t.prevSnapObj o)) o (some n)
    prevSnapTxg := update (update t.prevSnapTxg n (t.prevSnapTxg o)) o t.txg
    nextSnapObj := update (t.relink o n) n (some o)
    creationTxg := update t.creationTxg n t.txg
    numChildren := update t.numChildren n 1
    deadlist := update (update t.deadlist n (t.deadlist o)) o 0
    blocks := update t.blocks n (t.blocks o)
    bpBirth := update t.bpBirth n (t.bpBirth o) }

def Space.snapshot (t : Tree) (sp : Space) (o n : ℕ) : Space :=
  let add : ℤ :=
    if sp.reserved o = 0 then 0 else min (dslDatasetUnique t sp o) (sp.reserved o)
  dslDirDiduseSpace { sp with
      dirObj := update sp.dirObj n (sp.dirObj o)
      usedBytes := update sp.usedBytes n (sp.usedBytes o)
      uniqueBytes := update (update sp.uniqueBytes n 0) o 0
      accurate := update (update sp.accurate n (sp.accurate o)) o true
      reserved := update sp.reserved n 0 }
    (sp.dirObj o) add

/-- `dsl_dataset_snapshot_check` and `dsl_dataset_snapshot_sync`; `n` is the new object. -/
def dslDatasetSnapshotSync (s : State) (o n : ℕ) : Option State :=
  if s.tree.IsHead o ∧ s.tree.Named o ∧ s.tree.prevSnapTxg o < s.tree.txg ∧ n ∉ s.tree.objs then
    some ⟨s.tree.snapshot o n, Space.snapshot s.tree s.space o n⟩
  else none

def Tree.create (t : Tree) (n : ℕ) : Option ℕ → Tree
  | some p =>
    { t with
      objs := insert n t.objs
      prevSnapObj := update t.prevSnapObj n (some p)
      prevSnapTxg := update t.prevSnapTxg n (t.creationTxg p)
      nextSnapObj := update t.nextSnapObj n none
      creationTxg := update t.creationTxg n (if t.txg = txgInitial then 1 else t.txg)
      numChildren := update (update t.numChildren p (t.numChildren p + 1)) n 0
      deadlist := update t.deadlist n 0
      blocks := update t.blocks n (t.blocks p)
      bpBirth := update t.bpBirth n (t.bpBirth p) }
  | none =>
    { t with
      objs := insert n t.objs
      prevSnapObj := update t.prevSnapObj n none
      prevSnapTxg := update t.prevSnapTxg n 0
      nextSnapObj := update t.nextSnapObj n none
      creationTxg := update t.creationTxg n (if t.txg = txgInitial then 1 else t.txg)
      numChildren := update t.numChildren n 0
      deadlist := update t.deadlist n 0
      blocks := update t.blocks n ∅
      bpBirth := update t.bpBirth n 0 }

def Space.create (sp : Space) (n dd : ℕ) (parent origin : Option ℕ) : Space :=
  { sp with
    dirObj := update sp.dirObj n dd
    usedBytes := update sp.usedBytes n (origin.elim 0 sp.usedBytes)
    uniqueBytes := update sp.uniqueBytes n 0
    accurate := update sp.accurate n true
    reserved := update sp.reserved n 0
    parent := update sp.parent dd parent
    originObj := update sp.originObj dd origin
    charged := update sp.charged dd 0 }

/-- `dsl_dataset_create_sync_dd`: a dataset `n` in the new directory `dd`, cloned from `origin`
    or, without one, from the pool's origin snapshot. -/
def dslDatasetCreateSyncDd (s : State) (n dd : ℕ) (parent origin : Option ℕ) : Option State :=
  let origin := origin <|> s.tree.originSnap
  if n ∉ s.tree.objs ∧ (∀ o ∈ s.tree.objs, s.space.dirObj o ≠ dd) ∧ parent ≠ some dd ∧
      ∀ p ∈ origin, p ∈ s.tree.objs ∧ s.tree.nextSnapObj p ≠ none then
    some ⟨s.tree.create n origin, s.space.create n dd parent origin⟩
  else none

/-- What a rollback goes back to: the previous snapshot, or emptiness. -/
def Tree.rollbackTo (t : Tree) (o : ℕ) : Option ℕ :=
  (t.prevSnapObj o).filter fun p => decide (t.originSnap ≠ some p)

def Tree.rollback (t : Tree) (o : ℕ) : Tree :=
  { t with
    deadlist := update t.deadlist o 0
    freed := t.freed + (t.own o).val
    blocks := update t.blocks o ((t.rollbackTo o).elim ∅ t.blocks)
    bpBirth := update t.bpBirth o ((t.rollbackTo o).elim 0 t.bpBirth) }

def Space.rollback (t : Tree) (sp : Space) (o : ℕ) : Space :=
  let sp := dslDirDiduseSpace sp (sp.dirObj o) (parentDelta sp o (-bytes (t.own o).val))
  match t.rollbackTo o with
  | some p =>
    { sp with
      usedBytes := update sp.usedBytes o (sp.usedBytes p)
      accurate := update sp.accurate o (sp.accurate p)
      uniqueBytes :=
        let unique := update sp.uniqueBytes o 0
        if t.nextSnapObj p = some o then update unique p 0 else unique }
  | none =>
    { sp with
      usedBytes := update sp.usedBytes o 0
      accurate := update sp.accurate o false
      uniqueBytes := update sp.uniqueBytes o 0 }

/-- `dsl_dataset_rollback_check` and `dsl_dataset_rollback_sync`. -/
def dslDatasetRollbackSync (s : State) (o : ℕ) : Option State :=
  if s.tree.IsHead o ∧ s.tree.bpBirth o < s.tree.txg then
    some ⟨s.tree.rollback o, Space.rollback s.tree s.space o⟩
  else none

/-- The walk of `dsl_dataset_promote` back from the clone's origin: the snapshots to move and, if
    it stops at a branch point, `clone_origin`.  The txgs decrease, so `txg` rounds are enough. -/
def snapList (t : Tree) : ℕ → Option ℕ → Option ℕ → List ℕ × Option ℕ
  | 0, _, _ | _ + 1, _, none => ([], none)
  | fuel + 1, last, some o =>
    if t.originSnap = some o then ([], none)
    else if ∃ l ∈ last, t.nextSnapObj o ≠ some l then ([], some o)
    else
      let r := snapList t fuel (some o) (t.prevSnapObj o)
      (o :: r.1, r.2)

/-- The loop of `dsl_dataset_promote_check` that finds the origin's new next dataset. -/
def newNext (t : Tree) (origin : ℕ) : ℕ → ℕ → Option ℕ
  | 0, _ => none
  | fuel + 1, o =>
    if t.prevSnapObj o = some origin then some o
    else match t.prevSnapObj o with
      | some p => newNext t origin fuel p
      | none => none

def Tree.promote (t : Tree) (origin new : ℕ) : Tree :=
  { t with nextSnapObj := update t.nextSnapObj origin (some new) }

/-- `pa->used`. -/
def promoteUsed (t : Tree) (sp : Space) (origin : ℕ) (snaps : List ℕ) (cloneOrigin : Option ℕ) :
    ℤ :=
  sp.usedBytes origin +
    (snaps.map fun o => if t.prevSnapObj o = none then 0 else bytes (t.deadlist o)).sum -
    cloneOrigin.elim 0 sp.usedBytes

def Space.promote (t : Tree) (sp : Space) (hds origin new : ℕ) : Space :=
  let (snaps, cloneOrigin) := snapList t (t.txg + 1) none (some origin)
  let used := promoteUsed t sp origin snaps cloneOrigin
  let dd := sp.dirObj hds
  let odd := sp.dirObj origin
  let sp' : Space :=
    { sp with
      originObj := update (update sp.originObj dd (sp.originObj odd)) odd (some origin)
      dirObj := fun o => if o ∈ snaps then dd else sp.dirObj o
      uniqueBytes := update sp.uniqueBytes origin
        (bytes ((t.deadlist new).filter fun b => t.prevSnapTxg origin < b.birth)) }
  dslDirDiduseSpace (dslDirDiduseSpace sp' odd (-used)) dd used

/-- `dsl_dataset_promote`, `dsl_dataset_promote_check` and `dsl_dataset_promote_sync`: the
    snapshots are owned from the walk to the end, so nothing moves in between. -/
def dslDatasetPromoteSync (s : State) (hds : ℕ) : Option State :=
  if s.tree.IsHead hds then
    match s.space.originObj (s.space.dirObj hds) with
    | some origin =>
      -- `dsl_dir_is_clone`
      if s.tree.originSnap = some origin then none
      else match newNext s.tree origin (s.tree.txg + 1) hds with
        | some new => some ⟨s.tree.promote origin new, Space.promote s.tree s.space hds origin new⟩
        | none => none
    | none => none
  else none

def Tree.cloneSwap (t : Tree) (cds ohds : ℕ) : Tree :=
  { t with
    blocks := update (update t.blocks cds (t.blocks ohds)) ohds (t.blocks cds)
    bpBirth := update (update t.bpBirth cds (t.bpBirth ohds)) ohds (t.bpBirth cds)
    deadlist := update (update t.deadlist cds (t.deadlist ohds)) ohds (t.deadlist cds) }

def Space.cloneSwap (t : Tree) (sp : Space) (cds ohds p : ℕ) : Space :=
  let unique := bytes ((t.deadlist cds).filter fun b => t.prevSnapTxg p < b.birth)
  let dused := sp.usedBytes cds + bytes (t.deadlist cds) -
    (sp.usedBytes ohds + bytes (t.deadlist ohds))
  let unusedRefresDelta : ℤ := min (sp.reserved ohds : ℤ) (sp.uniqueBytes ohds) -
    min (sp.reserved ohds : ℤ) (sp.uniqueBytes cds)
  let sp' : Space :=
    { sp with
      usedBytes := update (update sp.usedBytes cds (sp.usedBytes ohds)) ohds (sp.usedBytes cds)
      uniqueBytes := update
        (update (update sp.uniqueBytes p unique) cds (sp.uniqueBytes ohds)) ohds
        (sp.uniqueBytes cds) }
  dslDirDiduseSpace
    (dslDirDiduseSpace (dslDirDiduseSpace sp' (sp.dirObj ohds) dused) (sp.dirObj cds) (-dused))
    (sp.dirObj ohds) unusedRefresDelta

/-- `dsl_dataset_clone_swap_check` and `dsl_dataset_clone_swap_sync`. -/
def dslDatasetCloneSwapSync (s : State) (cds ohds : ℕ) : Option State :=
  match s.tree.prevSnapObj cds with
  | some p =>
    if s.tree.IsHead cds ∧ s.tree.IsHead ohds ∧ s.tree.prevSnapObj ohds = some p ∧
        s.tree.nextSnapObj p = some ohds ∧
        s.space.parent (s.space.dirObj cds) = some (s.space.dirObj ohds) then
      some ⟨s.tree.cloneSwap cds ohds, Space.cloneSwap s.tree s.space cds ohds p⟩
    else none
  | none => none

/-- `dsl_dataset_set_reservation_sync`. -/
def Space.setReservation (t : Tree) (sp : Space) (o new : ℕ) : Space :=
  let unique := dslDatasetUnique t sp o
  let delta := max 0 ((new : ℤ) - unique) - max 0 ((sp.reserved o : ℤ) - unique)
  dslDirDiduseSpace { sp with
      reserved := update sp.reserved o new
      uniqueBytes := update sp.uniqueBytes o unique
      accurate := update sp.accurate o true }
    (sp.dirObj o) delta

/-- `dsl_dataset_set_reservation_check` and `dsl_dataset_set_reservation_sync`. -/
def dslDatasetSetReservationSync (s : State) (o new : ℕ) : Option State :=
  if s.tree.IsHead o then some ⟨s.tree, Space.setReservation s.tree s.space o new⟩ else none

/-- The first thing `dsl_dataset_destroy_sync` does: "Remove our reservation". -/
def Space.dropReservation (t : Tree) (sp : Space) (o : ℕ) : Space :=
  if sp.reserved o = 0 then sp else Space.setReservation t sp o 0

def Tree.destroySnap (t : Tree) (o n : ℕ) : Tree :=
  { t with
    objs := t.objs.erase o
    nextSnapObj := t.relink o n
    prevSnapObj := update t.prevSnapObj n (t.prevSnapObj o)
    prevSnapTxg := update t.prevSnapTxg n (t.prevSnapTxg o)
    deadlist := update t.deadlist n
      (t.deadlist o + (t.deadlist n).filter fun b => b.birth ≤ t.prevSnapTxg o)
    freed := t.freed + (t.deadlist n).filter fun b => ¬b.birth ≤ t.prevSnapTxg o }

/-- The loop over the next dataset's deadlist adds to the previous snapshot's unique bytes what
    only that one keeps from here on. -/
def Space.uniqueToPrev (t : Tree) (sp : Space) (o n : ℕ) : Space :=
  { sp with
    uniqueBytes := fun p =>
      if t.prevSnapObj o = some p ∧ t.nextSnapObj p = some o then
        sp.uniqueBytes p + bytes ((t.deadlist n).filter fun b =>
          b.birth ≤ t.prevSnapTxg o ∧ t.prevSnapTxg p < b.birth)
      else sp.uniqueBytes p }

def Space.destroySnap (t : Tree) (sp : Space) (o n : ℕ) : Space :=
  let oldUnique := dslDatasetUnique t sp n
  let used := bytes ((t.deadlist n).filter fun b => ¬b.birth ≤ t.prevSnapTxg o)
  let sp1 := Space.uniqueToPrev t sp o n
  let sp2 : Space :=
    match t.nextSnapObj n with
    | some a =>
      { sp1 with
        uniqueBytes := update sp1.uniqueBytes n (sp1.uniqueBytes n +
          bytes ((t.deadlist a).filter fun b =>
            t.prevSnapTxg o < b.birth ∧ b.birth ≤ t.creationTxg o)) }
    | none =>
      let newUnique := dslDatasetRecalcHeadUniq (t.destroySnap o n) sp1 n
      let sp' : Space :=
        { sp1 with
          uniqueBytes := update sp1.uniqueBytes n newUnique
          accurate := update sp1.accurate n true }
      if oldUnique < sp.reserved n then
        dslDirDiduseSpace sp' (sp.dirObj o)
          (-min (newUnique - oldUnique) (sp.reserved n - oldUnique))
      else sp'
  dslDirDiduseSpace sp2 (sp.dirObj o) (-used)

def Tree.destroyHead (t : Tree) (o : ℕ) : Tree :=
  { t with
    objs := t.objs.erase o
    numChildren := fun p =>
      if t.prevSnapObj o = some p then t.numChildren p - 1 else t.numChildren p
    freed := t.freed + (t.own o).val }

def Space.destroyHead (t : Tree) (sp : Space) (o : ℕ) : Space :=
  dslDirDiduseSpace sp (sp.dirObj o) (-bytes (t.own o).val)

/-- `dsl_dataset_destroy_check` and `dsl_dataset_destroy_sync`. -/
def dslDatasetDestroySync (s : State) (o : ℕ) : Option State :=
  if o ∈ s.tree.objs ∧ s.tree.Named o ∧ s.tree.numChildren o ≤ 1 ∧
      s.tree.bpBirth o < s.tree.txg then
    let sp := Space.dropReservation s.tree s.space o
    match s.tree.nextSnapObj o with
    | some n => some ⟨s.tree.destroySnap o n, Space.destroySnap s.tree sp o n⟩
    | none =>
      if ∃ p ∈ s.tree.prevSnapObj o, s.tree.nextSnapObj p = some o then none
      else some ⟨s.tree.destroyHead o, Space.destroyHead s.tree sp o⟩
  else none

inductive Event where
  | sync
  | born (o : ℕ) (bp : Blkptr)
  | kill (o : ℕ) (bp : Blkptr)
  | snapshot (o n : ℕ)
  | create (n dd : ℕ) (parent origin : Option ℕ)
  | rollback (o : ℕ)
  | promote (hds : ℕ)
  | cloneSwap (cds ohds : ℕ)
  | destroy (o : ℕ)
  | setReservation (o new : ℕ)

/-- One operation; `none` if its check function refuses it. -/
def step (s : State) : Event → Option State
  | .sync => some { s with tree := { s.tree with txg := s.tree.txg + 1 } }
  | .born o bp => dslDatasetBlockBorn s o bp
  | .kill o bp => dslDatasetBlockKill s o bp
  | .snapshot o n => dslDatasetSnapshotSync s o n
  | .create n dd parent origin => dslDatasetCreateSyncDd s n dd parent origin
  | .rollback o => dslDatasetRollbackSync s o
  | .promote hds => dslDatasetPromoteSync s hds
  | .cloneSwap cds ohds => dslDatasetCloneSwapSync s cds ohds
  | .destroy o => dslDatasetDestroySync s o
  | .setReservation o new => dslDatasetSetReservationSync s o new

def run (s : State) : List Event → Option State
  | [] => some s
  | e :: es => (step s e).bind fun s' => run s' es

/-- A pool at `TXG_INITIAL`.  A new one holds the empty origin snapshot, object 0, and the
    dataset it was taken of, object 1; an old one has no such snapshot. -/
def newPool (hasOrigin : Bool) : State where
  tree :=
    { txg := txgInitial
      objs := if hasOrigin then {0, 1} else ∅
      prevSnapObj := fun o => if hasOrigin ∧ o = 1 then some 0 else none
      prevSnapTxg := fun o => if hasOrigin ∧ o = 1 then 1 else 0
      nextSnapObj := fun o => if hasOrigin ∧ o = 0 then some 1 else none
      creationTxg := fun _ => 1
      numChildren := fun o => if hasOrigin ∧ o = 0 then 1 else 0
      deadlist := fun _ => 0
      blocks := fun _ => ∅
      bpBirth := fun _ => 0
      originSnap := if hasOrigin then some 0 else none
      born := ∅
      freed := 0 }
  space :=
    { dirObj := fun _ => 0
      usedBytes := fun _ => 0
      uniqueBytes := fun _ => 0
      accurate := fun _ => true
      reserved := fun _ => 0
      parent := fun _ => none
      originObj := fun _ => none
      charged := fun _ => 0 }

/-- The outcomes of the allowed operations, with what their check functions made sure of. -/
inductive Allowed (s : State) : Event → State → Prop
  | sync : Allowed s .sync { s with tree := { s.tree with txg := s.tree.txg + 1 } }
  | born {o : ℕ} {bp : Blkptr} (head : s.tree.IsHead o) (birth : bp.birth = s.tree.txg)
      (txg : s.tree.prevSnapTxg o < s.tree.txg) (new : bp ∉ s.tree.born) :
      Allowed s (.born o bp) ⟨s.tree.blockBorn o bp, s.space.blockBorn o bp⟩
  | kill {o : ℕ} {bp : Blkptr} (head : s.tree.IsHead o) (mem : bp ∈ s.tree.blocks o) :
      Allowed s (.kill o bp) ⟨s.tree.blockKill o bp, Space.blockKill s.tree s.space o bp⟩
  | snapshot {o n : ℕ} (head : s.tree.IsHead o) (named : s.tree.Named o)
      (txg : s.tree.prevSnapTxg o < s.tree.txg) (new : n ∉ s.tree.objs) :
      Allowed s (.snapshot o n) ⟨s.tree.snapshot o n, Space.snapshot s.tree s.space o n⟩
  | create {n dd : ℕ} {parent origin from? : Option ℕ} (new : n ∉ s.tree.objs)
      (dir : ∀ o ∈ s.tree.objs, s.space.dirObj o ≠ dd) (outside : parent ≠ some dd)
      (choice : from? = (origin <|> s.tree.originSnap))
      (snap : ∀ p, from? = some p → p ∈ s.tree.objs ∧ s.tree.nextSnapObj p ≠ none) :
      Allowed s (.create n dd parent origin)
        ⟨s.tree.create n from?, s.space.create n dd parent from?⟩
  | rollback {o : ℕ} (head : s.tree.IsHead o) (clean : s.tree.bpBirth o < s.tree.txg) :
      Allowed s (.rollback o) ⟨s.tree.rollback o, Space.rollback s.tree s.space o⟩
  | promote {hds origin new : ℕ} (head : s.tree.IsHead hds)
      (clone : s.space.originObj (s.space.dirObj hds) = some origin)
      (real : s.tree.originSnap ≠ some origin)
      (next : newNext s.tree origin (s.tree.txg + 1) hds = some new) :
      Allowed s (.promote hds)
        ⟨s.tree.promote origin new, Space.promote s.tree s.space hds origin new⟩
  | cloneSwap {cds ohds p : ℕ} (clone : s.tree.IsHead cds) (head : s.tree.IsHead ohds)
      (prev : s.tree.prevSnapObj cds = some p) (prev' : s.tree.prevSnapObj ohds = some p)
      (next : s.tree.nextSnapObj p = some ohds)
      (parent : s.space.parent (s.space.dirObj cds) = some (s.space.dirObj ohds)) :
      Allowed s (.cloneSwap cds ohds)
        ⟨s.tree.cloneSwap cds ohds, Space.cloneSwap s.tree s.space cds ohds p⟩
  | destroySnap {o n : ℕ} (mem : o ∈ s.tree.objs) (next : s.tree.nextSnapObj o = some n)
      (children : s.tree.numChildren o ≤ 1) (named : s.tree.Named o) :
      Allowed s (.destroy o) ⟨s.tree.destroySnap o n,
        Space.destroySnap s.tree (Space.dropReservation s.tree s.space o) o n⟩
  | destroyHead {o : ℕ} (head : s.tree.IsHead o)
      (branch : ∀ p, s.tree.prevSnapObj o = some p → s.tree.nextSnapObj p ≠ some o) :
      Allowed s (.destroy o) ⟨s.tree.destroyHead o,
        Space.destroyHead s.tree (Space.dropReservation s.tree s.space o) o⟩
  | setReservation {o new : ℕ} (head : s.tree.IsHead o) :
      Allowed s (.setReservation o new) ⟨s.tree, Space.setReservation s.tree s.space o new⟩

theorem Allowed.of_step {s s' : State} {e : Event} (h : step s e = some s') : Allowed s e s' := by
  cases e with
  | sync =>
    cases h
    exact .sync
  | born o bp =>
    obtain ⟨⟨h1, h2, h3, h4⟩, ⟨⟩⟩ := ite_none_right_eq_some.mp h
    exact .born h1 h2 h3 h4
  | kill o bp =>
    obtain ⟨⟨h1, h2⟩, ⟨⟩⟩ := ite_none_right_eq_some.mp h
    exact .kill h1 h2
  | snapshot o n =>
    obtain ⟨⟨h1, h2, h3, h4⟩, ⟨⟩⟩ := ite_none_right_eq_some.mp h
    exact .snapshot h1 h2 h3 h4
  | create n dd parent origin =>
    obtain ⟨⟨h1, h2, h3, h4⟩, ⟨⟩⟩ := ite_none_right_eq_some.mp h
    exact .create h1 h2 h3 rfl fun p hp => h4 p (mem_def.mpr hp)
  | rollback o =>
    obtain ⟨⟨h1, h2⟩, ⟨⟩⟩ := ite_none_right_eq_some.mp h
    exact .rollback h1 h2
  | promote hds =>
    obtain ⟨h1, h⟩ := ite_none_right_eq_some.mp h
    split at h
    case h_1 origin horigin =>
      obtain ⟨h2, h⟩ := ite_none_left_eq_some.mp h
      split at h
      case h_1 new hnew =>
        cases h
        exact .promote h1 horigin h2 hnew
      case h_2 => cases h
    case h_2 => cases h
  | cloneSwap cds ohds =>
    rw [step, dslDatasetCloneSwapSync] at h
    split at h
    case h_1 p hp =>
      obtain ⟨⟨h1, h2, h3, h4, h5⟩, ⟨⟩⟩ := ite_none_right_eq_some.mp h
      exact .cloneSwap h1 h2 hp h3 h4 h5
    case h_2 => cases h
  | destroy o =>
    obtain ⟨⟨h1, h2, h3, -⟩, h⟩ := ite_none_right_eq_some.mp h
    split at h
    case h_1 n hn =>
      cases h
      exact .destroySnap h1 hn h3 h2
    case h_2 hhead =>
      obtain ⟨h5, ⟨⟩⟩ := ite_none_left_eq_some.mp h
      exact .destroyHead ⟨h1, hhead⟩ fun p hp hnext => h5 ⟨p, hp, hnext⟩
  | setReservation o new =>
    obtain ⟨h1, ⟨⟩⟩ := ite_none_right_eq_some.mp h
    exact .setReservation h1

/-! ## Operations that move no dataset to another directory -/

/-- The directories, their parents and their origins are as before. -/
structure Space.SameDirs (sp sp' : Space) : Prop where
  dirObj : sp'.dirObj = sp.dirObj
  parent : sp'.parent = sp.parent
  originObj : sp'.originObj = sp.originObj

namespace Space.SameDirs

variable {t : Tree} {sp sp' sp'' : Space} {o n : ℕ} {bp : Blkptr}

theorem refl : SameDirs sp sp := ⟨rfl, rfl, rfl⟩

theorem trans (h : SameDirs sp sp') (h' : SameDirs sp' sp'') : SameDirs sp sp'' :=
  ⟨h'.dirObj.trans h.dirObj, h'.parent.trans h.parent, h'.originObj.trans h.originObj⟩

theorem blockBorn : SameDirs sp (sp.blockBorn o bp) := ⟨rfl, rfl, rfl⟩

theorem blockKill : SameDirs sp (Space.blockKill t sp o bp) := by
  rw [Space.blockKill]
  split <;> exact ⟨rfl, rfl, rfl⟩

theorem rollback : SameDirs sp (Space.rollback t sp o) := by
  rw [Space.rollback]
  split <;> exact ⟨rfl, rfl, rfl⟩

theorem cloneSwap {p : ℕ} : SameDirs sp (Space.cloneSwap t sp o n p) := ⟨rfl, rfl, rfl⟩

theorem setReservation : SameDirs sp (Space.setReservation t sp o n) := ⟨rfl, rfl, rfl⟩

theorem dropReservation : SameDirs sp (Space.dropReservation t sp o) := by
  rw [Space.dropReservation]
  split
  · exact refl
  · exact setReservation

theorem destroySnap : SameDirs sp (Space.destroySnap t sp o n) := by
  rw [Space.destroySnap]
  split
  · exact ⟨rfl, rfl, rfl⟩
  · split
    · exact ⟨rfl, rfl, rfl⟩
    · exact ⟨rfl, rfl, rfl⟩

theorem destroyHead : SameDirs sp (Space.destroyHead t sp o) := ⟨rfl, rfl, rfl⟩

end Space.SameDirs

end Sirius.Dsl
