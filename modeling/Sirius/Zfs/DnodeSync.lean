import Mathlib.Data.List.Nodup
import Sirius.Lib.ForLoop

/-! # Syncing the freed ranges of an object

    `free_blocks`, `free_children` and `dnode_sync_free_range`.  The blocks of an object are
    named as the dbuf layer names them: the pointer `(l, i)` is to the `i`th block of level `l`,
    and the indirect block `(l + 1, b)` holds the pointers `(l, c)` with `c >> epbs = b`.
    Reading or clearing a pointer outside the array it is in stops the model. -/

namespace Sirius.DnodeSync

open Sirius.Lib

variable {B : Type}

structure Geometry (B : Type) where
  /-- `dn_nlevels`. -/
  nlevels : Nat
  /-- `dn_indblkshift - SPA_BLKPTRSHIFT`. -/
  epbs : Nat
  /-- `dn_nblkptr`. -/
  nblkptr : Nat
  /-- What `dsl_dataset_block_kill` returns. -/
  dasize : B → Nat

/-- The block pointers of the object (`none` for a hole) and the calls of
    `dsl_dataset_block_kill`. -/
structure Object (B : Type) where
  bp : Nat → Nat → Option B
  maxblkid : Nat
  used : Int
  kills : List (Nat × Nat × B)

inductive Buf
  /-- `dn_phys->dn_blkptr`. -/
  | dnode
  /-- The data of the dbuf of this level and block id. -/
  | indirect (level blkid : Nat)

namespace Buf

def size (g : Geometry B) : Buf → Nat
  | dnode => g.nblkptr
  | indirect _ _ => 1 <<< g.epbs

def pointee (g : Geometry B) : Buf → Nat → Nat × Nat
  | dnode, off => (g.nlevels - 1, off)
  | indirect level blkid, off => (level - 1, (blkid <<< g.epbs) + off)

end Buf

namespace Object

def read (o : Object B) (g : Geometry B) (buf : Buf) (off : Nat) : Option (Option B) :=
  if off < buf.size g then some (o.bp (buf.pointee g off).1 (buf.pointee g off).2) else none

/-- `dsl_dataset_block_kill(bp)` and `bzero(bp)`. -/
def kill (o : Object B) (l i : Nat) (b : B) : Object B :=
  { o with
    bp := fun l' i' => if l' = l ∧ i' = i then none else o.bp l' i'
    kills := o.kills ++ [(l, i, b)] }

/-- `dnode_diduse_space(dn, -bytesfreed)`. -/
def didUse (o : Object B) (bytesfreed : Nat) : Object B := { o with used := o.used - bytesfreed }

/-- `dbuf_hold_impl` of a block that has a pointer: `dbuf_findbp` refuses blocks past the
    last one. -/
def hold (o : Object B) (g : Geometry B) (level blkid : Nat) : Option Unit :=
  if blkid ≤ o.maxblkid >>> (level * g.epbs) then some () else none

end Object

/-- One round of `free_blocks`: the state, `bytesfreed` and `blocks_freed`. -/
def freeBlockStep (g : Geometry B) (buf : Buf) (off : Nat) (s : Object B × Nat × Nat) :
    Option (Object B × Nat × Nat) :=
  match s.1.read g buf off with
  | none => none
  | some none => some s
  | some (some b) =>
    some (s.1.kill (buf.pointee g off).1 (buf.pointee g off).2 b, s.2.1 + g.dasize b, s.2.2 + 1)

/-- `free_blocks`: the new state and `blocks_freed`. -/
def freeBlocks (g : Geometry B) (buf : Buf) (off num : Nat) (o : Object B) :
    Option (Object B × Nat) := do
  let (o, bytesfreed, blocksFreed) ← forSome (freeBlockStep g buf) off num (o, 0, 0)
  return (o.didUse bytesfreed, blocksFreed)

/-- What `free_children` returns. -/
inductive Outcome
  /-- `ALL`: the block itself can go. -/
  | all
  | blocks (blocksFreed : Nat)
  deriving DecidableEq

/-- One round of the loops over pointers to indirect blocks in `free_children` and
    `dnode_sync_free_range`, for the block `(level, i)` in slot `off + (i - start)`: the state,
    `all` and `blocks_freed`.  `sub` is `free_children` of the block pointed to. -/
def freeSlotStep (g : Geometry B) (sub : Nat → Object B → Option (Object B × Outcome))
    (buf : Buf) (level start off i : Nat) (s : Object B × Bool × Nat) :
    Option (Object B × Bool × Nat) :=
  match s.1.read g buf (off + (i - start)) with
  | none => none
  | some none => some s
  | some (some _) => do
      let _ ← s.1.hold g level i
      match ← sub i s.1 with
      | (o, .all) =>
        let (o, n) ← freeBlocks g buf (off + (i - start)) 1 o
        return (o, s.2.1, s.2.2 + n)
      | (o, .blocks _) => return (o, false, s.2.2)

/-- The loop over `num` of them from `start` on. -/
def freeSlots (g : Geometry B) (sub : Nat → Object B → Option (Object B × Outcome)) (buf : Buf)
    (level start off num : Nat) (all : Bool) (o : Object B) : Option (Object B × Bool × Nat) :=
  forSome (freeSlotStep g sub buf level start off) start num (o, all, 0)

/-- Which pointers of an indirect block `free_children` looks at. -/
structure Window where
  /-- The first, and its slot. -/
  start : Nat
  off : Nat
  /-- The last. -/
  stop : Nat
  all : Bool

/-- The window of the block `dbBlkid` whose pointers are to level `level`. -/
def window (g : Geometry B) (level dbBlkid blkid nblks : Nat) (trunc : Bool) : Window :=
  let shift := level * g.epbs
  let dbstart := dbBlkid <<< g.epbs
  let start := blkid >>> shift
  let (start, off, all) := if dbstart < start then (start, start - dbstart, false)
    else (dbstart, 0, true)
  let dbend := ((dbBlkid + 1) <<< g.epbs) - 1
  let stop := (blkid + nblks - 1) >>> shift
  let (stop, all) := if dbend ≤ stop then (dbend, all)
    else (stop, if all then trunc else all)
  ⟨start, off, stop, all⟩

/-- `free_children` of the dbuf of level `level + 1` and block id `dbBlkid`. -/
def freeChildren (g : Geometry B) (blkid nblks : Nat) (trunc : Bool) :
    Nat → Nat → Object B → Option (Object B × Outcome)
  | 0, dbBlkid, o => do
      let w := window g 0 dbBlkid blkid nblks trunc
      let (o, blocksFreed) ← freeBlocks g (.indirect 1 dbBlkid) w.off (w.stop - w.start + 1) o
      return (o, if w.all then .all else .blocks blocksFreed)
  | level + 1, dbBlkid, o => do
      let w := window g (level + 1) dbBlkid blkid nblks trunc
      let (o, all, blocksFreed) ← freeSlots g (freeChildren g blkid nblks trunc level)
        (.indirect (level + 2) dbBlkid) (level + 1) w.start w.off (w.stop + 1 - w.start) w.all o
      return (o, if all then .all else .blocks blocksFreed)

/-- Lowering `dn_maxblkid` at the end of `dnode_sync_free_range`. -/
def lower (trunc : Bool) (blkid : Nat) (o : Object B) : Object B :=
  if trunc then { o with maxblkid := if blkid ≠ 0 then blkid - 1 else 0 } else o

def dnodeSyncFreeRange (g : Geometry B) (blkid nblks : Nat) (o : Object B) : Option (Object B) :=
  if o.maxblkid < blkid then some o
  else
    let trunc : Bool := o.maxblkid < blkid + nblks
    let nblks := if trunc then o.maxblkid - blkid + 1 else nblks
    if g.nlevels = 1 then
      if g.nblkptr ≤ blkid then some o
      else do
        let (o, _) ← freeBlocks g .dnode blkid nblks o
        return lower trunc blkid o
    else do
      let shift := (g.nlevels - 1) * g.epbs
      let start := blkid >>> shift
      let stop := (blkid + nblks - 1) >>> shift
      let (o, _) ← freeSlots g (freeChildren g blkid nblks trunc (g.nlevels - 2)) .dnode
        (g.nlevels - 1) start start (stop + 1 - start) true o
      return lower trunc blkid o

/-- A `free_range_t`. -/
structure Range where
  blkid : Nat
  nblks : Nat
  pos : 0 < nblks

/-- The loop of `dnode_sync` over `dn_ranges[txgoff]`, last range first. -/
def dnodeSyncRanges (g : Geometry B) (ranges : List Range) (o : Object B) : Option (Object B) :=
  ranges.reverse.foldlM (fun o r => dnodeSyncFreeRange g r.blkid r.nblks o) o

end Sirius.DnodeSync
