import Mathlib.Algebra.Ring.Nat
import Mathlib.Data.List.Chain
import Sirius.Zfs.Zil

/-! # The chain of log write buffers

    What `zl_lwb_list`, the log header and the blocks on disk go through while records are
    pushed, writes complete and txgs sync.  A log write buffer that `zil_sync` drops is kept in
    `retired` until the txg is on disk, because the header there still leads to it. -/

namespace Sirius.Zil

open List

/-- A record in the chain from a block on.  The pointer to the next block may be a hole here, where
    `zil_parse` stops: nothing but the media ends the chain. -/
inductive Reaches (media : Media) : Blkptr → Record → Prop
  | here {blk : Blkptr} {b : LogBlock} {r : Record} (h : readLogBlock media blk = .ok b)
      (hr : r ∈ b.lrs) : Reaches media blk r
  | next {blk : Blkptr} {b : LogBlock} {r : Record} (h : readLogBlock media blk = .ok b)
      (hr : Reaches media b.nextBlk r) : Reaches media blk r

namespace Commit

/-- A block pointer after `BP_ZERO`. -/
def hole : Blkptr := ⟨0, 0, 0, ⟨0, 0, 0, 0⟩⟩

/-- The write of a log write buffer.  Once it is started the trailer has the pointer `next` to the
    next block, none if the allocation failed, and `lwb_txgh` has a hold on `txg`. -/
inductive Write
  /-- Not started; `zio` says whether `lwb_zio` is there. -/
  | filling (zio : Bool)
  | issued (next : Option Blkptr) (txg : Nat)
  /-- In `zil_lwb_write_done`, after `txg_rele_to_sync`. -/
  | released (next : Option Blkptr) (txg : Nat) (ok : Bool)
  /-- `lwb_buf` is gone. -/
  | done (next : Option Blkptr) (txg : Nat) (ok : Bool)
  deriving DecidableEq

/-- `lwb_t`, with the records in the buffer. -/
structure Lwb where
  blk : Blkptr
  nused : Nat
  maxTxg : Nat
  records : List Record
  write : Write
  deriving DecidableEq

namespace Lwb

def trailer (l : Lwb) : Option (Option Blkptr × Nat) :=
  match l.write with
  | .filling _ => none
  | .issued next txg | .released next txg _ | .done next txg _ => some (next, txg)

/-- The txg on which `lwb_txgh` has a hold. -/
def held (l : Lwb) : Option Nat :=
  match l.write with
  | .issued _ txg => some txg
  | _ => none

/-- `ZIL_BLK_DATA_SZ`. -/
def dataSz (l : Lwb) : Nat := l.blk.lsize - trailerSize

/-- `lwb_buf != NULL`. -/
def hasBuf (l : Lwb) : Bool :=
  match l.write with
  | .done _ _ _ => false
  | _ => true

def inFlight (l : Lwb) : Bool :=
  match l.write with
  | .issued _ _ | .released _ _ _ => true
  | _ => false

def releasing (l : Lwb) : Bool :=
  match l.write with
  | .released _ _ _ => true
  | _ => false

/-- The write has failed and `zl_log_error` has been set. -/
def failed (l : Lwb) : Bool :=
  match l.write with
  | .done _ _ false => true
  | _ => false

def written (l : Lwb) : Bool :=
  match l.write with
  | .released _ _ true | .done _ _ true => true
  | _ => false

def block (l : Lwb) : LogBlock :=
  ⟨l.blk.cksum, (l.trailer.bind Prod.fst).getD hole, l.nused, l.records⟩

def cut (l : Lwb) : Option Nat :=
  match l.trailer with
  | some (none, txg) => some txg
  | _ => none

/-- On disk, with a pointer to the next block: `zil_parse` goes through it. -/
def stable (l : Lwb) : Bool := l.written && (l.trailer.bind Prod.fst).isSome

end Lwb

def newLwb (blk : Blkptr) (txg : Nat) : Lwb := ⟨blk, 0, txg, [], .filling false⟩

def Lwb.put (l : Lwb) (r : Record) : Lwb :=
  { l with
    nused := l.nused + r.reclen
    maxTxg := max l.maxTxg r.txg
    records := l.records ++ [r]
    write := .filling true }

structure Pool where
  openTxg : Nat
  syncedTxg : Nat
  /-- `spa_sync` of the txg after `syncedTxg` is running. -/
  syncing : Bool
  /-- It has called `zil_sync`. -/
  zilSynced : Bool
  /-- The txgs in which the dataset was dirtied. -/
  dirty : List Nat
  media : Media
  /-- `zh_log` on disk. -/
  diskLog : Blkptr
  /-- `zh_log` in memory. -/
  log : Blkptr
  retired : List Lwb
  /-- `zl_lwb_list`. -/
  lwbs : List Lwb

namespace Pool

variable (p : Pool)

def chain : List Lwb := p.retired ++ p.lwbs

def find (dva : Nat) : Option Lwb := p.lwbs.find? fun l => l.blk.dva = dva

def modify (dva : Nat) (f : Lwb → Lwb) : Pool :=
  { p with lwbs := p.lwbs.map fun l => if l.blk.dva = dva then f l else l }

def append (l : Lwb) : Pool := { p with lwbs := p.lwbs ++ [l] }

/-- `dsl_dataset_dirty`. -/
def setDirty (txg : Nat) : Pool := { p with dirty := txg :: p.dirty }

def Unallocated (dva : Nat) : Prop := ∀ l ∈ p.chain, l.blk.dva ≠ dva

instance (dva : Nat) : Decidable (p.Unallocated dva) := inferInstanceAs (Decidable (∀ _ ∈ _, _))

def Assignable (txg : Nat) : Prop :=
  p.syncedTxg < txg ∧ (p.syncing → p.syncedTxg + 1 < txg) ∧ txg ≤ p.openTxg

instance (txg : Nat) : Decidable (p.Assignable txg) := inferInstanceAs (Decidable (_ ∧ _))

/-! ## `zil_lwb_write_start` and `zil_lwb_write_done` -/

def issue (dva : Nat) (next : Option Blkptr) : Pool :=
  p.modify dva fun l => { l with write := .issued next p.openTxg }

/-- `zil_lwb_write_start` for the buffer `l`, with what `zio_alloc_blk` returns, and the buffer for
    the next records.  Nobody looks at the buffers between the hold on the txg and the start of the
    write, so that it is one step. -/
def writeStart (l : Lwb) (blksz : Nat) : Option Nat → Pool × Option Nat
  | some dva =>
    let bp : Blkptr := ⟨dva, p.openTxg, blksz, l.blk.cksum.next⟩
    ((p.issue l.blk.dva (some bp)).append (newLwb bp p.openTxg), some dva)
  | none => ((p.setDirty p.openTxg).issue l.blk.dva none, none)

/-- A write has completed: `zil_lwb_write_done` up to `txg_rele_to_sync`. -/
def release (dva : Nat) (ok : Bool) : Option Pool :=
  match p.find dva with
  | some l =>
    match l.write with
    | .issued next txg =>
      let p := p.modify dva fun l => { l with write := .released next txg ok }
      if ok then some { p with media := fun d => if d = dva then some l.block else p.media d }
      else some p
    | _ => none
  | none => none

/-- The rest of `zil_lwb_write_done`, and whether the write was in error. -/
def writeDone (dva : Nat) : Option (Pool × Bool) :=
  match p.find dva with
  | some l =>
    match l.write with
    | .released next txg ok => some (p.modify dva fun l => { l with write := .done next txg ok },
        !ok)
    | _ => none
  | none => none

def txgConcurrentStates : Nat := 3

def openNext : Option Pool :=
  if p.openTxg + 1 - p.syncedTxg ≤ txgConcurrentStates then some { p with openTxg := p.openTxg + 1 }
  else none

def beginSync : Option Pool :=
  if p.syncing = false ∧ p.syncedTxg + 1 < p.openTxg ∧
      ∀ l ∈ p.lwbs, l.held ≠ some (p.syncedTxg + 1) then
    some { p with syncing := true }
  else none

/-- The loop of `zil_sync`: the header, the buffers that are dropped and those that stay. -/
def zilSyncLoop (txg : Nat) : Blkptr → List Lwb → Blkptr × List Lwb × List Lwb
  | log, [] => (log, [], [])
  | _, l :: ls =>
    if l.hasBuf ∨ l.maxTxg > txg then (l.blk, [], l :: ls)
    else
      let (log, dropped, rest) := zilSyncLoop txg (if ls = [] then hole else l.blk) ls
      (log, l :: dropped, rest)

/-- `zil_sync`, which `spa_sync` calls if the dataset is dirty. -/
def zilSync : Option Pool :=
  if p.syncing ∧ p.syncedTxg + 1 ∈ p.dirty then
    let (log, dropped, rest) := zilSyncLoop (p.syncedTxg + 1) p.log p.lwbs
    some { p with log := log, retired := p.retired ++ dropped, lwbs := rest, zilSynced := true }
  else none

def commitTxg : Option Pool :=
  if p.syncing ∧ (p.syncedTxg + 1 ∈ p.dirty → p.zilSynced) then
    some { p with
        syncedTxg := p.syncedTxg + 1
        syncing := false
        zilSynced := false
        diskLog := if p.zilSynced then p.log else p.diskLog
        retired := [] }
  else none

end Pool

structure Lwb.WF (l : Lwb) : Prop where
  used : l.nused = (l.records.map Record.reclen).sum
  fits : l.nused ≤ l.dataSz
  positive : ∀ r ∈ l.records, 0 < r.reclen
  covers : ∀ r ∈ l.records, r.txg ≤ l.maxTxg
  empty : l.write = .filling false → l.records = []
  pointer : ∀ b t, l.trailer = some (some b, t) → b.cksum = l.blk.cksum.next ∧ ¬ b.IsHole

/-- The trailer of `a` points to `b`. -/
def Linked (a b : Lwb) : Prop := ∃ txg, a.trailer = some (some b.blk, txg)

def recordsOf (c : List Lwb) : List Record := c.flatMap Lwb.records

/-- The records of a chain up to the first block that is not on disk. -/
def durable (c : List Lwb) : List Record := recordsOf (c.takeWhile Lwb.stable)

theorem recordsUpTo_sum : ∀ {rs : List Record}, (∀ r ∈ rs, 0 < r.reclen) →
    recordsUpTo (rs.map Record.reclen).sum rs = rs := by
  intro rs
  induction rs with
  | nil => exact fun _ => rfl
  | cons r rs ih =>
    intro h
    have hr := h r (mem_cons_self ..)
    rw [map_cons, sum_cons, recordsUpTo, if_neg (by omega), Nat.add_sub_cancel_left,
      ih fun q hq => h q (mem_cons_of_mem _ hq)]

theorem Lwb.WF.lrs {l : Lwb} (h : l.WF) : l.block.lrs = l.records := by
  rw [Lwb.block, h.used]
  exact recordsUpTo_sum h.positive

theorem Lwb.stable_iff {l : Lwb} : l.stable ↔ l.written ∧ ∃ b t, l.trailer = some (some b, t) := by
  rw [Lwb.stable, Bool.and_eq_true]
  refine and_congr_right fun _ => ?_
  rcases l.trailer with _ | ⟨_ | b, t⟩ <;> simp

theorem Lwb.WF.read {l : Lwb} (h : l.WF) {media : Media} {b : Blkptr} {t : Nat}
    (ht : l.trailer = some (some b, t)) (hm : media l.blk.dva = some l.block) :
    readLogBlock media l.blk = .ok l.block ∧ l.block.nextBlk = b := by
  have hnext : l.block.nextBlk = b := by
    rw [Lwb.block, ht]
    rfl
  obtain ⟨hck, hhole⟩ := h.pointer b t ht
  refine ⟨?_, hnext⟩
  rw [readLogBlock, hm]
  dsimp only
  rw [if_neg (fun hc => hc rfl), hnext, if_neg (fun hc => hc hck), if_neg hhole, if_neg]
  exact Nat.not_lt.mpr h.fits

theorem mem_durable_cons {l : Lwb} {c : List Lwb} {r : Record} :
    r ∈ durable (l :: c) ↔ l.stable ∧ (r ∈ l.records ∨ r ∈ durable c) := by
  rw [durable]
  by_cases hs : l.stable
  · rw [takeWhile_cons_of_pos hs, recordsOf, flatMap_cons, mem_append]
    exact (and_iff_right hs).symm
  · rw [takeWhile_cons_of_neg hs]
    exact iff_of_false not_mem_nil fun h => hs h.1

theorem reaches_of_durable {media : Media} {r : Record} : ∀ {l : Lwb} {c : List Lwb},
    (l :: c).IsChain Linked → (∀ m ∈ l :: c, m.WF) →
      (∀ m ∈ l :: c, m.written → media m.blk.dva = some m.block) → r ∈ durable (l :: c) →
      Reaches media l.blk r := by
  intro l c
  induction c generalizing l with
  | nil =>
    intro _ hwf hm hr
    obtain ⟨hs, hr⟩ := mem_durable_cons.mp hr
    obtain ⟨hw, b, t, ht⟩ := Lwb.stable_iff.mp hs
    obtain ⟨hread, -⟩ := (hwf l (mem_cons_self ..)).read ht (hm l (mem_cons_self ..) hw)
    refine .here hread ?_
    rw [(hwf l (mem_cons_self ..)).lrs]
    exact hr.resolve_right not_mem_nil
  | cons m c ih =>
    intro hc hwf hm hr
    obtain ⟨hlm, hc⟩ := isChain_cons_cons.mp hc
    obtain ⟨hs, hr⟩ := mem_durable_cons.mp hr
    obtain ⟨hw, b, t, ht⟩ := Lwb.stable_iff.mp hs
    obtain ⟨hread, hnext⟩ := (hwf l (mem_cons_self ..)).read ht (hm l (mem_cons_self ..) hw)
    rcases hr with hr | hr
    · refine .here hread ?_
      rw [(hwf l (mem_cons_self ..)).lrs]
      exact hr
    refine .next hread ?_
    obtain ⟨u, hu⟩ := hlm
    obtain rfl : b = m.blk := by
      rw [ht] at hu
      cases hu
      rfl
    rw [hnext]
    exact ih hc (fun q hq => hwf q (mem_cons_of_mem _ hq))
      (fun q hq => hm q (mem_cons_of_mem _ hq)) hr

end Commit

end Sirius.Zil
