import Sirius.Lib.TreeList
import Sirius.Lib.Tiling

/-! # File range locks — `zfs_rlock.c`

    Reader and writer locks on byte ranges of one file.  A lock is an `rl_t`, in a tree
    ordered by offset.  Where readers overlap, their `rl_t`s leave the tree and
    reference-counted PROXIES, split at every boundary, stand for them.

    A call that cannot be granted marks the lock in its way and waits on one of its two
    condition variables; it starts over when it is woken.  Each attempt, release and reduction
    runs under `z_range_lock`, hence is one step.  `ASSERT`s are results, so that a theorem
    can exclude them. -/

namespace Sirius.Rlock

open Sirius.Lib

/-- `rl_type_t`. -/
inductive RlType
  | reader
  | writer
  | append
  deriving DecidableEq

/-- `rl_t`, with its address. -/
structure Rl where
  addr : ℕ
  rOff : ℕ
  rLen : ℕ
  rCnt : ℕ
  rType : RlType
  rProxy : Bool
  rWriteWanted : Bool
  rReadWanted : Bool
  deriving DecidableEq

/-- `r_off + r_len`. -/
def Rl.stop (rl : Rl) : ℕ := rl.rOff + rl.rLen

def Rl.proxy (addr off len cnt : ℕ) : Rl := ⟨addr, off, len, cnt, .reader, true, false, false⟩

def Rl.isAt (addr : ℕ) (rl : Rl) : Bool := rl.addr == addr

/-- `r_wr_cv` (`write`) or `r_rd_cv` of the lock at an address. -/
structure Cv where
  addr : ℕ
  write : Bool
  deriving DecidableEq

/-- A lock as its holder knows it: `zfs_range_lock` returns the `rl_t`. -/
structure Grant where
  addr : ℕ
  off : ℕ
  stop : ℕ
  type : RlType
  deriving DecidableEq

def Rl.grant (n : Rl) : Grant := ⟨n.addr, n.rOff, n.stop, n.rType⟩

/-- The failed checks: those of the tree, the `ASSERT`s by function, a null pointer,
    a pointer that is not a lock, and a loop that does not end. -/
inductive RlPanic
  | avlAdd
  | avlRemove
  | proxify
  | split
  | newProxy
  | addReader
  | unlock
  | unlockReader
  | reduce
  | null
  | noLock
  | fuel
  deriving DecidableEq

/-- What `z_range_lock` protects: the tree `z_range_avl`, the `rl_t`s that callers
    hold but that are not in the tree, and the next free address. -/
structure Locks where
  zRangeAvl : List Rl
  away : List Rl
  brk : ℕ
  deriving DecidableEq

/-- `avl_find`: `zfs_range_compare` compares offsets only. -/
def avlFind (tree : List Rl) (off : ℕ) : Option Rl := tree.find? fun rl => rl.rOff == off

/-- The place that `avl_find` reports when it finds nothing. -/
def avlWhere (tree : List Rl) (off : ℕ) : ℕ := place Rl.rOff tree off

/-- `avl_add`, which panics when the offset is taken. -/
def avlAdd (tree : List Rl) (rl : Rl) : Except RlPanic (List Rl) :=
  if (avlFind tree rl.rOff).isSome then .error .avlAdd
  else .ok (insertAt tree (avlWhere tree rl.rOff) rl)

def avlRemove (tree : List Rl) (rl : Rl) : Except RlPanic (List Rl) :=
  if tree.any (Rl.isAt rl.addr) then .ok (tree.filter fun n => !Rl.isAt rl.addr n)
  else .error .avlRemove

def avlNext (tree : List Rl) (rl : Rl) : Option Rl := (after (Rl.isAt rl.addr) tree).head?

def Locks.write (st : Locks) (rl : Rl) : Locks :=
  { st with zRangeAvl := store (Rl.isAt rl.addr) rl st.zRangeAvl }

/-! ## Sharing a range between readers -/

def zfsRangeProxify (st : Locks) (rl : Rl) : Except RlPanic (Locks × Rl) :=
  if rl.rProxy then .ok (st, rl)
  else if rl.rCnt ≠ 1 ∨ rl.rWriteWanted = true ∨ rl.rReadWanted = true then .error .proxify
  else do
    let tree ← avlRemove st.zRangeAvl rl
    let proxy := Rl.proxy st.brk rl.rOff rl.rLen 1
    let tree ← avlAdd tree proxy
    return (⟨tree, { rl with rCnt := 0 } :: st.away, st.brk + 1⟩, proxy)

/-- `zfs_range_split`: returns the front. -/
def zfsRangeSplit (st : Locks) (rl : Rl) (off : ℕ) : Except RlPanic (Locks × Rl) :=
  if ¬ (1 < rl.rLen ∧ rl.rOff < off ∧ off < rl.stop ∧ rl.rWriteWanted = false
      ∧ rl.rReadWanted = false) then .error .split
  else do
    let rear := Rl.proxy st.brk off (rl.stop - off) rl.rCnt
    let (st, front) ← zfsRangeProxify { st with brk := st.brk + 1 } rl
    let front := { front with rLen := off - rl.rOff }
    let st := st.write front
    return ({ st with zRangeAvl := insertAfter (Rl.isAt front.addr) rear st.zRangeAvl }, front)

def zfsRangeNewProxy (st : Locks) (off len : ℕ) : Except RlPanic Locks :=
  if len = 0 then .error .newProxy
  else do
    let tree ← avlAdd st.zRangeAvl (Rl.proxy st.brk off len 1)
    return { st with zRangeAvl := tree, brk := st.brk + 1 }

/-- `rl->r_cnt++`, in 32 bits. -/
def Rl.bump (rl : Rl) : Rl := { rl with rCnt := (rl.rCnt + 1) % 2 ^ 32 }

def fillGap (st : Locks) (prev : Option Rl) (next : Rl) : Except RlPanic Locks :=
  match prev with
  | none => .ok st
  | some prev =>
    if prev.stop < next.rOff then zfsRangeNewProxy st prev.stop (next.rOff - prev.stop)
    else .ok st

def fillEnd (st : Locks) (prev : Option Rl) (stop : ℕ) : Except RlPanic Locks :=
  match prev with
  | none => .error .null
  | some prev => zfsRangeNewProxy st prev.stop (stop - prev.stop)

/-- The loop of `zfs_range_add_reader` through the locks that a range up to `stop` overlaps. -/
def addReaderLoop (stop : ℕ) : ℕ → Locks → Option Rl → Option Rl → Except RlPanic Locks
  | 0, _, _, _ => .error .fuel
  | _ + 1, st, prev, none => fillEnd st prev stop
  | fuel + 1, st, prev, some next =>
    if stop ≤ next.rOff then fillEnd st prev stop
    else do
      let st ← fillGap st prev next
      if stop = next.stop then
        let (st, next) ← zfsRangeProxify st next
        return st.write next.bump
      else if stop < next.stop then
        let (st, next) ← zfsRangeSplit st next stop
        return st.write next.bump
      else
        let (st, next) ← zfsRangeProxify st next
        let st := st.write next.bump
        addReaderLoop stop fuel st (some next.bump) (avlNext st.zRangeAvl next.bump)

/-- The first step of `zfs_range_add_reader`: the lock that covers the start is split there.
    Returns the lock that starts where the range does, if any. -/
def splitStart (st : Locks) (off : ℕ) (prev : Option Rl) : Except RlPanic (Locks × Option Rl) :=
  match prev with
  | none => .ok (st, none)
  | some prev =>
    if prev.stop ≤ off then .ok (st, none)
    else if prev.rOff ≠ off then do
      let (st, front) ← zfsRangeSplit st prev off
      return (st, avlNext st.zRangeAvl front)
    else .ok (st, some prev)

def firstAtOrAfter (st : Locks) (prev : Option Rl) (whr : ℕ) : Option Rl :=
  match prev with
  | some prev => some prev
  | none => st.zRangeAvl[whr]?

def fillStart (st : Locks) (off : ℕ) (next : Rl) : Except RlPanic Locks :=
  if off < next.rOff then zfsRangeNewProxy st off (next.rOff - off) else .ok st

/-- The overlap is replaced by proxies, and `new` stays out of the tree. -/
def shareRange (st : Locks) (new next : Rl) : Except RlPanic Locks := do
  let st ← fillStart st new.rOff next
  let st := { st with away := { new with rCnt := 0 } :: st.away }
  addReaderLoop new.stop (st.zRangeAvl.length + 1) st none (some next)

def insertOrShare (st : Locks) (new : Rl) (next : Option Rl) (whr : ℕ) : Except RlPanic Locks :=
  match next with
  | none => .ok { st with zRangeAvl := insertAt st.zRangeAvl whr new }
  | some next =>
    if new.stop ≤ next.rOff then .ok { st with zRangeAvl := insertAt st.zRangeAvl whr new }
    else shareRange st new next

def zfsRangeAddReader (st : Locks) (new : Rl) (prev : Option Rl) (whr : ℕ) :
    Except RlPanic Locks := do
  let (st, prev) ← splitStart st new.rOff prev
  if prev.any fun prev => prev.rOff != new.rOff then .error .addReader
  else insertOrShare st new (firstAtOrAfter st prev whr) whr

/-- How one round of a call ends: with the lock, or in `cv_wait`. -/
inductive Outcome
  | granted (g : Grant)
  | wait (cv : Cv)
  deriving DecidableEq

def Rl.blocks (rl : Rl) : Bool := rl.rType == .writer || rl.rWriteWanted

/-- The search of `zfs_range_lock_reader` through the following locks. -/
def readerScan (stop : ℕ) : List Rl → Option Rl
  | [] => none
  | next :: rest =>
    if stop ≤ next.rOff then none
    else if next.blocks then some next
    else if stop ≤ next.stop then none
    else readerScan stop rest

def readerPrev (tree : List Rl) (off : ℕ) : Option Rl :=
  match avlFind tree off with
  | some rl => some rl
  | none => before tree (avlWhere tree off)

def readerBlocker (tree : List Rl) (off stop : ℕ) : Option Rl :=
  match readerPrev tree off with
  | none => readerScan stop (tree.drop (avlWhere tree off))
  | some prev =>
    if off < prev.stop ∧ prev.blocks = true then some prev
    else if off < prev.stop ∧ stop < prev.stop then none
    else readerScan stop (after (Rl.isAt prev.addr) tree)

/-- `new`, before the tree is searched. -/
def Locks.newRl (st : Locks) (off len : ℕ) (type : RlType) : Rl :=
  ⟨st.brk, off, len, 1, type, false, false, false⟩

/-- One round of `zfs_range_lock_reader`. -/
def zfsRangeLockReader (st : Locks) (off len : ℕ) : Except RlPanic (Outcome × Locks) :=
  match readerBlocker st.zRangeAvl off (off + len) with
  | some rl => .ok (.wait ⟨rl.addr, false⟩, st.write { rl with rReadWanted := true })
  | none => do
      let st' ← zfsRangeAddReader { st with brk := st.brk + 1 } (st.newRl off len .reader)
        (readerPrev st.zRangeAvl off) (avlWhere st.zRangeAvl off)
      return (.granted (st.newRl off len .reader).grant, st')

/-- What `zfs_range_lock_writer` reads of a file of the ZPL; a zvol has none of it. -/
structure Zpl where
  zpSize : ℕ
  zBlksz : ℕ
  zMaxBlksz : ℕ
  deriving DecidableEq

def isp2 (x : ℕ) : Bool := x &&& (x - 1) == 0

/-- The offset of a write: an append starts at the end of the file. -/
def writeOff (z : Option Zpl) (off : ℕ) (type : RlType) : ℕ :=
  match z with
  | some z => if type = .append then z.zpSize else off
  | none => off

def growsBlock (z : Option Zpl) (off len : ℕ) : Bool :=
  match z with
  | some z => decide (z.zBlksz < max z.zpSize (off + len))
      && (!isp2 z.zBlksz || decide (z.zBlksz < z.zMaxBlksz))
  | none => false

/-- The range a writer locks: all of the file, when the block size may grow. -/
def writerRange (z : Option Zpl) (off len : ℕ) (type : RlType) : ℕ × ℕ :=
  if growsBlock z (writeOff z off type) len then (0, 2 ^ 64 - 1) else (writeOff z off type, len)

def writerBlocker (tree : List Rl) (off stop : ℕ) : Option Rl :=
  match avlFind tree off with
  | some rl => some rl
  | none =>
    match tree[avlWhere tree off]?.filter fun rl => rl.rOff < stop with
    | some rl => some rl
    | none => (before tree (avlWhere tree off)).filter fun rl => off < rl.stop

def addWriter (st : Locks) (new : Rl) : Except RlPanic Locks :=
  if st.zRangeAvl.length = 0 then do
    let tree ← avlAdd st.zRangeAvl new
    return { st with zRangeAvl := tree, brk := st.brk + 1 }
  else .ok { st with
    zRangeAvl := insertAt st.zRangeAvl (avlWhere st.zRangeAvl new.rOff) new
    brk := st.brk + 1 }

/-- The writer's lock is taken, or the lock in its way is marked. -/
def tryWriter (st : Locks) (off len : ℕ) : Except RlPanic (Outcome × Locks) :=
  match writerBlocker st.zRangeAvl off (off + len) with
  | some rl => .ok (.wait ⟨rl.addr, true⟩, st.write { rl with rWriteWanted := true })
  | none => do
      let st' ← addWriter st (st.newRl off len .writer)
      return (.granted (st.newRl off len .writer).grant, st')

/-- One round of `zfs_range_lock_writer`. -/
def zfsRangeLockWriter (st : Locks) (z : Option Zpl) (off len : ℕ) (type : RlType) :
    Except RlPanic (Outcome × Locks) :=
  tryWriter st (writerRange z off len type).1 (writerRange z off len type).2

def lockRound (st : Locks) (z : Option Zpl) (off len : ℕ) (type : RlType) :
    Except RlPanic (Outcome × Locks) :=
  if type = .reader then zfsRangeLockReader st off len else zfsRangeLockWriter st z off len type

/-- `zfs_range_lock`, up to the grant or the first wait. -/
def zfsRangeLock (st : Locks) (z : Option Zpl) (off len : ℕ) (type : RlType) :
    Except RlPanic (Outcome × Locks) :=
  if type = .reader ∧ st.zRangeAvl.length = 0 then do
    let tree ← avlAdd st.zRangeAvl (st.newRl off len .reader)
    return (.granted (st.newRl off len .reader).grant,
      { st with zRangeAvl := tree, brk := st.brk + 1 })
  else lockRound st z off len type

def Rl.wanted (rl : Rl) : List Cv :=
  (if rl.rWriteWanted then [⟨rl.addr, true⟩] else [])
    ++ if rl.rReadWanted then [⟨rl.addr, false⟩] else []

def dropRef (st : Locks) (rl : Rl) : Except RlPanic (Locks × List Cv) :=
  let cnt := (rl.rCnt + 2 ^ 32 - 1) % 2 ^ 32
  if cnt = 0 then do
    let tree ← avlRemove st.zRangeAvl rl
    return ({ st with zRangeAvl := tree }, rl.wanted)
  else .ok (st.write { rl with rCnt := cnt }, [])

/-- The loop of `zfs_range_unlock_reader` through the proxies of a range; `len` is
    what is left of it, in 64 bits. -/
def unlockLoop : ℕ → Locks → Rl → ℕ → Except RlPanic (Locks × List Cv)
  | 0, _, _, _ => .error .fuel
  | fuel + 1, st, rl, len =>
    if (len + 2 ^ 64 - rl.rLen) % 2 ^ 64 = 0 then dropRef st rl
    else match avlNext st.zRangeAvl rl with
      | none => .error .unlockReader
      | some next =>
        if rl.stop ≠ next.rOff ∨ next.rCnt = 0 ∨ next.rType ≠ .reader then
          .error .unlockReader
        else do
          let (st, cvs) ← dropRef st rl
          let (st, cvs') ← unlockLoop fuel st next ((len + 2 ^ 64 - rl.rLen) % 2 ^ 64)
          return (st, cvs ++ cvs')

def releaseShared (st : Locks) (remove : Rl) : Except RlPanic (Locks × List Cv) :=
  match avlFind st.zRangeAvl remove.rOff with
  | none => .error .unlockReader
  | some rl =>
    if rl.rCnt = 0 ∨ rl.rType ≠ .reader then .error .unlockReader
    else if remove.rLen = 0 then .ok (st, [])
    else unlockLoop (st.zRangeAvl.length + 1) st rl remove.rLen

def zfsRangeUnlockReader (st : Locks) (remove : Rl) : Except RlPanic (Locks × List Cv) :=
  if remove.rCnt = 1 then do
    let tree ← avlRemove st.zRangeAvl remove
    return ({ st with zRangeAvl := tree }, remove.wanted)
  else if remove.rCnt ≠ 0 ∨ remove.rWriteWanted = true ∨ remove.rReadWanted = true then
    .error .unlockReader
  else do
    let (st, cvs) ← releaseShared st remove
    return ({ st with away := st.away.filter fun rl => !Rl.isAt remove.addr rl }, cvs)

def Locks.deref (st : Locks) (addr : ℕ) : Option Rl :=
  (st.zRangeAvl ++ st.away).find? (Rl.isAt addr)

/-- `zfs_range_unlock`, with the condition variables that it signals. -/
def zfsRangeUnlock (st : Locks) (addr : ℕ) : Except RlPanic (Locks × List Cv) :=
  match st.deref addr with
  | none => .error .noLock
  | some rl =>
    if rl.rType = .append ∨ 1 < rl.rCnt ∨ rl.rProxy = true then .error .unlock
    else if rl.rType = .writer then do
      let tree ← avlRemove st.zRangeAvl rl
      return ({ st with zRangeAvl := tree }, rl.wanted)
    else zfsRangeUnlockReader st rl

def zfsRangeReduce (st : Locks) (addr off len : ℕ) : Except RlPanic (Locks × List Cv) :=
  match st.deref addr with
  | none => .error .noLock
  | some rl =>
    if st.zRangeAvl.length ≠ 1 ∨ rl.rOff ≠ 0 ∨ rl.rType ≠ .writer ∨ rl.rProxy = true
        ∨ rl.rLen ≠ 2 ^ 64 - 1 ∨ rl.rCnt ≠ 1 then .error .reduce
    else .ok (st.write { rl with rOff := off, rLen := len }, rl.wanted)

/-- A call of `zfs_range_lock` that is not granted yet. -/
structure Request where
  off : ℕ
  len : ℕ
  type : RlType
  deriving DecidableEq

/-- The locks of one file; the calls that wait, each on a condition variable, and
    those that have been woken; and the ledger of what the callers hold, which is
    kept by what they do and not by the lock table. -/
structure World where
  locks : Locks
  waiting : List (Request × Cv)
  ready : List Request
  held : List Grant
  deriving DecidableEq

/-- `cv_broadcast`. -/
def World.broadcast (w : World) (cvs : List Cv) : World :=
  { w with
    waiting := w.waiting.filter fun t => !cvs.contains t.2
    ready := w.ready ++ (w.waiting.filter fun t => cvs.contains t.2).map Prod.fst }

/-- What the threads do: call `zfs_range_lock`, start over after a wake-up, wake up, unlock, reduce.
    Unlock and reduce look at the wanted flags and broadcast after they drop `z_range_lock`; `wake`
    covers the wake-ups that this adds. -/
inductive Op
  | lock (r : Request) (z : Option Zpl)
  | retry (i : ℕ) (z : Option Zpl)
  | wake (i : ℕ)
  | unlock (addr : ℕ)
  | reduce (addr off len : ℕ)

/-- A round of the call `r` has ended. -/
def World.settle (w : World) (r : Request) (res : Outcome × Locks) : World :=
  match res.1 with
  | .granted g => { w with locks := res.2, held := g :: w.held }
  | .wait cv => { w with locks := res.2, waiting := (r, cv) :: w.waiting }

def step (w : World) : Op → Except RlPanic World
  | .lock r z => do
      let res ← zfsRangeLock w.locks z r.off r.len r.type
      return w.settle r res
  | .retry i z =>
    match w.ready[i]? with
    | none => .ok w
    | some r => do
        let res ← lockRound w.locks z r.off r.len r.type
        return World.settle { w with ready := w.ready.eraseIdx i } r res
  | .wake i =>
    match w.waiting[i]? with
    | none => .ok w
    | some t => .ok { w with waiting := w.waiting.eraseIdx i, ready := w.ready ++ [t.1] }
  | .unlock addr => do
      let (locks, cvs) ← zfsRangeUnlock w.locks addr
      return World.broadcast
        { w with locks := locks, held := w.held.filter fun g => g.addr != addr } cvs
  | .reduce addr off len => do
      let (locks, cvs) ← zfsRangeReduce w.locks addr off len
      return World.broadcast { w with
          locks := locks
          held := w.held.map fun g =>
            if g.addr = addr then { g with off := off, stop := off + len } else g } cvs

end Sirius.Rlock
