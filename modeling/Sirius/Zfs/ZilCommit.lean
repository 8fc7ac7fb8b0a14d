import Sirius.Zfs.ZilChain

/-! # `zil_commit`

    Threads that assign in-memory transactions and threads that commit them.  One thread at a time
    is the writer; `Phase` says where it is in `zil_commit_writer`.  The others wait. -/

namespace Sirius.Zil.Commit

/-- `lrc_txtype`, as far as `zil_commit_writer` looks at it. -/
inductive TxType
  | setattr
  | write
  | truncate
  | acl
  | other
  deriving DecidableEq

/-- `itx_wr_state_t`. -/
inductive WrState
  | indirect
  | copied
  | needCopy
  deriving DecidableEq

/-- `itx_t`; `seq` is what `zil_itx_assign` numbers it, `body` what the log record has in it. -/
structure Itx where
  seq : Nat
  txg : Nat
  txtype : TxType
  foid : Nat
  sync : Bool
  wrState : WrState
  reclen : Nat
  /-- `lr_length` of a write. -/
  length : Nat
  /-- `itx_sod`. -/
  sod : Nat
  body : Body
  deriving DecidableEq

/-- `P2ROUNDUP`. -/
def roundUp (x align : Nat) : Nat := (x + align - 1) / align * align

namespace Itx

def dlen (i : Itx) : Nat :=
  if i.txtype = .write ∧ i.wrState = .needCopy then roundUp i.length 8 else 0

def record (i : Itx) (lrSeq : Nat) : Record := ⟨i.reclen + i.dlen, i.txg, lrSeq, i.body⟩

/-- `zl_get_data` is called. -/
def needsData (i : Itx) : Bool := i.txtype = .write ∧ i.wrState ≠ .copied

end Itx

/-- A call of `zil_commit`, with the capped number. -/
structure Call where
  seq : Nat
  foid : Nat
  deriving DecidableEq

def Call.selects (c : Call) (i : Itx) : Bool :=
  c.foid == 0 || i.sync || match i.txtype with
    | .setattr | .write | .truncate | .acl => i.foid == c.foid
    | .other => true

/-- Where the writer is.  `lwb` is the address of its log write buffer, none for `NULL`, and `next`
    the number of `itx_next`. -/
inductive Phase
  | idle
  /-- In `zil_create`. -/
  | create (c : Call)
  /-- In `txg_wait_synced` of `zil_create`. -/
  | createWait (c : Call) (txg : Nat)
  /-- At the head of the loop. -/
  | loop (c : Call) (lwb : Option Nat) (next : Option Nat)
  /-- In front of `zil_lwb_commit`. -/
  | push (c : Call) (lwb : Option Nat) (next : Option Nat) (i : Itx)
  /-- In `zil_lwb_commit`, with a buffer that has been initialised. -/
  | store (c : Call) (lwb : Nat) (next : Option Nat) (i : Itx)
  /-- In `txg_wait_synced` for a record that is too large. -/
  | waitItx (c : Call) (lwb : Nat) (next : Option Nat) (i : Itx)
  /-- In front of the write of the last block. -/
  | closing (c : Call) (lwb : Option Nat) (commitSeq : Nat)
  /-- In `zio_wait`. -/
  | waitIo (c : Call) (lwb : Option Nat) (commitSeq : Nat)
  /-- In the last `txg_wait_synced`. -/
  | waitSynced (c : Call) (commitSeq : Nat) (txg : Nat)
  /-- A buffer that is gone was about to be filled. -/
  | panic
  deriving DecidableEq

structure State where
  pool : Pool
  /-- `zl_itx_list`. -/
  itxs : List Itx
  /-- `zl_itx_seq`. -/
  itxSeq : Nat
  /-- `zl_commit_seq`. -/
  commitSeq : Nat
  /-- `zl_lr_seq`. -/
  lrSeq : Nat
  /-- `zl_cur_used`. -/
  curUsed : Nat
  /-- `zl_prev_used`. -/
  prevUsed : Nat
  /-- `zl_log_error`. -/
  logError : Bool
  phase : Phase
  /-- The threads that wait on `zl_cv_writer`. -/
  waiting : List Call
  /-- The transactions that were ever assigned. -/
  assigned : List Itx
  /-- The transactions the writer has taken from the list. -/
  pulled : List Itx
  /-- The transactions that were copied to a buffer, with their record numbers. -/
  logged : List (Itx × Nat)
  /-- The transactions whose data need not be logged. -/
  unneeded : List Itx
  /-- The calls that have returned. -/
  returned : List Call

/-- What `zio_alloc_blk` returns for the first block: its address, and the random words. -/
structure Alloc where
  dva : Nat
  guid0 : Nat
  guid1 : Nat
  deriving DecidableEq

inductive Event
  | assign (i : Itx)
  | clean
  | call (seq foid : Nat)
  /-- The waiting thread number `k` wakes up. -/
  | wake (k : Nat)
  /-- The writer goes on; `alloc` is what the allocator returns, if it is asked, and `getData`
      whether `zl_get_data` succeeds. -/
  | writer (alloc : Option Alloc) (getData : Bool)
  | release (dva : Nat) (ok : Bool)
  | writeDone (dva : Nat)
  | dirty (txg : Nat)
  | openNext
  | beginSync
  | zilSync
  | commitTxg
  deriving DecidableEq

namespace State

variable (s : State)

/-- `ZIL_MIN_BLKSZ` and `ZIL_MAX_BLKSZ`. -/
def minBlksz : Nat := 4096

@[inherit_doc minBlksz]
def maxBlksz : Nat := 131072

/-- The size that `zil_lwb_write_start` asks for; `zl_itx_list_sz` is the sum over the list. -/
def blksz : Nat :=
  let size := max s.prevUsed (s.curUsed + trailerSize)
  let size := max size ((s.itxs.map Itx.sod).sum + trailerSize)
  min (roundUp size minBlksz) maxBlksz

/-- `zil_itx_assign`, for a transaction in a txg that is still open or quiescing. -/
def assign (i : Itx) : Option State :=
  if s.pool.Assignable i.txg ∧ 0 < i.reclen then
    let i := { i with seq := s.itxSeq + 1 }
    some { s with itxs := s.itxs ++ [i], itxSeq := s.itxSeq + 1, assigned := s.assigned ++ [i] }
  else none

/-- `zil_itx_clean`, which waits for the writer. -/
def clean : Option State :=
  if s.phase = .idle then some { s with itxs := s.itxs.dropWhile fun i => i.txg ≤ s.pool.syncedTxg }
  else none

/-- `zil_commit` returns. -/
def ret (c : Call) : State := { s with returned := c :: s.returned }

/-- The start of `zil_commit_writer`. -/
def start (c : Call) : State :=
  match s.pool.lwbs.getLast? with
  | some l => { s with phase := .loop c (some l.blk.dva) (some 0), pulled := [] }
  | none => if s.itxs = [] then s.ret c else { s with phase := .create c, pulled := [] }

/-- `zil_commit` up to the first wait. -/
def call (seq foid : Nat) : State :=
  if seq = 0 then s.ret ⟨0, foid⟩
  else
    let c : Call := ⟨min seq s.itxSeq, foid⟩
    if s.phase = .idle then s.start c else { s with waiting := s.waiting ++ [c] }

/-- A waiting thread of `zil_commit` wakes up. -/
def wake (k : Nat) : Option State :=
  match s.waiting[k]? with
  | none => none
  | some c =>
    let s := { s with waiting := s.waiting.eraseIdx k }
    if c.seq < s.commitSeq then some (s.ret c)
    else if s.phase = .idle then some (s.start c)
    else none

/-- `zil_create`. -/
def create (c : Call) (alloc : Option Alloc) (objset : Nat) : State :=
  if s.pool.log.IsHole then
    let txg := s.pool.openTxg
    let pool := s.pool.setDirty txg
    match alloc with
    | some a =>
      let bp : Blkptr := ⟨a.dva, txg, minBlksz, ⟨a.guid0, a.guid1, objset, 1⟩⟩
      { s with pool := pool.append (newLwb bp txg), phase := .createWait c txg }
    | none => { s with pool := pool, phase := .createWait c txg }
  else
    { s with
      pool := s.pool.append (newLwb s.pool.log 0)
      phase := .loop c (some s.pool.log.dva) (some 0) }

/-- The loop is left: the number up to which everything is committed. -/
def leaveLoop (c : Call) (lwb : Option Nat) : State :=
  { s with phase := .closing c lwb ((s.itxs.head?.map Itx.seq).getD s.itxSeq) }

def joins (lwb : Option Nat) (i : Itx) : Bool :=
  match lwb.bind s.pool.find with
  | some l => l.nused ≠ 0 ∧ l.nused + i.sod ≤ l.dataSz
  | none => false

/-- The head of the loop of `zil_commit_writer`. -/
def pick (c : Call) (lwb next : Option Nat) : State :=
  match next.bind fun n => s.itxs.find? fun i => n ≤ i.seq ∧ c.selects i with
  | none => s.leaveLoop c lwb
  | some i =>
    if i.seq > c.seq ∧ ¬ s.joins lwb i then s.leaveLoop c lwb
    else
      { s with
        itxs := s.itxs.erase i
        pulled := i :: s.pulled
        phase := .push c lwb ((s.itxs.find? fun j => i.seq < j.seq).map Itx.seq) i }

/-- `zil_lwb_write_start` with the address that the allocator returns. -/
def writeStart (l : Lwb) (alloc : Option Alloc) : State × Option Nat :=
  let (pool, lwb) := s.pool.writeStart l s.blksz (alloc.map Alloc.dva)
  ({ s with pool := pool }, lwb)

/-- `zil_lwb_commit` up to the buffer into which the record goes. -/
def push (c : Call) (lwb next : Option Nat) (i : Itx) (alloc : Option Alloc) : State :=
  if i.txg ≤ s.pool.syncedTxg then { s with phase := .loop c lwb next }
  else
    match lwb with
    | none => { s with phase := .loop c none next }
    | some dva =>
      match s.pool.find dva with
      | some l =>
        match l.write with
        | .filling _ =>
          let s := { s with curUsed := s.curUsed + (i.reclen + i.dlen) }
          if l.nused + i.reclen + i.dlen > l.dataSz then
            match s.writeStart l alloc with
            | (s, some dva) => { s with phase := .store c dva next i }
            | (s, none) => { s with phase := .loop c none next }
          else { s with phase := .store c dva next i }
        | _ => { s with phase := .panic }
      | none => { s with phase := .panic }

def fill (dva : Nat) (i : Itx) : Pool := s.pool.modify dva fun l => l.put (i.record (s.lrSeq + 1))

/-- The rest of `zil_lwb_commit`. -/
def store (c : Call) (dva : Nat) (next : Option Nat) (i : Itx) (getData : Bool) : Option State :=
  match s.pool.find dva with
  | none => none
  | some l =>
    if i.reclen + i.dlen > l.dataSz then
      some { s with
        pool := s.pool.modify dva fun l => { l with write := .filling true }
        phase := .waitItx c dva next i }
    else if i.needsData ∧ ¬ getData then
      some { s with
        pool := s.pool.modify dva fun l => { l with write := .filling true }
        lrSeq := s.lrSeq + 1
        unneeded := i :: s.unneeded
        phase := .loop c (some dva) next }
    else
      some { s with
        pool := s.fill dva i
        lrSeq := s.lrSeq + 1
        logged := (i, s.lrSeq + 1) :: s.logged
        phase := .loop c (some dva) next }

/-- The end of the loop of `zil_commit_writer`.  `lwb_zio` is taken as absent once its write is
    done: the source leaves the pointer to the finished zio there. -/
def close (c : Call) (lwb : Option Nat) (commitSeq : Nat) (alloc : Option Alloc) : State :=
  let (t, lwb) :=
    match lwb.bind s.pool.find with
    | some l => if l.write = Write.filling true then s.writeStart l alloc else (s, lwb)
    | none => (s, lwb)
  { t with prevUsed := t.curUsed, curUsed := 0, phase := .waitIo c lwb commitSeq }

/-- The end of `zil_commit_writer`. -/
def finish (c : Call) (commitSeq : Nat) : State :=
  { s.ret c with commitSeq := commitSeq, pulled := [], phase := .idle }

/-- The writer goes on.  All writes of earlier commits are done, so that `zio_wait` waits for
    those that are on their way. -/
def writer (objset : Nat) (alloc : Option Alloc) (getData : Bool) : Option State :=
  if ∀ a ∈ alloc, s.pool.Unallocated a.dva then
    match s.phase with
    | .idle => none
    | .create c => some (s.create c alloc objset)
    | .createWait c txg =>
      if txg ≤ s.pool.syncedTxg then
        some { s with phase := .loop c (s.pool.lwbs.getLast?.map fun l => l.blk.dva) (some 0) }
      else none
    | .loop c lwb next => some (s.pick c lwb next)
    | .push c lwb next i => some (s.push c lwb next i alloc)
    | .store c dva next i => s.store c dva next i getData
    | .waitItx c dva next i =>
      if i.txg ≤ s.pool.syncedTxg then some { s with phase := .loop c (some dva) next } else none
    | .closing c lwb commitSeq => some (s.close c lwb commitSeq alloc)
    | .waitIo c lwb commitSeq =>
      if ∀ l ∈ s.pool.lwbs, ¬ l.inFlight then
        if s.logError ∨ lwb = none then
          some { s with logError := false, phase := .waitSynced c commitSeq s.pool.openTxg }
        else some (s.finish c commitSeq)
      else none
    | .waitSynced c commitSeq txg =>
      if txg ≤ s.pool.syncedTxg then some (s.finish c commitSeq) else none
    | .panic => none
  else none

def onPool (s : State) (pool : Option Pool) : Option State := pool.map fun p => { s with pool := p }

end State

def step (objset : Nat) (s : State) : Event → Option State
  | .assign i => s.assign i
  | .clean => s.clean
  | .call seq foid => some (s.call seq foid)
  | .wake k => s.wake k
  | .writer alloc getData => s.writer objset alloc getData
  | .release dva ok => s.onPool (s.pool.release dva ok)
  | .writeDone dva =>
    (s.pool.writeDone dva).map fun x => { s with pool := x.1, logError := s.logError || x.2 }
  | .dirty txg => if s.pool.Assignable txg then s.onPool (some (s.pool.setDirty txg)) else none
  | .openNext => s.onPool s.pool.openNext
  | .beginSync => s.onPool s.pool.beginSync
  | .zilSync => s.onPool s.pool.zilSync
  | .commitTxg => s.onPool s.pool.commitTxg

def run (objset : Nat) : State → List Event → Option State
  | s, [] => some s
  | s, ev :: evs => (step objset s ev).bind fun s' => run objset s' evs

/-- A dataset that has been mounted, with the log that its header names. -/
def mount (syncedTxg : Nat) (media : Media) (log : Blkptr) : State where
  pool :=
    { openTxg := syncedTxg + 1
      syncedTxg := syncedTxg
      syncing := false
      zilSynced := false
      dirty := []
      media := media
      diskLog := log
      log := log
      retired := []
      lwbs := [] }
  itxs := []
  itxSeq := 0
  commitSeq := 0
  lrSeq := 0
  curUsed := 0
  prevUsed := 0
  logError := false
  phase := .idle
  waiting := []
  assigned := []
  pulled := []
  logged := []
  unneeded := []
  returned := []

/-- A transaction is safe: its txg is on disk, or a parse from the header on disk gets to its
    record, or it need not be logged. -/
def Durable (s : State) (i : Itx) : Prop :=
  i.txg ≤ s.pool.syncedTxg ∨ i ∈ s.unneeded ∨
    ∃ n, (i, n) ∈ s.logged ∧ Reaches s.pool.media s.pool.diskLog (i.record n)

def Kept (s : State) : Prop :=
  ∀ c ∈ s.returned, ∀ i ∈ s.assigned, i.seq ≤ c.seq → c.selects i → Durable s i

/-- `zil_sync` of a txg in which an allocation failed does not run between `txg_rele_to_sync` and
    the end of `zil_lwb_write_done`. -/
def Pool.AtRest (p : Pool) : Prop :=
  (∃ l ∈ p.lwbs, l.trailer = some (none, p.syncedTxg + 1)) → ∀ l ∈ p.lwbs, ¬ l.releasing

instance (p : Pool) : Decidable p.AtRest := inferInstanceAs (Decidable (_ → _))

/-- No block that the header on disk leads to has failed to be written. -/
def Pool.Unbroken (p : Pool) : Prop := ∀ l ∈ p.chain, ¬ l.failed

instance (p : Pool) : Decidable p.Unbroken := inferInstanceAs (Decidable (∀ _ ∈ _, _))

def Orderly (s : State) : Event → Prop
  | .zilSync => s.pool.AtRest
  | .call seq _ => seq ≠ 0 → s.phase = .idle → s.pool.Unbroken
  | .wake k => s.phase = .idle → (∃ c ∈ s.waiting[k]?, ¬ c.seq < s.commitSeq) → s.pool.Unbroken
  | _ => True

instance (s : State) : (ev : Event) → Decidable (Orderly s ev)
  | .zilSync => inferInstanceAs (Decidable s.pool.AtRest)
  | .call _ _ | .wake _ => inferInstanceAs (Decidable (_ → _ → _))
  | .assign _ | .clean | .writer _ _ | .release _ _ | .writeDone _ | .dirty _
    | .openNext | .beginSync
  | .commitTxg => isTrue trivial

def OrderlyRun (objset : Nat) : State → List Event → Prop
  | _, [] => True
  | s, ev :: evs => Orderly s ev ∧ ∀ s' ∈ step objset s ev, OrderlyRun objset s' evs

instance decidableOrderlyRun (objset : Nat) :
    (s : State) → (evs : List Event) → Decidable (OrderlyRun objset s evs)
  | _, [] => isTrue trivial
  | s, ev :: evs =>
    have := fun s' => decidableOrderlyRun objset s' evs
    inferInstanceAs (Decidable (_ ∧ ∀ s' ∈ step objset s ev, _))

end Sirius.Zil.Commit
