import Sirius.Zfs.RaidzParity

/-! # Reading a RAID-Z block — three phases until the checksum agrees

    `vdev_raidz_io_start` reads the data columns (and parity when it knows that something is
    missing); `vdev_raidz_io_done` is called when the children are done and either produces
    data that checksums, reads what it has not tried yet and is called again, or tries every
    combination that parity can cover.

    What the children do is a parameter: which are readable, which are stale, and for each
    column the error and the bytes of a read. -/

namespace Sirius.Raidz

open Sirius.Lib Function

def eio : Nat := 5
def enxio : Nat := 6
def ecksum : Nat := 50
def estale : Nat := 151

/-- The fields of `raidz_col_t` that a read changes. -/
structure ColIo where
  rcError : Nat
  rcTried : Bool
  rcSkipped : Bool
  deriving DecidableEq

/-- The changing part of a read: `rm_missing*`, the columns and their buffers. -/
structure ReadState where
  rmMissingdata : Nat
  rmMissingparity : Nat
  col : Nat → ColIo
  data : Stripe

/-- `ZIO_FLAG_SCRUB`, `ZIO_FLAG_RESILVER` and `spa_mode & FWRITE`. -/
structure ReadFlags where
  scrub : Bool
  resilver : Bool
  fwrite : Bool
  deriving DecidableEq

/-- What the children do, by column: `vdev_readable`, `vdev_dtl_contains` at the block's birth, and
    the error and bytes of a read.  `freshP` and `freshQ` are the contents of the buffers allocated
    while columns `x` and `y` are reconstructed. -/
structure Children where
  readable : Nat → Bool
  stale : Nat → Bool
  error : Nat → Nat
  bytes : Nat → Buf
  freshP : Nat → Nat → Buf
  freshQ : Nat → Nat → Buf

/-! ## `vdev_raidz_io_start` -/

def vdevRaidzChildDone (error : Nat) : ColIo := ⟨error, true, false⟩

/-- A child read of column `c`, issued and completed.  It touches nothing but
    its own column, so it may complete at once. -/
def readCol (ch : Children) (c : Nat) (st : ReadState) : ReadState :=
  { st with
    col := update st.col c (vdevRaidzChildDone (ch.error c))
    data := update st.data c (ch.bytes c) }

section

variable {ch : Children} {c c' : Nat} {st : ReadState}

theorem readCol_col_self : (readCol ch c st).col c = vdevRaidzChildDone (ch.error c) :=
  update_self _ _ _

theorem readCol_data_self : (readCol ch c st).data c = ch.bytes c := update_self _ _ _

theorem readCol_col_of_ne (h : c' ≠ c) : (readCol ch c st).col c' = st.col c' := update_of_ne h _ _

theorem readCol_data_of_ne (h : c' ≠ c) : (readCol ch c st).data c' = st.data c' :=
  update_of_ne h _ _

end

def missCol (rm : RaidzMap) (c : Nat) (io : ColIo) (st : ReadState) : ReadState :=
  { st with
    rmMissingdata := st.rmMissingdata + if rm.rmFirstdatacol ≤ c then 1 else 0
    rmMissingparity := st.rmMissingparity + if rm.rmFirstdatacol ≤ c then 0 else 1
    col := update st.col c io }

theorem missCol_col_self {rm : RaidzMap} {c : Nat} {io : ColIo} {st : ReadState} :
    (missCol rm c io st).col c = io :=
  update_self _ _ _

theorem missCol_col_of_ne {rm : RaidzMap} {c c' : Nat} {io : ColIo} {st : ReadState}
    (h : c' ≠ c) : (missCol rm c io st).col c' = st.col c' :=
  update_of_ne h _ _

/-- One column of the loop in `vdev_raidz_io_start`. -/
def ioStartCol (ch : Children) (flags : ReadFlags) (rm : RaidzMap) (c : Nat)
    (st : ReadState) : ReadState :=
  if ch.readable c = false then
    missCol rm c ⟨enxio, true, true⟩ st
  else if ch.stale c = true then
    missCol rm c ⟨estale, (st.col c).rcTried, true⟩ st
  else if rm.rmFirstdatacol ≤ c ∨ 0 < st.rmMissingdata ∨ flags.scrub = true then
    readCol ch c st
  else st

/-- The state `vdev_raidz_map_alloc` leaves; the buffers hold anything. -/
def initState (rm : RaidzMap) (d : Stripe) : ReadState :=
  { rmMissingdata := rm.rmMissingdata
    rmMissingparity := rm.rmMissingparity
    col := fun c => ⟨(rm.rmCol c).rcError, (rm.rmCol c).rcTried, (rm.rmCol c).rcSkipped⟩
    data := d }

/-- `vdev_raidz_io_start` of a read.  The columns are visited in reverse so
    that parity comes last. -/
def vdevRaidzIoStart (ch : Children) (flags : ReadFlags) (rm : RaidzMap) (d : Stripe) :
    ReadState :=
  forRange 0 rm.rmCols (fun i st => ioStartCol ch flags rm (rm.rmCols - 1 - i) st) (initState rm d)

/-! ## `vdev_raidz_io_done` -/

structure Tally where
  ioError : Nat
  ioNumerrors : Nat
  unexpectedErrors : Nat
  parityErrors : Nat
  parityUntried : Nat
  dataErrors : Nat
  deriving DecidableEq

def tallyCol (rm : RaidzMap) (st : ReadState) (c : Nat) (t : Tally) : Tally :=
  let rc := st.col c
  if rc.rcError ≠ 0 then
    { ioError := if t.ioError ≠ eio then rc.rcError else t.ioError
      ioNumerrors := t.ioNumerrors + 1
      unexpectedErrors := t.unexpectedErrors + if rc.rcSkipped then 0 else 1
      parityErrors := t.parityErrors + if c < rm.rmFirstdatacol then 1 else 0
      parityUntried := t.parityUntried
      dataErrors := t.dataErrors + if c < rm.rmFirstdatacol then 0 else 1 }
  else if c < rm.rmFirstdatacol ∧ rc.rcTried = false then
    { t with parityUntried := t.parityUntried + 1 }
  else t

def tally (rm : RaidzMap) (st : ReadState) : Tally :=
  forRange 0 rm.rmCols (tallyCol rm st) ⟨0, 0, 0, 0, 0, 0⟩

/-- The data columns hold `orig`. -/
def DataRight (rm : RaidzMap) (orig d : Stripe) : Prop :=
  ∀ c < rm.rmCols, rm.rmFirstdatacol ≤ c → ∀ k < (rm.rmCol c).rcSize, d c k = orig c k

instance (rm : RaidzMap) (orig d : Stripe) : Decidable (DataRight rm orig d) :=
  inferInstanceAs (Decidable (∀ c < rm.rmCols, _ → ∀ k < _, _))

/-- `zio_checksum_error(zio) == 0`, an exact test of `io_data`. -/
def zioChecksumOk (rm : RaidzMap) (orig d : Stripe) : Bool := decide (DataRight rm orig d)

/-- `bcopy(src, dst, n)`. -/
def bcopy (src dst : Buf) (n : Nat) : Buf := fun k => if k < n then src k else dst k

def setError (c e : Nat) (st : ReadState) : ReadState :=
  { st with col := update st.col c { st.col c with rcError := e } }

/-- `raidz_parity_verify`: regenerate parity, flag the columns that were read
    and differ, and count them. -/
def raidzParityVerify (rm : RaidzMap) (st : ReadState) : ReadState × Nat :=
  let gen := vdevRaidzGenerateParity rm st.data
  forRange 0 rm.rmFirstdatacol (fun c s =>
    if (st.col c).rcTried = false ∨ (st.col c).rcError ≠ 0 then s
    else if ∀ k < (rm.rmCol c).rcSize, st.data c k = gen c k then s
    else (setError c ecksum s.1, s.2 + 1)) ({ st with data := gen }, 0)

/-- The first column from `lo` on that reported an error. -/
def firstError (rm : RaidzMap) (st : ReadState) (lo : Nat) : Nat :=
  ((List.range' lo (rm.rmCols - lo)).find? (fun c => (st.col c).rcError ≠ 0)).getD rm.rmCols

/-- How an attempt at producing data ends: with the state and the number of
    unexpected errors at `done`, or with the buffers it leaves behind. -/
inductive Attempt where
  | done (st : ReadState) (unexpectedErrors : Nat)
  | failed (st : ReadState)

def phase1Done (rm : RaidzMap) (st : ReadState) (t : Tally) (verify : Bool) : Attempt :=
  if verify then
    let v := raidzParityVerify rm st
    .done v.1 (t.unexpectedErrors + v.2)
  else .done st t.unexpectedErrors

def phase1 (ch : Children) (flags : ReadFlags) (rm : RaidzMap) (orig : Stripe)
    (st : ReadState) (t : Tally) : Attempt :=
  if t.ioNumerrors ≤ rm.rmFirstdatacol - t.parityUntried then
    match t.dataErrors with
    | 0 =>
      if zioChecksumOk rm orig st.data then
        phase1Done rm st t
          (t.parityErrors + t.parityUntried < rm.rmFirstdatacol ∨ flags.resilver = true)
      else .failed st
    | 1 =>
      let c := firstError rm st rm.rmFirstdatacol
      let d := if (st.col vdevRaidzP).rcError = 0 then vdevRaidzReconstructP rm c st.data
        else vdevRaidzReconstructQ rm c st.data
      if zioChecksumOk rm orig d then
        phase1Done rm { st with data := d } t
          (t.parityErrors < rm.rmFirstdatacol - 1 ∨ flags.resilver = true)
      else .failed { st with data := d }
    | 2 =>
      let c1 := firstError rm st rm.rmFirstdatacol
      let c := firstError rm st (c1 + 1)
      let d := vdevRaidzReconstructPq rm c1 c (ch.freshP c1 c) (ch.freshQ c1 c) st.data
      if zioChecksumOk rm orig d then .done { st with data := d } t.unexpectedErrors
      else .failed { st with data := d }
    | _ => .failed st
  else .failed st

def readUntried (ch : Children) (rm : RaidzMap) (st : ReadState) : ReadState :=
  forRange 0 rm.rmCols (fun c s =>
    if (s.col c).rcTried then s else readCol ch c s) st

/-- Put back what column `c` held before a failed reconstruction. -/
def restoreCol (rm : RaidzMap) (c : Nat) (before after : Stripe) : Stripe :=
  update after c (bcopy (before c) (after c) (rm.rmCol c).rcSize)

def tryCols (rm : RaidzMap) (orig : Stripe) (reconstruct : Nat → Stripe → Stripe) :
    List Nat → Stripe → Stripe × Option Nat
  | [], d => (d, none)
  | c :: cs, d =>
    if zioChecksumOk rm orig (reconstruct c d) then (reconstruct c d, some c)
    else tryCols rm orig reconstruct cs (restoreCol rm c d (reconstruct c d))

/-- Phase 3, the pairs with first column `c`; only the second column is put back
    between two attempts. -/
def tryPairsWith (ch : Children) (rm : RaidzMap) (orig : Stripe) (c : Nat) :
    List Nat → Stripe → Stripe × Option Nat
  | [], d => (d, none)
  | c1 :: cs, d =>
    let d' := vdevRaidzReconstructPq rm c c1 (ch.freshP c c1) (ch.freshQ c c1) d
    if zioChecksumOk rm orig d' then (d', some c1)
    else tryPairsWith ch rm orig c cs (restoreCol rm c1 d d')

def tryPairs (ch : Children) (rm : RaidzMap) (orig : Stripe) :
    List Nat → Stripe → Stripe × Option (Nat × Nat)
  | [], d => (d, none)
  | c :: cs, d =>
    match tryPairsWith ch rm orig c (List.range' (c + 1) (rm.rmCols - (c + 1))) d with
    | (d', some c1) => (d', some (c, c1))
    | (d', none) => tryPairs ch rm orig cs (restoreCol rm c d d')

def dataCols (rm : RaidzMap) : List Nat :=
  List.range' rm.rmFirstdatacol (rm.rmCols - rm.rmFirstdatacol)

def phase3 (ch : Children) (rm : RaidzMap) (orig : Stripe) (st : ReadState) : Attempt :=
  let p := (st.col vdevRaidzP).rcError = 0
  let q := 1 < rm.rmFirstdatacol ∧ (st.col vdevRaidzQ).rcError = 0
  let fromP := if p then tryCols rm orig (vdevRaidzReconstructP rm) (dataCols rm) st.data
    else (st.data, none)
  match fromP with
  | (d, some c) => .done (setError c ecksum { st with data := d }) 1
  | (d, none) =>
    let fromQ := if q then tryCols rm orig (vdevRaidzReconstructQ rm) (dataCols rm) d
      else (d, none)
    match fromQ with
    | (d, some c) => .done (setError c ecksum { st with data := d }) 1
    | (d, none) =>
      let fromPq := if p ∧ q then tryPairs ch rm orig
          (List.range' rm.rmFirstdatacol (rm.rmCols - 1 - rm.rmFirstdatacol)) d
        else (d, none)
      match fromPq with
      | (d, some (c, c1)) =>
        .done (setError c1 ecksum (setError c ecksum { st with data := d })) 1
      | (d, none) => .failed { st with data := d }

/-- What one call of `vdev_raidz_io_done` leads to: the untried columns are
    read and it will be called again, or the I/O is done with `io_error`;
    `repair` says that every column with an error is then rewritten. -/
inductive IoDone where
  | reread (st : ReadState)
  | finished (ioError : Nat) (st : ReadState) (repair : Bool)

/-- From the label `done` on. -/
def finishIo (flags : ReadFlags) (ioError : Nat) (st : ReadState) (unexpectedErrors : Nat) :
    IoDone :=
  .finished ioError st
    (ioError = 0 ∧ flags.fwrite = true ∧ (unexpectedErrors ≠ 0 ∨ flags.resilver = true))

def someUntried (rm : RaidzMap) (st : ReadState) : Bool :=
  decide (∃ c < rm.rmCols, (st.col c).rcTried = false)

/-- `vdev_raidz_io_done` of a read. -/
def vdevRaidzIoDone (ch : Children) (flags : ReadFlags) (rm : RaidzMap) (orig : Stripe)
    (st : ReadState) : IoDone :=
  let t := tally rm st
  match phase1 ch flags rm orig st t with
  | .done st' n => finishIo flags 0 st' n
  | .failed st' =>
    let st' := { st' with rmMissingdata := 0, rmMissingparity := 0 }
    if someUntried rm st' then .reread (readUntried ch rm st')
    else if rm.rmFirstdatacol ≤ t.ioNumerrors then finishIo flags t.ioError st' 1
    else
      match phase3 ch rm orig st' with
      | .done st'' n => finishIo flags 0 st'' n
      | .failed st'' => finishIo flags ecksum st'' 1

/-- The repeated calls of `vdev_raidz_io_done`; the answer is paired with the
    state before the last call. -/
def ioDoneLoop (ch : Children) (flags : ReadFlags) (rm : RaidzMap) (orig : Stripe) :
    Nat → ReadState → Option (ReadState × IoDone)
  | 0, _ => none
  | fuel + 1, st =>
    match vdevRaidzIoDone ch flags rm orig st with
    | .reread st' => ioDoneLoop ch flags rm orig fuel st'
    | r => some (st, r)

/-- A whole read of a block that was written as `orig`, into buffers that hold `d`. -/
def vdevRaidzRead (ch : Children) (flags : ReadFlags) (rm : RaidzMap) (orig d : Stripe)
    (fuel : Nat) : Option (ReadState × IoDone) :=
  ioDoneLoop ch flags rm orig fuel (vdevRaidzIoStart ch flags rm d)

end Sirius.Raidz
