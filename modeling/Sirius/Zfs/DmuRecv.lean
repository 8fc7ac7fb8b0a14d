import Sirius.Lib.BigEndian

/-! # Receiving a backup stream

    `dmu_recv_stream` of `dmu_send.c` with its handlers.  The stream is a list of bytes, read
    with `vn_rdwr` in pieces of any size; the objset behind the DMU calls and the errors they
    return are a parameter (`Dmu`).  `Action` records what could go wrong: bytes stored in
    `ra.buf`, bytes handed to `dmu_write`, rows of `dmu_ot[]` called through, bonus buffers
    held and released, and the steps of `dmu_recv_abort_cleanup`. -/

namespace Sirius.Recv

open Sirius.Lib

def einval : ℕ := 22

def enoent : ℕ := 2

def eintr : ℕ := 4

/-- `ECKSUM`, which is `EBADE`. -/
def ecksum : ℕ := 50

def dmuOtNumtypes : ℕ := 39

def zioChecksumFunctions : ℕ := 9

def zioCompressFunctions : ℕ := 14

def spaMinblocksize : ℕ := 512

def spaMaxblocksize : ℕ := 131072

def dnMaxBonuslen : ℕ := 320

def dnodeShift : ℕ := 9

/-- `ra.bufsize`. -/
def bufsize : ℕ := 1048576

/-- `sizeof (dmu_replay_record_t)`. -/
def recordSize : ℕ := 312

def dmuBackupMagic : ℕ := 0x2F5bacbac

/-- `P2ROUNDUP(x, 8)`. -/
def roundup8 (x : ℕ) : ℕ := (x + 7) / 8 * 8

/-- `struct drr_object`. -/
structure DrrObject where
  object : BitVec 64
  type : BitVec 32
  bonustype : BitVec 32
  blksz : BitVec 32
  bonuslen : BitVec 32
  checksum : BitVec 8
  compress : BitVec 8
  deriving DecidableEq

/-- `struct drr_freeobjects`. -/
structure DrrFreeobjects where
  firstobj : BitVec 64
  numobjs : BitVec 64
  deriving DecidableEq

/-- `struct drr_write`. -/
structure DrrWrite where
  object : BitVec 64
  type : BitVec 32
  offset : BitVec 64
  length : BitVec 64
  deriving DecidableEq

/-- `struct drr_free`. -/
structure DrrFree where
  object : BitVec 64
  offset : BitVec 64
  length : BitVec 64
  deriving DecidableEq

/-- `zio_cksum_t`. -/
structure Cksum where
  a : BitVec 64
  b : BitVec 64
  c : BitVec 64
  d : BitVec 64
  deriving DecidableEq

/-- What the switch of `dmu_recv_stream` tells apart. -/
inductive Drr
  | object (drro : DrrObject)
  | freeobjects (drrfo : DrrFreeobjects)
  | write (drrw : DrrWrite)
  | free (drrf : DrrFree)
  | finish (checksum : Cksum)
  /-- The default of the switch, `DRR_BEGIN` among it. -/
  | other
  deriving DecidableEq

/-- `BSWAP_32` and `BSWAP_64`, for a number of `n` bytes. -/
def bswap (n x : ℕ) : ℕ := beRead 0 (beBytes n x).reverse

/-- The `n`-byte field at an offset of a record, as the machine loads it. -/
def load (n : ℕ) (hdr : List Byte) (off : ℕ) : ℕ := beRead 0 ((hdr.drop off).take n)

/-- A field after `backup_byteswap`. -/
def field (byteswap : Bool) (n : ℕ) (hdr : List Byte) (off : ℕ) : ℕ :=
  if byteswap then bswap n (load n hdr off) else load n hdr off

/-- The record in the first `recordSize` bytes of the buffer, after `backup_byteswap`. -/
def decode (byteswap : Bool) (hdr : List Byte) : Drr :=
  let f32 := fun off => BitVec.ofNat 32 (field byteswap 4 hdr off)
  let f64 := fun off => BitVec.ofNat 64 (field byteswap 8 hdr off)
  match field byteswap 4 hdr 0 with
  | 1 => .object ⟨f64 8, f32 16, f32 20, f32 24, f32 28, hdr.getD 32 0, hdr.getD 33 0⟩
  | 2 => .freeobjects ⟨f64 8, f64 16⟩
  | 3 => .write ⟨f64 8, f32 16, f64 24, f64 32⟩
  | 4 => .free ⟨f64 8, f64 16, f64 24⟩
  | 5 => .finish ⟨f64 8, f64 16, f64 24, f64 32⟩
  | _ => .other

/-- `fletcher_4_incremental_native` and `fletcher_4_incremental_byteswap`. -/
def fletcher4 (byteswap : Bool) : List Byte → Cksum → Cksum
  | w₀ :: w₁ :: w₂ :: w₃ :: rest, zc =>
    let word := if byteswap then beRead 0 [w₃, w₂, w₁, w₀] else beRead 0 [w₀, w₁, w₂, w₃]
    let a := zc.a + BitVec.ofNat 64 word
    let b := zc.b + a
    let c := zc.c + b
    fletcher4 byteswap rest ⟨a, b, c, zc.d + c⟩
  | _, zc => zc

/-! ## What is around the receiver -/

/-- The DMU calls of the handlers on an objset `σ`: what they return and what they leave.
    `dnode_next_offset` finds the next allocated dnode of the meta-dnode at or after an offset; it
    may fail, but never moves the offset back. -/
structure Dmu (σ : Type) where
  objectInfo : σ → BitVec 64 → ℕ
  txAssign : σ → ℕ
  objectClaim : σ → DrrObject → ℕ × σ
  objectReclaim : σ → DrrObject → ℕ × σ
  objectSetChecksum : σ → BitVec 64 → BitVec 8 → σ
  objectSetCompress : σ → BitVec 64 → BitVec 8 → σ
  bonusFill : σ → BitVec 64 → List Byte → σ
  freeObject : σ → BitVec 64 → ℕ × σ
  nextOffset : σ → BitVec 64 → BitVec 64
  le_nextOffset : ∀ os offset, offset ≤ nextOffset os offset
  write : σ → DrrWrite → List Byte → σ
  freeLongRange : σ → DrrFree → ℕ × σ
  /-- The functions `dmu_ot[type].ot_byteswap`. -/
  otByteswap : ℕ → List Byte → List Byte

/-- How the vnode of the stream answers.  At the offset `voff` it hands out at most `chunk voff + 1`
    bytes in one call; a call that reaches the end of the stream without having been satisfied
    returns `lastError`.  `signal voff` is `issig` after the record that ends at `voff`. -/
structure Source where
  chunk : ℕ → ℕ
  lastError : ℕ
  signal : ℕ → Bool

inductive Action
  /-- `n` bytes stored at `ra->buf + done`. -/
  | store (done n : ℕ)
  /-- `dmu_write` of `given` bytes from a buffer into which `read` bytes have been read. -/
  | write (given read : ℕ)
  /-- A call through `dmu_ot[type]`. -/
  | ot (type : ℕ)
  /-- `dmu_bonus_hold`. -/
  | hold (object : BitVec 64)
  /-- `dmu_buf_rele` of a bonus buffer. -/
  | rele (object : BitVec 64)
  | datasetDestroy (ds : ℕ)
  | datasetRele (ds : ℕ)
  | datasetRollback (ds : ℕ)
  | datasetDisown (ds : ℕ)
  deriving DecidableEq

/-- `struct restorearg`, the objset and what has been done so far.  `vp` holds the bytes of the
    stream from `voff` on. -/
structure St (σ : Type) where
  err : ℕ
  byteswap : Bool
  vp : List Byte
  voff : ℕ
  cksum : Cksum
  os : σ
  acts : List Action
  deriving DecidableEq

variable {σ : Type}

def St.did (s : St σ) (a : Action) : St σ := { s with acts := s.acts ++ [a] }

/-- `vn_rdwr(UIO_READ)` of `want` bytes: the error and how many bytes it stored. -/
def vnRdwr (src : Source) (s : St σ) (want : ℕ) : ℕ × ℕ :=
  let n := min want (min s.vp.length (src.chunk s.voff + 1))
  (if n < want ∧ n = s.vp.length then src.lastError else 0, n)

/-- The loop of `restore_read`, with `data` in the buffer so far. -/
def readLoop (src : Source) (len : ℕ) : ℕ → List Byte → St σ → Option (List Byte) × St σ
  | 0, _, s => (none, s)
  | fuel + 1, data, s =>
    if data.length < len then
      let r := vnRdwr src s (len - data.length)
      -- resid == len - done
      let err := if r.2 = 0 then einval else r.1
      let s' := { s with
        err := err, vp := s.vp.drop r.2, voff := s.voff + r.2,
        acts := s.acts ++ [.store data.length r.2] }
      if err ≠ 0 then (none, s') else readLoop src len fuel (data ++ s.vp.take r.2) s'
    else (some data, s)

/-- `restore_read`.  A length that is negative as an `int` reads nothing. -/
def restoreRead (src : Source) (len : ℤ) (s : St σ) : Option (List Byte) × St σ :=
  match readLoop src len.toNat (len.toNat + 1) [] s with
  | (none, s') => (none, s')
  | (some data, s') =>
    (some data, { s' with cksum := fletcher4 s'.byteswap data s'.cksum })

/-- A 64-bit length handed over as an `int`. -/
def toInt (x : BitVec 64) : ℤ := (x.setWidth 32).toInt

variable (dmu : Dmu σ) (src : Source)

/-- What `restore_object` rejects in a `DRR_OBJECT`. -/
def BadObject (drro : DrrObject) : Prop :=
  drro.type.toNat = 0 ∨ dmuOtNumtypes ≤ drro.type.toNat ∨
    dmuOtNumtypes ≤ drro.bonustype.toNat ∨ zioChecksumFunctions ≤ drro.checksum.toNat ∨
    zioCompressFunctions ≤ drro.compress.toNat ∨ drro.blksz.toNat % spaMinblocksize ≠ 0 ∨
    drro.blksz.toNat < spaMinblocksize ∨ spaMaxblocksize < drro.blksz.toNat ∨
    dnMaxBonuslen < drro.bonuslen.toNat

instance : DecidablePred BadObject := fun _ => inferInstanceAs (Decidable (_ ∨ _))

/-- `restore_object`, once the object is claimed: the bonus buffer. -/
def restoreBonus (drro : DrrObject) (s : St σ) : ℕ × St σ :=
  if drro.bonuslen = 0 then (0, s)
  else
    match restoreRead src (roundup8 drro.bonuslen.toNat) (s.did (.hold drro.object)) with
    | (none, s') => (s'.err, s')
    | (some data, s') =>
      let bonus := data.take drro.bonuslen.toNat
      let s' := if s'.byteswap then s'.did (.ot drro.bonustype.toNat) else s'
      let bonus := if s'.byteswap then dmu.otByteswap drro.bonustype.toNat bonus else bonus
      (0, { s'.did (.rele drro.object) with os := dmu.bonusFill s'.os drro.object bonus })

def restoreObject (drro : DrrObject) (s : St σ) : ℕ × St σ :=
  let err := dmu.objectInfo s.os drro.object
  if err ≠ 0 ∧ err ≠ enoent then (einval, s)
  else if BadObject drro then (einval, s)
  else if dmu.txAssign s.os ≠ 0 then (dmu.txAssign s.os, s)
  else
    let r := if err = enoent then dmu.objectClaim s.os drro else dmu.objectReclaim s.os drro
    if r.1 ≠ 0 then (einval, { s with os := r.2 })
    else
      let os := dmu.objectSetChecksum r.2 drro.object drro.checksum
      let os := dmu.objectSetCompress os drro.object drro.compress
      restoreBonus dmu src drro { s with os := os }

/-- `dmu_object_next` in the objset. -/
def dmuObjectNext (os : σ) (object : BitVec 64) : BitVec 64 :=
  dmu.nextOffset os ((object + 1) <<< dnodeShift) >>> dnodeShift

/-- The loop of `restore_freeobjects`. -/
def freeobjectsLoop (last : BitVec 64) : ℕ → BitVec 64 → σ → Option (ℕ × σ)
  | 0, _, _ => none
  | fuel + 1, obj, os =>
    if obj < last then
      if dmu.objectInfo os obj ≠ 0 then
        freeobjectsLoop last fuel (dmuObjectNext dmu os obj) os
      else
        let r := dmu.freeObject os obj
        if r.1 ≠ 0 then some r
        else freeobjectsLoop last fuel (dmuObjectNext dmu r.2 obj) r.2
    else some (0, os)

/-- `restore_freeobjects`, for at most `fuel` rounds. -/
def restoreFreeobjects (fuel : ℕ) (drrfo : DrrFreeobjects) (s : St σ) : Option (ℕ × St σ) :=
  if drrfo.firstobj + drrfo.numobjs < drrfo.firstobj then some (einval, s)
  else
    (freeobjectsLoop dmu (drrfo.firstobj + drrfo.numobjs) fuel drrfo.firstobj s.os).map
      fun r => (r.1, { s with os := r.2 })

/-- What `restore_write` rejects in a `DRR_WRITE`. -/
def BadWrite (drrw : DrrWrite) : Prop :=
  drrw.offset + drrw.length < drrw.offset ∨ dmuOtNumtypes ≤ drrw.type.toNat

instance : DecidablePred BadWrite := fun _ => inferInstanceAs (Decidable (_ ∨ _))

def restoreWrite (drrw : DrrWrite) (s : St σ) : ℕ × St σ :=
  if BadWrite drrw then (einval, s)
  else
    match restoreRead src (toInt drrw.length) s with
    | (none, s') => (s'.err, s')
    | (some data, s') =>
      if dmu.objectInfo s'.os drrw.object ≠ 0 then (einval, s')
      else if dmu.txAssign s'.os ≠ 0 then (dmu.txAssign s'.os, s')
      else
        let s' := if s'.byteswap then s'.did (.ot drrw.type.toNat) else s'
        let out := if s'.byteswap then dmu.otByteswap drrw.type.toNat data else data
        (0, { s'.did (.write drrw.length.toNat data.length) with
          os := dmu.write s'.os drrw out })

/-- What `restore_free` rejects in a `DRR_FREE`. -/
def BadFree (drrf : DrrFree) : Prop :=
  drrf.length ≠ BitVec.allOnes 64 ∧ drrf.offset + drrf.length < drrf.offset

instance : DecidablePred BadFree := fun _ => inferInstanceAs (Decidable (_ ∧ _))

def restoreFree (drrf : DrrFree) (s : St σ) : ℕ × St σ :=
  if BadFree drrf then (einval, s)
  else if dmu.objectInfo s.os drrf.object ≠ 0 then (einval, s)
  else
    let r := dmu.freeLongRange s.os drrf
    (r.1, { s with os := r.2 })

/-- The switch of `dmu_recv_stream`: whether the loop goes on behind it (or `goto out`), and
    `ra.err`. -/
def handle (fuel : ℕ) (pcksum : Cksum) (drr : Drr) (s : St σ) : Option (Bool × ℕ × St σ) :=
  match drr with
  | .object drro => some (true, restoreObject dmu src drro s)
  | .freeobjects drrfo => (restoreFreeobjects dmu fuel drrfo s).map fun r => (true, r)
  | .write drrw => some (true, restoreWrite dmu src drrw s)
  | .free drrf => some (true, restoreFree dmu drrf s)
  | .finish checksum => some (false, if checksum = pcksum then s.err else ecksum, s)
  | .other => some (false, einval, s)

/-- The loop of `dmu_recv_stream`: at most `rounds` records, each with `fuel` for
    `restore_freeobjects`. -/
def recvLoop (fuel : ℕ) : ℕ → Cksum → St σ → Option (St σ)
  | 0, _, _ => none
  | rounds + 1, pcksum, s =>
    if s.err ≠ 0 then some s
    else
      match restoreRead src recordSize s with
      | (none, s₁) => some s₁
      | (some hdr, s₁) =>
        if src.signal s₁.voff then some { s₁ with err := eintr }
        else
          (handle dmu src fuel pcksum (decode s₁.byteswap hdr) s₁).bind fun r =>
            if r.1 then recvLoop fuel rounds r.2.2.cksum { r.2.2 with err := r.2.1 }
            else some { r.2.2 with err := r.2.1 }

/-- `dmu_recv_cookie_t`: the begin record and the datasets. -/
structure Cookie where
  drrb : List Byte
  newfs : Bool
  realDs : ℕ
  logicalDs : ℕ

/-- `ra.byteswap`. -/
def Cookie.byteswap (drc : Cookie) : Bool := load 8 drc.drrb 0 == bswap 8 dmuBackupMagic

def dmuRecvAbortCleanup (drc : Cookie) : List Action :=
  if drc.newfs ∨ drc.realDs ≠ drc.logicalDs then
    .datasetDestroy drc.realDs ::
      (if drc.realDs ≠ drc.logicalDs then [.datasetRele drc.logicalDs] else [])
  else [.datasetRollback drc.realDs, .datasetDisown drc.realDs]

/-- The state in front of the loop: the checksum is that of the begin record. -/
def recvStart (drc : Cookie) (vp : List Byte) (voff : ℕ) (os : σ) : St σ where
  err := 0
  byteswap := drc.byteswap
  vp := vp
  voff := voff
  cksum := fletcher4 drc.byteswap (List.replicate 8 0 ++ drc.drrb) ⟨0, 0, 0, 0⟩
  os := os
  acts := []

def dmuRecvStream (fuel : ℕ) (drc : Cookie) (vp : List Byte) (voff : ℕ) (os : σ) : Option (St σ) :=
  let s := recvStart drc vp voff os
  (recvLoop dmu src fuel fuel s.cksum s).map fun s =>
    if s.err ≠ 0 then { s with acts := s.acts ++ dmuRecvAbortCleanup drc } else s

end Sirius.Recv
