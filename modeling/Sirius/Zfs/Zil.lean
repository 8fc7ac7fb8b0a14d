import Mathlib.Data.List.Nodup
import Mathlib.Data.List.TakeWhile

/-! # The on-disk intent log and its parse

    The chain of log blocks as `zil_read_log_block` checks it and `zil_parse` walks it.  What a
    parse calls back, and in which order, is a list of events that depends on the chain only;
    claim, replay and destroy are folds over such lists. -/

namespace Sirius.Zil

open List

/-- `zio_cksum_t` of a log block: the words `ZIL_ZC_GUID_0` to `ZIL_ZC_SEQ`. -/
structure Cksum where
  guid0 : Nat
  guid1 : Nat
  objset : Nat
  seq : Nat
  deriving DecidableEq

def Cksum.next (c : Cksum) : Cksum := { c with seq := c.seq + 1 }

/-- `blkptr_t`; `dva` is `BP_IDENTITY`. -/
structure Blkptr where
  dva : Nat
  birth : Nat
  lsize : Nat
  cksum : Cksum
  deriving DecidableEq

/-- `BP_IS_HOLE`. -/
def Blkptr.IsHole (bp : Blkptr) : Prop := bp.birth = 0

instance (bp : Blkptr) : Decidable bp.IsHole := inferInstanceAs (Decidable (_ = _))

/-- The part of a log record that depends on `lrc_txtype`. -/
inductive Body
  /-- `TX_WRITE`, with `lr_blkptr`. -/
  | write (blkptr : Blkptr)
  | other (txtype : Nat)
  deriving DecidableEq

/-- `lr_t`. -/
structure Record where
  reclen : Nat
  txg : Nat
  seq : Nat
  body : Body
  deriving DecidableEq

/-- What is on the disk at the address of a log block: the checksum it was written with, its
    trailer and its records. -/
structure LogBlock where
  verifier : Cksum
  nextBlk : Blkptr
  nused : Nat
  records : List Record
  deriving DecidableEq

abbrev Media := Nat → Option LogBlock

/-- `sizeof (zil_trailer_t)`. -/
def trailerSize : Nat := 184

inductive ReadError
  | io
  | stale
  | noent
  | overflow
  deriving DecidableEq

/-- `zil_read_log_block`. -/
def readLogBlock (media : Media) (bp : Blkptr) : Except ReadError LogBlock :=
  match media bp.dva with
  | none => .error .io
  | some b =>
    if b.verifier ≠ bp.cksum then .error .io
    else if b.nextBlk.cksum ≠ bp.cksum.next then .error .stale
    else if b.nextBlk.IsHole then .error .noent
    else if b.nused > bp.lsize - trailerSize then .error .overflow
    else .ok b

/-- The records of the first `nused` bytes. -/
def recordsUpTo : Nat → List Record → List Record
  | _, [] => []
  | nused, r :: rs => if nused = 0 then [] else r :: recordsUpTo (nused - r.reclen) rs

def LogBlock.lrs (b : LogBlock) : List Record := recordsUpTo b.nused b.records

section Parse

variable {σ : Type*}

/-- The loop of `zil_parse`: the highest sequence number and what the callbacks made of their
    argument; `none` when the fuel does not reach the end of the chain. -/
def zilParseLoop (media : Media) (claimSeq : Nat) (blkFunc : Blkptr → σ → σ)
    (lrFunc : Record → σ → σ) : Nat → Blkptr → Nat → σ → Option (Nat × σ)
  | 0, _, _, _ => none
  | fuel + 1, blk, maxSeq, s =>
    if claimSeq ≠ 0 ∧ blk.cksum.seq > claimSeq then some (maxSeq, s)
    else
      let s := blkFunc blk s
      match readLogBlock media blk with
      | .error _ => some (blk.cksum.seq, s)
      | .ok b =>
        zilParseLoop media claimSeq blkFunc lrFunc fuel b.nextBlk blk.cksum.seq
          (b.lrs.foldl (fun s r => lrFunc r s) s)

/-- `zil_header_t`. -/
structure Header where
  claimTxg : Nat
  replaySeq : Nat
  log : Blkptr
  claimSeq : Nat
  deriving DecidableEq

def zilParse (media : Media) (zh : Header) (blkFunc : Blkptr → σ → σ) (lrFunc : Record → σ → σ)
    (fuel : Nat) (s : σ) : Option (Nat × σ) :=
  if zh.log.IsHole then some (0, s)
  else zilParseLoop media zh.claimSeq blkFunc lrFunc fuel zh.log 0 s

end Parse

/-- The chain from a block pointer: the blocks that can be read, and the pointer at which it
    ends because the block cannot be. -/
inductive Chain (media : Media) : Blkptr → List (Blkptr × LogBlock) → Blkptr → Prop
  | stop {blk : Blkptr} {e : ReadError} (h : readLogBlock media blk = .error e) :
      Chain media blk [] blk
  | next {blk : Blkptr} {b : LogBlock} {l : List (Blkptr × LogBlock)} {last : Blkptr}
      (h : readLogBlock media blk = .ok b) (hl : Chain media b.nextBlk l last) :
      Chain media blk ((blk, b) :: l) last

/-- A call of one of the callbacks of `zil_parse`. -/
inductive Event
  | blk (bp : Blkptr)
  | lr (r : Record)
  deriving DecidableEq

def Event.apply {σ : Type*} (blkFunc : Blkptr → σ → σ) (lrFunc : Record → σ → σ) (s : σ) :
    Event → σ
  | blk bp => blkFunc bp s
  | lr r => lrFunc r s

def blockEvents (x : Blkptr × LogBlock) : List Event := .blk x.1 :: x.2.lrs.map .lr

def chainEvents (l : List (Blkptr × LogBlock)) (last : Blkptr) : List Event :=
  l.flatMap blockEvents ++ [.blk last]

variable {media : Media} {blk last : Blkptr} {l : List (Blkptr × LogBlock)}

theorem readLogBlock_next_seq {b : LogBlock} (h : readLogBlock media blk = .ok b) :
    b.nextBlk.cksum.seq = blk.cksum.seq + 1 := by
  rw [readLogBlock] at h
  split at h
  · cases h
  · split_ifs at h with h1 h2 h3 h4
    · cases h
      rw [not_not.mp h2, Cksum.next]

theorem Chain.last_seq (h : Chain media blk l last) :
    last.cksum.seq = blk.cksum.seq + l.length := by
  induction h with
  | stop _ => rfl
  | next hb _ ih =>
    rw [ih, readLogBlock_next_seq hb, length_cons]
    omega

section Parse

variable {σ : Type*} {blkFunc : Blkptr → σ → σ} {lrFunc : Record → σ → σ} {fuel : Nat}

theorem foldl_blockEvents (x : Blkptr × LogBlock) (s : σ) :
    (blockEvents x).foldl (Event.apply blkFunc lrFunc) s
      = x.2.lrs.foldl (fun s r => lrFunc r s) (blkFunc x.1 s) := by
  rw [blockEvents, foldl_cons, foldl_map]
  rfl

/-- **A PARSE OF AN UNCLAIMED LOG** goes to the end of the chain. -/
theorem Chain.parse_unclaimed (h : Chain media blk l last) {fuel maxSeq : Nat} {s : σ}
    (hf : l.length < fuel) : zilParseLoop media 0 blkFunc lrFunc fuel blk maxSeq s = some
    (last.cksum.seq, (chainEvents l last).foldl (Event.apply blkFunc lrFunc) s) := by
  induction h generalizing fuel maxSeq s with
  | stop he =>
    obtain ⟨fuel, rfl⟩ := Nat.exists_eq_succ_of_ne_zero (ne_of_gt hf)
    rw [zilParseLoop]
    simp only [he]
    rfl
  | @next blk b l last hb _ ih =>
    obtain ⟨fuel, rfl⟩ := Nat.exists_eq_succ_of_ne_zero (Nat.ne_zero_of_lt hf)
    rw [zilParseLoop, if_neg (by simp)]
    simp only [hb]
    rw [← foldl_blockEvents (blk, b) s, ih (Nat.lt_of_succ_lt_succ hf), chainEvents, chainEvents,
      flatMap_cons]
    simp only [foldl_append]

/-- **A PARSE OF A CLAIMED LOG** stops behind the block with the claimed number: it visits the
    first `n + 1` pointers of the chain, where the `n`th has that number. -/
theorem Chain.parse_claimed (h : Chain media blk l last) {n fuel maxSeq : Nat} {s : σ}
    (hf : l.length < fuel) (hn : blk.cksum.seq + n ≠ 0) : ∃ m, zilParseLoop media
    (blk.cksum.seq + n) blkFunc lrFunc fuel blk maxSeq s = some (m, ((l.take (n + 1)).flatMap
    blockEvents ++ if l.length ≤ n then [Event.blk last] else []).foldl (Event.apply blkFunc
    lrFunc) s) := by
  induction h generalizing n fuel maxSeq s with
  | @stop blk e he =>
    obtain ⟨fuel, rfl⟩ := Nat.exists_eq_succ_of_ne_zero (ne_of_gt hf)
    refine ⟨blk.cksum.seq, ?_⟩
    rw [zilParseLoop, if_neg (by omega)]
    simp only [he]
    simp [Event.apply]
  | @next blk b l last hb hl ih =>
    obtain ⟨fuel, rfl⟩ := Nat.exists_eq_succ_of_ne_zero (Nat.ne_zero_of_lt hf)
    have hf' := Nat.lt_of_succ_lt_succ hf
    have hseq := readLogBlock_next_seq hb
    rw [zilParseLoop, if_neg (by omega)]
    simp only [hb]
    rw [← foldl_blockEvents (blk, b) s]
    cases n with
    | zero =>
      -- the next pointer has a greater number
      obtain ⟨fuel, rfl⟩ := Nat.exists_eq_succ_of_ne_zero (Nat.ne_zero_of_lt hf')
      refine ⟨blk.cksum.seq, ?_⟩
      rw [zilParseLoop, if_pos ⟨hn, by omega⟩]
      simp
    | succ n =>
      obtain ⟨m, hm⟩ := @ih n fuel blk.cksum.seq
        ((blockEvents (blk, b)).foldl (Event.apply blkFunc lrFunc) s) hf' (by omega)
      refine ⟨m, ?_⟩
      rw [show blk.cksum.seq + (n + 1) = b.nextBlk.cksum.seq + n by omega, hm,
        take_succ_cons, flatMap_cons]
      simp only [foldl_append, length_cons, Nat.add_le_add_iff_right]

end Parse

def Media.restrict (media : Media) (up : Nat → Bool) : Media :=
  fun d => if up d then media d else none

theorem readLogBlock_restrict (up : Nat → Bool) (bp : Blkptr) :
    readLogBlock (media.restrict up) bp
      = if up bp.dva then readLogBlock media bp else .error .io := by
  rw [readLogBlock, Media.restrict]
  split_ifs <;> rfl

/-- The pointer at which the chain ends if some blocks cannot be read. -/
def stopAt (up : Nat → Bool) (l : List (Blkptr × LogBlock)) (last : Blkptr) : Blkptr :=
  match l with
  | [] => last
  | x :: l => if up x.1.dva then stopAt up l last else x.1

theorem Chain.restrict (h : Chain media blk l last) (up : Nat → Bool) :
    Chain (media.restrict up) blk (l.takeWhile fun x => up x.1.dva) (stopAt up l last) := by
  induction h with
  | @stop blk e he =>
    by_cases hu : up blk.dva
    · exact .stop (by rw [readLogBlock_restrict, if_pos hu, he])
    · exact .stop (by rw [readLogBlock_restrict, if_neg hu])
  | @next blk b l last hb _ ih =>
    by_cases hu : up blk.dva
    · rw [takeWhile_cons, stopAt]
      simp only [hu]
      exact .next (by rw [readLogBlock_restrict, if_pos hu, hb]) ih
    · rw [takeWhile_cons, stopAt]
      simp only [hu]
      exact .stop (by rw [readLogBlock_restrict, if_neg hu])

end Sirius.Zil
