import Sirius.Lib.ByteWord

/-! # The lzjb compressor (`lzjb.c`)

    Buffers are functions from offsets to bytes, pointers are offsets.  The hash table starts
    with whatever was on the stack and holds the low 16 bits of source addresses, so the
    address of the source is a parameter.  Reading past the compressed bytes is an error of
    the decompressor's model. -/

namespace Sirius.Lzjb

open Sirius.Lib Function Nat

def nbby : ℕ := 8
def matchBits : ℕ := 6
def matchMin : ℕ := 3
def matchMax : ℕ := 66
def offsetMask : ℕ := 1023

/-- The local variables of `lzjb_compress`, and the destination. -/
structure CState where
  src : ℕ
  dst : ℕ
  copymask : ℕ
  copymap : ℕ
  lempel : ℕ → ℕ
  out : Buf

/-- The slot of `lempel[]` for the three bytes at `src`; the low 8 bits are the mask
    `LEMPEL_SIZE - 1`. -/
def lempelSlot (s : Buf) (src : ℕ) : ℕ :=
  ((s src + 13#8) ^^^ (s (src + 1) - 13#8) ^^^ s (src + 2)).toNat

/-- `for (; mlen < MATCH_MAX; mlen++) if (src[mlen] != cpy[mlen]) break`, with `k` rounds left. -/
def matchLen (s : Buf) (src cpy : ℕ) : ℕ → ℕ → ℕ
  | 0, mlen => mlen
  | k + 1, mlen =>
    if s (src + mlen) ≠ s (cpy + mlen) then mlen else matchLen s src cpy k (mlen + 1)

/-- `*dst++ = *src++`. -/
def emitLiteral (s : Buf) (st : CState) : CState :=
  { st with
    out := update st.out st.dst (s st.src)
    dst := st.dst + 1
    src := st.src + 1 }

def emitMatch (st : CState) (mlen offset : ℕ) : CState :=
  let marked := update st.out st.copymap (st.out st.copymap ||| BitVec.ofNat 8 st.copymask)
  { st with
    out := update
      (update marked st.dst
        (BitVec.ofNat 8 (((mlen - matchMin) <<< (nbby - matchBits)) ||| (offset >>> nbby))))
      (st.dst + 1) (BitVec.ofNat 8 offset)
    dst := st.dst + 2
    src := st.src + mlen }

/-- The distance that the table suggests for address `base + src`. -/
def distance (base src hp : ℕ) : ℕ :=
  ((((base + src : ℕ) : ℤ) - (hp : ℤ)) % (offsetMask + 1 : ℕ)).toNat

/-- The rest of the loop body, after the copymap has been seen to. -/
def compressItem (s : Buf) (base sLen : ℕ) (st : CState) : CState :=
  if sLen < st.src + matchMax then emitLiteral s st
  else
    let slot := lempelSlot s st.src
    let offset := distance base st.src (st.lempel slot)
    let st := { st with lempel := update st.lempel slot ((base + st.src) % 2 ^ 16) }
    let cpy := st.src - offset
    if offset ≤ st.src ∧ offset ≠ 0 ∧ s st.src = s cpy ∧ s (st.src + 1) = s (cpy + 1)
        ∧ s (st.src + 2) = s (cpy + 2) then
      emitMatch st (matchLen s st.src cpy (matchMax - matchMin) matchMin) offset
    else emitLiteral s st

/-- What is returned when the destination is nearly full: the source as it is if it fits. -/
def giveUp (s : Buf) (sLen dLen : ℕ) (out : Buf) : ℕ × Buf :=
  if dLen ≠ sLen then (sLen, out) else (sLen, fun i => if i < sLen then s i else out i)

/-- The loop of `lzjb_compress`. -/
def compressLoop (s : Buf) (base sLen dLen : ℕ) : ℕ → CState → Option (ℕ × Buf)
  | 0, st => if st.src < sLen then none else some (st.dst, st.out)
  | fuel + 1, st =>
    if st.src < sLen then
      if st.copymask <<< 1 = 1 <<< nbby then
        if dLen ≤ st.dst + (1 + 2 * nbby) then some (giveUp s sLen dLen st.out)
        else compressLoop s base sLen dLen fuel (compressItem s base sLen { st with
            copymask := 1
            copymap := st.dst
            out := update st.out st.dst 0
            dst := st.dst + 1 })
      else compressLoop s base sLen dLen fuel
        (compressItem s base sLen { st with copymask := st.copymask <<< 1 })
    else some (st.dst, st.out)

/-- `lzjb_compress`, on a stack with the given garbage in `copymap` and `lempel[]`. -/
def lzjbCompress (s : Buf) (base : ℕ) (out : Buf) (copymap : ℕ) (lempel : ℕ → ℕ) (sLen dLen : ℕ) :
    Option (ℕ × Buf) :=
  compressLoop s base sLen dLen sLen ⟨0, 0, 1 <<< (nbby - 1), copymap, lempel, out⟩

/-- The local variables of `lzjb_decompress`, and the destination. -/
structure DState where
  src : ℕ
  dst : ℕ
  copymask : ℕ
  copymap : Byte
  out : Buf

/-- A read of the compressed bytes, of which there are `sLen`. -/
def readSrc (inp : Buf) (sLen i : ℕ) : Option Byte := if i < sLen then some (inp i) else none

/-- `while (--mlen >= 0 && dst < d_end) *dst++ = *cpy++`. -/
def copyBack (dLen : ℕ) : ℕ → ℕ → ℕ → Buf → ℕ × Buf
  | 0, _, dst, out => (dst, out)
  | mlen + 1, cpy, dst, out =>
    if dst < dLen then copyBack dLen mlen (cpy + 1) (dst + 1) (update out dst (out cpy))
    else (dst, out)

def nextMask (inp : Buf) (sLen : ℕ) (st : DState) : Option DState :=
  if st.copymask <<< 1 = 1 <<< nbby then
    (readSrc inp sLen st.src).map fun b =>
      { st with copymask := 1, copymap := b, src := st.src + 1 }
  else some { st with copymask := st.copymask <<< 1 }

/-- One item; `none` in the second place is the return of -1. -/
def decompressItem (inp : Buf) (sLen dLen : ℕ) (st : DState) : Option (Option DState) :=
  if st.copymap &&& BitVec.ofNat 8 st.copymask ≠ 0 then do
    let b₀ ← readSrc inp sLen st.src
    let b₁ ← readSrc inp sLen (st.src + 1)
    let mlen := (b₀.toNat >>> (nbby - matchBits)) + matchMin
    let offset := ((b₀.toNat <<< nbby) ||| b₁.toNat) &&& offsetMask
    if st.dst < offset then return none
    else
      let copied := copyBack dLen mlen (st.dst - offset) st.dst st.out
      return some { st with src := st.src + 2, dst := copied.1, out := copied.2 }
  else do
    let b ← readSrc inp sLen st.src
    return some { st with
      src := st.src + 1
      dst := st.dst + 1
      out := update st.out st.dst b }

/-- The loop of `lzjb_decompress`: what it returns, how far it has read, the destination. -/
def decompressLoop (inp : Buf) (sLen dLen : ℕ) : ℕ → DState → Option (ℤ × ℕ × Buf)
  | 0, st => if st.dst < dLen then none else some (0, st.src, st.out)
  | fuel + 1, st =>
    if st.dst < dLen then do
      let st ← nextMask inp sLen st
      match ← decompressItem inp sLen dLen st with
      | none => return (-1, st.src, st.out)
      | some st => decompressLoop inp sLen dLen fuel st
    else some (0, st.src, st.out)

def lzjbDecompress (inp : Buf) (sLen : ℕ) (out : Buf) (copymap : Byte) (dLen : ℕ) :
    Option (ℤ × ℕ × Buf) :=
  decompressLoop inp sLen dLen dLen ⟨0, 0, 1 <<< (nbby - 1), copymap, out⟩

variable {s out out' : Buf} {base sLen dLen src dst cpy mlen offset k j c : ℕ} {b : Byte}

theorem matchLen_spec (heq : ∀ i < mlen, s (src + i) = s (cpy + i)) :
    mlen ≤ matchLen s src cpy k mlen ∧ matchLen s src cpy k mlen ≤ mlen + k
      ∧ ∀ i < matchLen s src cpy k mlen, s (src + i) = s (cpy + i) := by
  induction k generalizing mlen with
  | zero => exact ⟨le_rfl, le_rfl, heq⟩
  | succ k ih =>
    rw [matchLen]
    by_cases hne : s (src + mlen) ≠ s (cpy + mlen)
    · rw [if_pos hne]
      exact ⟨le_rfl, le_add_right _ _, heq⟩
    rw [if_neg hne]
    have heq' : ∀ i < mlen + 1, s (src + i) = s (cpy + i) := by
      intro i hi
      rcases Nat.lt_succ_iff_lt_or_eq.mp hi with hlt | rfl
      · exact heq i hlt
      · exact not_not.mp hne
    obtain ⟨h1, h2, h3⟩ := ih heq'
    exact ⟨(le_succ mlen).trans h1, h2.trans (by omega), h3⟩

/-- **OVERLAPPING COPY**: copying from `offset` bytes back reproduces the source as far as
    the source repeats itself. -/
theorem copyBack_spec (dLen : ℕ) (hpos : 0 < offset) (hle : offset ≤ dst)
    (hroom : dst + mlen ≤ dLen)
    (hout : ∀ i < dst, out i = s i) (heq : ∀ i < mlen, s (dst + i) = s (dst - offset + i)) :
    ∃ out', copyBack dLen mlen (dst - offset) dst out = (dst + mlen, out')
      ∧ (∀ i < dst + mlen, out' i = s i) ∧ ∀ i, dst + mlen ≤ i → out' i = out i := by
  induction mlen generalizing dst out with
  | zero => exact ⟨out, rfl, hout, fun i _ => rfl⟩
  | succ mlen ih =>
    have hbyte : out (dst - offset) = s dst := by
      rw [hout _ (by omega)]
      exact (heq 0 (succ_pos mlen)).symm
    have hout' : ∀ i < dst + 1, update out dst (out (dst - offset)) i = s i := by
      intro i hi
      rcases Nat.lt_succ_iff_lt_or_eq.mp hi with hlt | rfl
      · rw [update_of_ne hlt.ne]
        exact hout i hlt
      · rw [update_self]
        exact hbyte
    have hstep : dst + 1 - offset = dst - offset + 1 := by omega
    obtain ⟨out', hcopy, hbelow, habove⟩ := ih (hle.trans (le_succ dst)) (by omega) hout' (by
      intro i hi
      have := heq (i + 1) (succ_lt_succ hi)
      rw [hstep]
      rwa [show dst + (i + 1) = dst + 1 + i by omega,
        show dst - offset + (i + 1) = dst - offset + 1 + i by omega] at this)
    refine ⟨out', ?_, ?_, ?_⟩
    · rw [copyBack, if_pos (by omega), ← hstep, hcopy]
      exact congrArg (·, out') (by omega)
    · intro i hi
      exact hbelow i (by omega)
    · intro i hi
      rw [habove i (by omega), update_of_ne (by omega)]

theorem decode_match (hmin : matchMin ≤ mlen) (hmax : mlen ≤ matchMax)
    (hoff : offset ≤ offsetMask) :
    ((BitVec.ofNat 8 (((mlen - matchMin) <<< (nbby - matchBits)) ||| (offset >>> nbby))).toNat
        >>> (nbby - matchBits)) + matchMin = mlen
      ∧ (((BitVec.ofNat 8 (((mlen - matchMin) <<< (nbby - matchBits)) ||| (offset >>> nbby))).toNat
        <<< nbby) ||| (BitVec.ofNat 8 offset).toNat) &&& offsetMask = offset := by
  simp only [matchMin, matchMax, offsetMask, nbby, matchBits] at *
  have hor : ((mlen - 3) <<< 2) ||| (offset >>> 8) = (mlen - 3) * 4 + offset / 256 := by
    rw [← shiftLeft_add_eq_or_of_lt (by omega : offset >>> 8 < 2 ^ 2), shiftLeft_eq,
      shiftRight_eq_div_pow]
  have hor' : ∀ a, (a <<< 8) ||| (offset % 256) = a * 256 + offset % 256 := by
    intro a
    rw [← shiftLeft_add_eq_or_of_lt (by omega : offset % 256 < 2 ^ 8), shiftLeft_eq]
  have hmask : ∀ a, a &&& 1023 = a % 1024 := fun a => and_two_pow_sub_one_eq_mod a 10
  rw [hor]
  simp only [BitVec.toNat_ofNat]
  refine ⟨?_, ?_⟩
  · omega
  · rw [hor', hmask]
    omega

/-- What the rest of the loop body does: one byte as it is, or a match. -/
inductive Emits (s : Buf) (sLen : ℕ) (st st' : CState) : Prop
  | literal (lempel : ℕ → ℕ) (h : st' = emitLiteral s { st with lempel := lempel })
  | copy (lempel : ℕ → ℕ) (mlen offset : ℕ)
      (h : st' = emitMatch { st with lempel := lempel } mlen offset)
      (hmin : matchMin ≤ mlen) (hmax : mlen ≤ matchMax) (hfit : st.src + mlen ≤ sLen)
      (hpos : 0 < offset) (hoff : offset ≤ offsetMask) (hle : offset ≤ st.src)
      (heq : ∀ i < mlen, s (st.src + i) = s (st.src - offset + i))

theorem compressItem_emits (s : Buf) (base sLen : ℕ) (st : CState) :
    Emits s sLen st (compressItem s base sLen st) := by
  rw [compressItem]
  dsimp only
  obtain ⟨offset, hoffset⟩ : ∃ o, o = distance base st.src (st.lempel (lempelSlot s st.src)) :=
    ⟨_, rfl⟩
  rw [← hoffset]
  split_ifs with hend hmatch
  · exact .literal st.lempel rfl
  · obtain ⟨hle, hne, h0, h1, h2⟩ := hmatch
    have hstart : ∀ i < matchMin, s (st.src + i) = s (st.src - offset + i) := by
      intro i hi
      rw [matchMin] at hi
      interval_cases i
      · exact h0
      · exact h1
      · exact h2
    obtain ⟨hmin, hmax, heq⟩ := matchLen_spec (k := matchMax - matchMin) hstart
    have hoff : offset ≤ offsetMask := by
      rw [hoffset, distance, offsetMask]
      omega
    refine .copy _ _ _ rfl hmin hmax ?_ (pos_of_ne_zero hne) hoff hle heq
    exact (Nat.add_le_add_left hmax _).trans (Nat.not_lt.mp hend)
  · exact .literal _ rfl

/-- Before an item: bit `j` of the copymap is its bit, and that one and the later ones are
    still clear; what is left of the group fits. -/
structure Ready (dLen j : ℕ) (st : CState) : Prop where
  bit : j < 8
  mask : st.copymask = 2 ^ j
  map : st.copymap < st.dst
  clear : ∀ k, j ≤ k → (st.out st.copymap).getLsbD k = false
  room : st.dst + 2 * (8 - j) ≤ dLen

/-- At the top of the loop: bit `j` was the last one used. -/
structure Top (dLen j : ℕ) (st : CState) : Prop where
  bit : j < 8
  mask : st.copymask = 2 ^ j
  map : j < 7 → st.copymap < st.dst
  clear : ∀ k, j < k → (st.out st.copymap).getLsbD k = false
  room : st.dst + 2 * (7 - j) ≤ dLen

/-- `out` has all that `st` has written, up to the bits of later items. -/
structure Extends (j : ℕ) (st : CState) (out : Buf) : Prop where
  bytes : ∀ i < st.dst, i ≠ st.copymap → out i = st.out i
  bits : st.copymap < st.dst → ∀ k, k ≤ j → (out st.copymap).getLsbD k =
    (st.out st.copymap).getLsbD k

theorem mask_eq_twoPow (j : ℕ) : BitVec.ofNat 8 (2 ^ j) = BitVec.twoPow 8 j := by
  apply BitVec.eq_of_toNat_eq
  rw [BitVec.toNat_twoPow, BitVec.toNat_ofNat]

theorem and_mask_eq_zero_iff (hj : j < 8) :
    b &&& BitVec.ofNat 8 (2 ^ j) = 0 ↔ b.getLsbD j = false := by
  rw [mask_eq_twoPow, BitVec.and_twoPow]
  cases b.getLsbD j with
  | false => simp
  | true =>
    simp only [Bool.true_eq_false, iff_false]
    intro hzero
    have hbit := congrArg (fun v : Byte => v.getLsbD j) hzero
    simp [hj] at hbit

theorem getLsbD_or_mask (hj : j < 8) (k : ℕ) :
    (b ||| BitVec.ofNat 8 (2 ^ j)).getLsbD k = (b.getLsbD k || decide (k = j)) := by
  rw [mask_eq_twoPow, BitVec.getLsbD_or]
  by_cases hk : k = j
  · subst hk
    simp [hj]
  · simp [hk, Ne.symm hk]

variable {st' st : CState}

theorem emitMatch_map (mlen offset : ℕ) (hmap : st.copymap < st.dst) (hmask : st.copymask = 2 ^ j) :
    (emitMatch st mlen offset).out st.copymap = st.out st.copymap ||| BitVec.ofNat 8 (2 ^ j) := by
  have h1 : st.copymap ≠ st.dst + 1 := by omega
  rw [← hmask]
  show update (update (update _ _ _) _ _) _ _ st.copymap = _
  rw [update_of_ne h1, update_of_ne hmap.ne, update_self]

theorem emitLiteral_map (hmap : st.copymap < st.dst) :
    (emitLiteral s st).out st.copymap = st.out st.copymap :=
  update_of_ne hmap.ne _ _

theorem Emits.written (h : Emits s sLen st st') (hready : Ready dLen j st) :
    Top dLen j st' ∧ st.src < st'.src ∧ st.dst < st'.dst ∧ st'.copymap = st.copymap
      ∧ (∀ i, st'.dst ≤ i → st'.out i = st.out i)
      ∧ (∀ i < st.dst, i ≠ st.copymap → st'.out i = st.out i)
      ∧ ∀ k < j, (st'.out st.copymap).getLsbD k = (st.out st.copymap).getLsbD k := by
  obtain ⟨hbit, hmask, hmap, hclear, hroom⟩ := hready
  cases h with
  | literal lempel h =>
    subst h
    have hcm := emitLiteral_map (s := s) hmap
    refine ⟨⟨hbit, hmask, fun _ => hmap.trans (lt_succ_self _), ?_, ?_⟩, lt_succ_self _,
      lt_succ_self _, rfl, ?_, ?_, ?_⟩
    · intro k hk
      exact (congrArg (BitVec.getLsbD · k) hcm).trans (hclear k hk.le)
    · show st.dst + 1 + 2 * (7 - j) ≤ dLen
      omega
    · intro i hi
      exact update_of_ne (show i ≠ st.dst from (lt_of_succ_le hi).ne') _ _
    · intro i hi _
      exact update_of_ne hi.ne _ _
    · intro k _
      exact congrArg (BitVec.getLsbD · k) hcm
  | copy lempel mlen offset h hmin hmax hfit hpos hoff hle heq =>
    subst h
    have hcm : (emitMatch { st with lempel := lempel } mlen offset).out st.copymap = _ :=
      emitMatch_map _ _ hmap hmask
    have hother : ∀ i, i ≠ st.copymap → i ≠ st.dst → i ≠ st.dst + 1 →
        (emitMatch { st with lempel := lempel } mlen offset).out i = st.out i := by
      intro i h1 h2 h3
      show update (update (update _ _ _) _ _) _ _ i = _
      rw [update_of_ne h3, update_of_ne h2, update_of_ne h1]
    rw [matchMin] at hmin
    refine ⟨⟨hbit, hmask, fun _ => hmap.trans (Nat.lt_add_of_pos_right (by omega)), ?_, ?_⟩,
      Nat.lt_add_of_pos_right (by omega), Nat.lt_add_of_pos_right (by omega), rfl, ?_, ?_, ?_⟩
    · intro k hk
      show ((emitMatch { st with lempel := lempel } mlen offset).out st.copymap).getLsbD k = false
      rw [hcm, getLsbD_or_mask hbit, hclear k hk.le, decide_eq_false hk.ne']
      rfl
    · show st.dst + 2 + 2 * (7 - j) ≤ dLen
      omega
    · intro i hi
      have hi' : st.dst + 2 ≤ i := hi
      exact hother i (by omega) (by omega) (by omega)
    · intro i hi hne
      exact hother i hne hi.ne (by omega)
    · intro k hk
      rw [hcm, getLsbD_or_mask hbit, decide_eq_false hk.ne, Bool.or_false]

/-! ## Compressing and decompressing in step -/

structure Matches (s : Buf) (sLen : ℕ) (out d₀ : Buf) (st : CState) (d : DState) : Prop where
  src : d.src = st.dst
  dst : d.dst = st.src
  mask : d.copymask = st.copymask
  map : st.copymap < st.dst → d.copymap = out st.copymap
  done : ∀ i < st.src, d.out i = s i
  rest : ∀ i, sLen ≤ i → d.out i = d₀ i

theorem Emits.extends_before (h : Emits s sLen st st') (hready : Ready dLen j st)
    (hext : Extends j st' out) :
    (∀ i < st.dst, i ≠ st.copymap → out i = st.out i)
      ∧ ∀ k < j, (out st.copymap).getLsbD k = (st.out st.copymap).getLsbD k := by
  obtain ⟨-, -, hdst, hmap, -, hbytes, hbits⟩ := h.written hready
  have hlt : st'.copymap < st'.dst := hmap ▸ hready.map.trans hdst
  refine ⟨?_, ?_⟩
  · intro i hi hne
    rw [hext.bytes i (hi.trans hdst) (hmap ▸ hne), hbytes i hi hne]
  · intro k hk
    have := hext.bits hlt k hk.le
    rw [hmap] at this
    rw [this, hbits k hk]

/-- **ONE ITEM IN STEP**: the decompressor reads back what the compressor emitted. -/
theorem Emits.decompress {d : DState} {d₀ : Buf} (h : Emits s sLen st st')
    (hready : Ready dLen j st) (hext : Extends j st' out) (hc : st'.dst ≤ c) (hsrc : st'.src ≤ sLen)
    (hd : Matches s sLen out d₀ st d) :
    ∃ d', decompressItem out c sLen d = some (some d') ∧ Matches s sLen out d₀ st' d' := by
  obtain ⟨hbit, hmask, hmap, hclear, -⟩ := hready
  obtain ⟨hdsrc, hddst, hdmask, hdmap, hdone, hrest⟩ := hd
  have hdmask' : d.copymask = 2 ^ j := hdmask.trans hmask
  cases h with
  | literal lempel h =>
    subst h
    have hmap' : st.copymap < st.dst + 1 := hmap.trans (lt_succ_self _)
    have hzero : d.copymap &&& BitVec.ofNat 8 d.copymask = 0 := by
      rw [hdmask', and_mask_eq_zero_iff hbit, hdmap hmap]
      have hcm := congrArg (BitVec.getLsbD · j) (emitLiteral_map (s := s) hmap)
      exact (hext.bits hmap' j le_rfl).trans (hcm.trans (hclear j le_rfl))
    have hread : readSrc out c d.src = some (s st.src) := by
      have hlt : d.src < c := by
        rw [hdsrc]
        exact hc
      have hbyte := hext.bytes st.dst (lt_succ_self _) hmap.ne'
      rw [readSrc, if_pos hlt, hdsrc, hbyte]
      exact congrArg some (update_self _ _ _)
    refine ⟨{ d with src := d.src + 1, dst := d.dst + 1, out := update d.out d.dst (s st.src) },
      ?_, ⟨congrArg (· + 1) hdsrc, congrArg (· + 1) hddst, hdmask, fun _ => hdmap hmap, ?_, ?_⟩⟩
    · rw [decompressItem, if_neg (not_not.mpr hzero), hread]
      rfl
    · intro i hi
      rcases Nat.lt_succ_iff_lt_or_eq.mp hi with hlt | rfl
      · have hlt' : i < st.src := hlt
        show update d.out d.dst (s st.src) i = s i
        rw [update_of_ne (show i ≠ d.dst by omega)]
        exact hdone i hlt'
      · show update d.out d.dst (s st.src) st.src = s st.src
        rw [hddst, update_self]
    · intro i hi
      have hlt : st.src + 1 ≤ sLen := hsrc
      show update d.out d.dst (s st.src) i = d₀ i
      rw [update_of_ne (show i ≠ d.dst by omega)]
      exact hrest i hi
  | copy lempel mlen offset h hmin hmax hfit hpos hoff hle heq =>
    subst h
    have hmap' : st.copymap < st.dst + 2 := hmap.trans (Nat.lt_add_of_pos_right (by omega))
    have hone : d.copymap &&& BitVec.ofNat 8 d.copymask ≠ 0 := by
      rw [hdmask', Ne, and_mask_eq_zero_iff hbit, hdmap hmap, Bool.not_eq_false]
      have hcm := congrArg (BitVec.getLsbD · j) (emitMatch_map mlen offset hmap hmask)
      refine (hext.bits hmap' j le_rfl).trans (hcm.trans ?_)
      rw [getLsbD_or_mask hbit, decide_eq_true rfl, Bool.or_true]
    have hc' : st.dst + 2 ≤ c := hc
    have hread₀ : readSrc out c d.src = some (BitVec.ofNat 8
        (((mlen - matchMin) <<< (nbby - matchBits)) ||| (offset >>> nbby))) := by
      have hbyte := hext.bytes st.dst (show st.dst < st.dst + 2 by omega) hmap.ne'
      rw [readSrc, if_pos (by omega), hdsrc, hbyte]
      show some (update (update (update _ _ _) _ _) _ _ st.dst) = _
      rw [update_of_ne (lt_succ_self _).ne, update_self]
    have hread₁ : readSrc out c (d.src + 1) = some (BitVec.ofNat 8 offset) := by
      have hbyte := hext.bytes (st.dst + 1) (show st.dst + 1 < st.dst + 2 by omega)
        (show st.dst + 1 ≠ st.copymap by omega)
      rw [readSrc, if_pos (by omega), hdsrc, hbyte]
      exact congrArg some (update_self _ _ _)
    obtain ⟨hlen, hdist⟩ := decode_match hmin hmax hoff
    have hdone' : ∀ i < d.dst, d.out i = s i := hddst ▸ hdone
    obtain ⟨o, hcopy, hbelow, habove⟩ := copyBack_spec sLen hpos (hddst ▸ hle)
      (hddst ▸ hfit) hdone' (hddst ▸ heq)
    refine ⟨{ d with src := d.src + 2, dst := d.dst + mlen, out := o }, ?_,
      ⟨congrArg (· + 2) hdsrc, congrArg (· + mlen) hddst, hdmask, fun _ => hdmap hmap, ?_, ?_⟩⟩
    · rw [decompressItem, if_pos hone, hread₀, hread₁]
      simp only [Option.bind_eq_bind, Option.bind_some, hlen, hdist]
      rw [if_neg (by omega), hcopy]
      rfl
    · intro i hi
      exact hbelow i (hddst ▸ hi)
    · intro i hi
      exact (habove i (by omega)).trans (hrest i hi)

def newGroup (st : CState) : CState :=
  { st with
    copymask := 1
    copymap := st.dst
    out := update st.out st.dst 0
    dst := st.dst + 1 }

def nextBit (st : CState) : CState := { st with copymask := st.copymask <<< 1 }

variable {st : CState} {d : DState} {d₀ : Buf} {fuel : ℕ}

theorem newGroup_ready (hroom : st.dst + 17 < dLen) : Ready dLen 0 (newGroup st) := by
  refine ⟨by omega, rfl, lt_succ_self _, ?_, ?_⟩
  · intro k _
    show (update st.out st.dst 0 st.dst).getLsbD k = false
    rw [update_self]
    exact BitVec.getLsbD_zero
  · show st.dst + 1 + 2 * (8 - 0) ≤ dLen
    omega

theorem Top.nextBit_ready (h : Top dLen j st) (hj : j < 7) : Ready dLen (j + 1) (nextBit st) := by
  refine ⟨by omega, ?_, h.map hj, fun k hk => h.clear k hk, ?_⟩
  · show st.copymask <<< 1 = 2 ^ (j + 1)
    rw [h.mask, shiftLeft_eq, ← pow_succ]
  · have := h.room
    show st.dst + 2 * (8 - (j + 1)) ≤ dLen
    omega

theorem Top.last_iff (h : Top dLen j st) : st.copymask <<< 1 = 1 <<< nbby ↔ j = 7 := by
  rw [h.mask, shiftLeft_eq, ← pow_succ, shiftLeft_eq, one_mul]
  refine ⟨fun heq => ?_, fun heq => by rw [heq]; rfl⟩
  have := Nat.pow_right_injective (le_refl 2) heq
  rw [nbby] at this
  omega

theorem giveUp_fst : (giveUp s sLen dLen out).1 = sLen := by
  rw [giveUp]
  split_ifs <;> rfl

theorem Emits.src_le (h : Emits s sLen st st') (hsrc : st.src < sLen) : st'.src ≤ sLen := by
  cases h with
  | literal lempel h =>
    subst h
    exact hsrc
  | copy lempel mlen offset h hmin hmax hfit hpos hoff hle heq =>
    subst h
    exact hfit

/-- How the compressor ends from a state on: its output extends what is there, stays
    within `dLen`, and the decompressor that stands at the same place runs through. -/
structure Finished (s : Buf) (sLen dLen j : ℕ) (st : CState) (c : ℕ) (out : Buf) : Prop where
  ext : Extends j st out
  le : st.dst ≤ c
  fits : c ≤ dLen
  above : ∀ i, c ≤ i → out i = st.out i
  runs : ∀ (d : DState) (d₀ : Buf) (fuel : ℕ), Matches s sLen out d₀ st d → sLen ≤ d.dst + fuel →
    ∃ d', decompressLoop out c sLen fuel d = some (0, c, d')
      ∧ (∀ i < sLen, d' i = s i) ∧ ∀ i, sLen ≤ i → d' i = d₀ i

theorem Top.finished (h : Top dLen j st) (hsrc : st.src = sLen) :
    Finished s sLen dLen j st st.dst st.out := by
  refine ⟨⟨fun i _ _ => rfl, fun _ k _ => rfl⟩, le_rfl, (le_add_right _ _).trans h.room,
    fun i _ => rfl, ?_⟩
  intro d d₀ fuel hd _
  have hend : ¬d.dst < sLen := by
    rw [hd.dst, hsrc]
    exact lt_irrefl _
  have hsrc' : d.src = st.dst := hd.src
  refine ⟨d.out, ?_, hsrc ▸ hd.done, hd.rest⟩
  cases fuel with
  | zero | succ fuel => rw [decompressLoop, if_neg hend, hsrc']

variable {st₂ : CState}

theorem decompressLoop_step {st₁ : CState} {d₁ : DState} (hnext : nextMask out c d = some d₁)
    (hd₁ : Matches s sLen out d₀ st₁ d₁) (hdst : d₁.dst = d.dst) (hemit : Emits s sLen st₁ st₂)
    (hready : Ready dLen j st₁) (hsrc : st₁.src < sLen) (hfin : Finished s sLen dLen j st₂ c out)
    (hfuel : sLen ≤ d.dst + fuel) :
    ∃ d', decompressLoop out c sLen fuel d = some (0, c, d')
      ∧ (∀ i < sLen, d' i = s i) ∧ ∀ i, sLen ≤ i → d' i = d₀ i := by
  have hlt : d.dst < sLen := by
    rw [← hdst, hd₁.dst]
    exact hsrc
  obtain ⟨d₂, hitem, hd₂⟩ := hemit.decompress hready hfin.ext hfin.le (hemit.src_le hsrc) hd₁
  have hgrow := (hemit.written hready).2.1
  cases fuel with
  | zero => omega
  | succ fuel =>
    have hfuel' : sLen ≤ d₂.dst + fuel := by
      have h1 : d.dst = st₁.src := hdst ▸ hd₁.dst
      have h2 : d₂.dst = st₂.src := hd₂.dst
      omega
    obtain ⟨d', hloop, hdone, hrest⟩ := hfin.runs d₂ d₀ fuel hd₂ hfuel'
    refine ⟨d', ?_, hdone, hrest⟩
    rw [decompressLoop, if_pos hlt, hnext, Option.bind_eq_bind, Option.bind_some, hitem]
    exact hloop

theorem Top.finished_nextBit (h : Top dLen j st) (hj : j < 7) (hsrc : st.src < sLen)
    (hemit : Emits s sLen (nextBit st) st₂) (hfin : Finished s sLen dLen (j + 1) st₂ c out) :
    Finished s sLen dLen j st c out := by
  have hready := h.nextBit_ready hj
  obtain ⟨-, -, hdst, -, habove, -, -⟩ := hemit.written hready
  obtain ⟨hbytes, hbits⟩ := hemit.extends_before hready hfin.ext
  have hlt : st.dst < st₂.dst := hdst
  refine ⟨⟨hbytes, fun _ k hk => hbits k (lt_succ_of_le hk)⟩, hlt.le.trans hfin.le, hfin.fits,
    ?_, ?_⟩
  · intro i hi
    rw [hfin.above i hi, habove i (hfin.le.trans hi)]
    rfl
  intro d d₀ fuel hd hfuel
  have hlast : ¬d.copymask <<< 1 = 1 <<< nbby := by
    rw [hd.mask, h.last_iff]
    exact hj.ne
  have hnext : nextMask out c d = some { d with copymask := d.copymask <<< 1 } := by
    rw [nextMask, if_neg hlast]
  have hd₁ : Matches s sLen out d₀ (nextBit st) { d with copymask := d.copymask <<< 1 } :=
    { hd with mask := congrArg (· <<< 1) hd.mask }
  exact decompressLoop_step hnext hd₁ rfl hemit hready hsrc hfin hfuel

theorem Top.finished_newGroup (h : Top dLen j st) (hj : j = 7) (hroom : st.dst + 17 < dLen)
    (hsrc : st.src < sLen) (hemit : Emits s sLen (newGroup st) st₂)
    (hfin : Finished s sLen dLen 0 st₂ c out) : Finished s sLen dLen j st c out := by
  have hready : Ready dLen 0 (newGroup st) := newGroup_ready hroom
  obtain ⟨-, -, hdst, -, habove, -, -⟩ := hemit.written hready
  obtain ⟨hbytes, -⟩ := hemit.extends_before hready hfin.ext
  have hlt : st.dst + 1 < st₂.dst := hdst
  have hkeep : ∀ i < st.dst, out i = st.out i := by
    intro i hi
    rw [hbytes i (lt_succ_of_lt hi) hi.ne]
    exact update_of_ne hi.ne _ _
  refine ⟨⟨fun i hi _ => hkeep i hi, fun hmap k _ => by rw [hkeep _ hmap]⟩, ?_, hfin.fits, ?_, ?_⟩
  · exact (le_of_succ_le hlt.le).trans hfin.le
  · intro i hi
    have hi' : st₂.dst ≤ i := hfin.le.trans hi
    rw [hfin.above i hi, habove i hi']
    exact update_of_ne (show i ≠ st.dst by omega) _ _
  intro d d₀ fuel hd hfuel
  have hlast : d.copymask <<< 1 = 1 <<< nbby := by
    rw [hd.mask, h.last_iff]
    exact hj
  have hlt' : d.src < c := by
    have h1 : d.src = st.dst := hd.src
    have h2 := hfin.le
    omega
  have hread : readSrc out c d.src = some (out d.src) := if_pos hlt'
  have hnext : nextMask out c d
      = some { d with copymask := 1, copymap := out d.src, src := d.src + 1 } := by
    rw [nextMask, if_pos hlast, hread]
    rfl
  have hd₁ : Matches s sLen out d₀ (newGroup st)
      { d with copymask := 1, copymap := out d.src, src := d.src + 1 } :=
    ⟨congrArg (· + 1) hd.src, hd.dst, rfl, fun _ => congrArg out hd.src, hd.done, hd.rest⟩
  exact decompressLoop_step hnext hd₁ rfl hemit hready hsrc hfin hfuel

/-- **THE COMPRESSOR'S LOOP** ends, and what it returns short of `sLen` can be undone. -/
theorem compressLoop_spec (s : Buf) (base : ℕ) (htop : Top dLen j st) (hsrc : st.src ≤ sLen)
    (hfuel : sLen ≤ st.src + fuel) :
    ∃ c out, compressLoop s base sLen dLen fuel st = some (c, out)
      ∧ (c < sLen → Finished s sLen dLen j st c out) := by
  induction fuel generalizing st j with
  | zero =>
    have heq : st.src = sLen := by omega
    refine ⟨st.dst, st.out, ?_, fun _ => htop.finished heq⟩
    rw [compressLoop, if_neg (by omega)]
  | succ fuel ih =>
    by_cases hlt : st.src < sLen
    · rw [compressLoop, if_pos hlt]
      by_cases hj : j = 7
      · rw [if_pos (htop.last_iff.mpr hj)]
        by_cases hfull : dLen ≤ st.dst + (1 + 2 * nbby)
        · rw [if_pos hfull]
          exact ⟨_, _, rfl, fun hc => absurd (giveUp_fst ▸ hc) (lt_irrefl _)⟩
        rw [if_neg hfull]
        have hroom : st.dst + 17 < dLen := not_le.mp hfull
        have hemit := compressItem_emits s base sLen (newGroup st)
        obtain ⟨htop', hgrow, -⟩ := hemit.written (newGroup_ready hroom)
        have hgrow' : st.src < (compressItem s base sLen (newGroup st)).src := hgrow
        obtain ⟨c, out, hloop, hfin⟩ := ih htop' (hemit.src_le hlt) (by omega)
        exact ⟨c, out, hloop, fun hc => htop.finished_newGroup hj hroom hlt hemit (hfin hc)⟩
      · rw [if_neg fun heq => hj (htop.last_iff.mp heq)]
        have hj' : j < 7 := lt_of_le_of_ne (le_of_lt_succ htop.bit) hj
        have hemit := compressItem_emits s base sLen (nextBit st)
        obtain ⟨htop', hgrow, -⟩ := hemit.written (htop.nextBit_ready hj')
        have hgrow' : st.src < (compressItem s base sLen (nextBit st)).src := hgrow
        obtain ⟨c, out, hloop, hfin⟩ := ih htop' (hemit.src_le hlt) (by omega)
        exact ⟨c, out, hloop, fun hc => htop.finished_nextBit hj' hlt hemit (hfin hc)⟩
    · have heq : st.src = sLen := by omega
      refine ⟨st.dst, st.out, ?_, fun _ => htop.finished heq⟩
      rw [compressLoop, if_neg hlt]

/-! ## What was in the destination before does not matter -/

/-- Two runs at the same place, with the same bytes written so far. -/
structure Alike (st st' : CState) : Prop where
  src : st'.src = st.src
  dst : st'.dst = st.dst
  mask : st'.copymask = st.copymask
  map : st'.copymap = st.copymap
  lempel : st'.lempel = st.lempel
  out : ∀ i < st.dst, st'.out i = st.out i

theorem update_alike {o o' : Buf} (h : ∀ i < k, o' i = o i) (b : Byte) :
    ∀ i < k + 1, update o' k b i = update o k b i := by
  intro i hi
  rcases Nat.lt_succ_iff_lt_or_eq.mp hi with hlt | rfl
  · rw [update_of_ne hlt.ne, update_of_ne hlt.ne]
    exact h i hlt
  · rw [update_self, update_self]

theorem Alike.compressItem (h : Alike st st') (hmap : st.copymap < st.dst) (s : Buf)
    (base sLen : ℕ) : Alike (compressItem s base sLen st) (compressItem s base sLen st') := by
  obtain ⟨_, _, _, _, _, o⟩ := st'
  obtain ⟨rfl, rfl, rfl, rfl, rfl, hout⟩ := h
  rw [Lzjb.compressItem, Lzjb.compressItem]
  dsimp only
  split_ifs
  · exact ⟨rfl, rfl, rfl, rfl, rfl, update_alike hout _⟩
  · refine ⟨rfl, rfl, rfl, rfl, rfl, update_alike (update_alike ?_ _) _⟩
    intro i hi
    by_cases hcm : i = st.copymap
    · rw [hcm, update_self, update_self]
      exact congrArg (· ||| _) (hout _ hmap)
    · rw [update_of_ne hcm, update_of_ne hcm]
      exact hout i hi
  · exact ⟨rfl, rfl, rfl, rfl, rfl, update_alike hout _⟩

theorem Alike.compressLoop (h : Alike st st') (s : Buf) (base : ℕ) (htop : Top dLen j st)
    (hret : compressLoop s base sLen dLen fuel st = some (c, out)) (hc : c < sLen) :
    ∃ out', Lzjb.compressLoop s base sLen dLen fuel st' = some (c, out') ∧
      ∀ i < c, out' i = out i := by
  induction fuel generalizing st st' j with
  | zero =>
    obtain ⟨_, _, _, _, _, o⟩ := st'
    obtain ⟨rfl, rfl, rfl, rfl, rfl, hout⟩ := h
    rw [Lzjb.compressLoop] at hret ⊢
    split_ifs at hret with hlt
    obtain ⟨rfl, rfl⟩ := Prod.mk.inj (Option.some.inj hret)
    exact ⟨o, if_neg hlt, hout⟩
  | succ fuel ih =>
    obtain ⟨_, _, _, _, _, o⟩ := st'
    obtain ⟨rfl, rfl, rfl, rfl, rfl, hout⟩ := h
    rw [Lzjb.compressLoop] at hret ⊢
    by_cases hlt : st.src < sLen
    · rw [if_pos hlt] at hret ⊢
      by_cases hlast : st.copymask <<< 1 = 1 <<< nbby
      · rw [if_pos hlast] at hret ⊢
        by_cases hfull : dLen ≤ st.dst + (1 + 2 * nbby)
        · rw [if_pos hfull] at hret
          have hfst : sLen = c := giveUp_fst.symm.trans (congrArg Prod.fst (Option.some.inj hret))
          exact absurd hc hfst.not_gt
        rw [if_neg hfull] at hret ⊢
        have hready : Ready dLen 0 (newGroup st) := newGroup_ready (not_le.mp hfull)
        have htop' := ((compressItem_emits s base sLen (newGroup st)).written hready).1
        have hg : Alike (newGroup st) { newGroup st with out := update o st.dst 0 } :=
          ⟨rfl, rfl, rfl, rfl, rfl, update_alike hout 0⟩
        exact ih (hg.compressItem hready.map s base sLen) htop' hret
      · rw [if_neg hlast] at hret ⊢
        have hj : j < 7 :=
          lt_of_le_of_ne (le_of_lt_succ htop.bit) fun hj => hlast (htop.last_iff.mpr hj)
        have hready := htop.nextBit_ready hj
        have htop' := ((compressItem_emits s base sLen (nextBit st)).written hready).1
        have hg : Alike (nextBit st) { nextBit st with out := o } := ⟨rfl, rfl, rfl, rfl, rfl, hout⟩
        exact ih (hg.compressItem hready.map s base sLen) htop' hret
    · rw [if_neg hlt] at hret ⊢
      obtain ⟨rfl, rfl⟩ := Prod.mk.inj (Option.some.inj hret)
      exact ⟨o, rfl, hout⟩

/-- **ROUND TRIP**: whatever is in the destination, on the stack and in the hash table, and
    wherever the source lies, the compressor returns; if it returns less than `sLen`, it has
    written exactly the bytes before that, within `dLen`; and the decompressor returns 0
    from them, restores the source, and reads no further. -/
theorem lzjb_roundtrip (s out₀ : Buf) (base copymap : ℕ) (lempel : ℕ → ℕ) (sLen dLen : ℕ) :
    ∃ c out, lzjbCompress s base out₀ copymap lempel sLen dLen = some (c, out)
      ∧ (c < sLen → c ≤ dLen
          ∧ (∀ i, c ≤ i → out i = out₀ i)
          ∧ (∀ out₁, ∃ out', lzjbCompress s base out₁ copymap lempel sLen dLen = some (c, out')
            ∧ ∀ i < c, out' i = out i)
          ∧ ∀ (d₀ : Buf) (garbage : Byte), ∃ read d,
            lzjbDecompress out c d₀ garbage sLen = some (0, read, d)
              ∧ read ≤ c ∧ (∀ i < sLen, d i = s i) ∧ ∀ i, sLen ≤ i → d i = d₀ i) := by
  have htop : Top dLen 7 ⟨0, 0, 1 <<< (nbby - 1), copymap, lempel, out₀⟩ := by
    refine ⟨by omega, rfl, fun hlt => absurd hlt (lt_irrefl _), ?_, zero_le _⟩
    intro k hk
    exact BitVec.getLsbD_of_ge _ _ hk
  obtain ⟨c, out, hloop, hfin⟩ := compressLoop_spec s base htop (zero_le sLen)
    (show sLen ≤ 0 + sLen by omega)
  refine ⟨c, out, hloop, ?_⟩
  intro hc
  have hfin' := hfin hc
  refine ⟨hfin'.fits, hfin'.above, ?_, ?_⟩
  · intro out₁
    have halike : Alike ⟨0, 0, 1 <<< (nbby - 1), copymap, lempel, out₀⟩
        ⟨0, 0, 1 <<< (nbby - 1), copymap, lempel, out₁⟩ :=
      ⟨rfl, rfl, rfl, rfl, rfl, fun i hi => absurd hi (not_lt_zero i)⟩
    exact halike.compressLoop s base htop hloop hc
  · intro d₀ garbage
    have hmatch : Matches s sLen out d₀ ⟨0, 0, 1 <<< (nbby - 1), copymap, lempel, out₀⟩
        ⟨0, 0, 1 <<< (nbby - 1), garbage, d₀⟩ :=
      ⟨rfl, rfl, rfl, fun hlt => absurd hlt (not_lt_zero _),
        fun i hi => absurd hi (not_lt_zero i), fun i _ => rfl⟩
    obtain ⟨d, hrun, hdone, hrest⟩ := hfin'.runs _ d₀ sLen hmatch (show sLen ≤ 0 + sLen by omega)
    exact ⟨c, d, hrun, le_rfl, hdone, hrest⟩

/-- The decompressor at bit `j` of a copy map, before an item (`slack` 8) or behind it (7): it does
    not look at `s_len`, but has read hardly more than nine bytes for eight it wrote. -/
structure Paced (slack dLen j : ℕ) (out : Buf) (st : DState) : Prop where
  bit : j < 8
  mask : st.copymask = 2 ^ j
  pace : st.dst < dLen → 8 * st.src ≤ 9 * st.dst + (slack - j)
  rest : ∀ i, dLen ≤ i → st.out i = out i

theorem copyBack_rest (dLen mlen cpy dst : ℕ) (out : Buf) :
    (copyBack dLen mlen cpy dst out).1 = max dst (min dLen (dst + mlen))
      ∧ ∀ i, dLen ≤ i → (copyBack dLen mlen cpy dst out).2 i = out i := by
  induction mlen generalizing cpy dst out with
  | zero => exact ⟨by simp only [copyBack]; omega, fun i _ => rfl⟩
  | succ mlen ih =>
    rw [copyBack]
    split_ifs with h
    · obtain ⟨h1, h2⟩ := ih (cpy + 1) (dst + 1) (update out dst (out cpy))
      exact ⟨by omega, fun i hi => by rw [h2 i hi, update_of_ne (by omega)]⟩
    · exact ⟨by omega, fun i _ => rfl⟩

section

variable {out : Buf} {sLen dLen j : ℕ} {st : DState} (inp : Buf) (hroom : 9 * dLen + 15 ≤ 8 * sLen)

include hroom

theorem Paced.nextMask (h : Paced 7 dLen j out st) (hdst : st.dst < dLen) : ∃ k st',
    nextMask inp sLen st = some st' ∧ st'.dst = st.dst ∧ Paced 8 dLen k out st' := by
  obtain ⟨hj, hmask, hpace, hrest⟩ := h
  have h0 : readSrc inp sLen st.src = some (inp st.src) := if_pos (by omega)
  rw [Lzjb.nextMask, h0]
  rcases Nat.lt_or_ge j 7 with hlt | hge
  · refine ⟨j + 1, _, if_neg ?_, rfl, by omega, ?_, fun _ => by dsimp only; omega, hrest⟩
    · rw [hmask]
      interval_cases j <;> decide
    · rw [hmask, shiftLeft_eq, pow_succ]
      rfl
  · obtain rfl : j = 7 := by omega
    rw [hmask]
    exact ⟨0, _, rfl, rfl, by omega, rfl, fun _ => by dsimp only; omega, hrest⟩

theorem Paced.item (h : Paced 8 dLen j out st) (hdst : st.dst < dLen) : ∃ r,
    decompressItem inp sLen dLen st = some r ∧ ∀ st' ∈ r, st.dst < st'.dst ∧
      Paced 7 dLen j out st' := by
  obtain ⟨hj, hmask, hpace, hrest⟩ := h
  have h0 : readSrc inp sLen st.src = some (inp st.src) := if_pos (by omega)
  have h1 : readSrc inp sLen (st.src + 1) = some (inp (st.src + 1)) := if_pos (by omega)
  simp only [decompressItem, h0, h1, Option.bind_eq_bind, Option.bind_some]
  split_ifs with hbit hoff
  · exact ⟨_, rfl, by simp⟩
  · refine ⟨_, rfl, ?_⟩
    rintro _ ⟨⟩
    generalize (inp st.src).toNat >>> (nbby - matchBits) = k
    refine ⟨?_, hj, hmask, ?_, fun i hi => ((copyBack_rest ..).2 i hi).trans (hrest i hi)⟩ <;>
      dsimp only <;> rw [(copyBack_rest ..).1, matchMin] <;> omega
  · refine ⟨_, rfl, ?_⟩
    rintro _ ⟨⟩
    exact ⟨lt_succ_self _, hj, hmask, fun _ => by dsimp only; omega,
      fun i hi => (update_of_ne (by omega) _ _).trans (hrest i hi)⟩

theorem Paced.loop {fuel : ℕ} (h : Paced 7 dLen j out st) (hfuel : dLen ≤ st.dst + fuel) :
    ∃ r read d, decompressLoop inp sLen dLen fuel st = some (r, read, d)
      ∧ ∀ i, dLen ≤ i → d i = out i := by
  induction fuel generalizing j st with
  | zero => exact ⟨_, _, _, if_neg (by omega), h.rest⟩
  | succ fuel ih =>
    rw [decompressLoop]
    split_ifs with hdst
    · obtain ⟨k, st', hnext, hd, h'⟩ := h.nextMask inp hroom hdst
      obtain ⟨r, hr, hst⟩ := h'.item inp hroom (hd ▸ hdst)
      simp only [hnext, hr, Option.bind_eq_bind, Option.bind_some]
      cases r with
      | none => exact ⟨_, _, _, rfl, h'.rest⟩
      | some st'' =>
        obtain ⟨hlt, h''⟩ := hst st'' rfl
        exact ih h'' (by omega)
    · exact ⟨_, _, _, rfl, h.rest⟩

/-- **HOSTILE INPUT**: whatever the bytes are, the loop ends, has read no further than nine eighths
    of `d_len` and two bytes more, and has written none behind `d_len`. -/
theorem lzjb_decompress_bounded (out : Buf) (garbage : Byte) :
    ∃ r read d, lzjbDecompress inp sLen out garbage dLen = some (r, read, d)
      ∧ ∀ i, dLen ≤ i → d i = out i :=
  Paced.loop inp hroom (j := 7) ⟨by decide, rfl, fun _ => le_rfl, fun _ _ => rfl⟩
    (Nat.le_add_left ..)

end

theorem lzjb_decompress_bounded_sector : ∃ r read d,
    lzjbDecompress (fun _ => 0xff) 578 (fun _ => 0) 0 512 = some (r, read, d) ∧
      ∀ i, 512 ≤ i → d i = 0 :=
  lzjb_decompress_bounded _ (by decide) _ _

end Sirius.Lzjb
