import Sirius.Lib.ByteWord
import Sirius.Lib.Doubling
import Sirius.Zfs.RaidzMap

/-! # RAID-Z parity — generating it and getting data back from it

    P is the XOR of the data columns, Q their Horner sum in GF(2^8) with generator 2 modulo
    `x^8 + x^4 + x^3 + x^2 + 1`.  The code works on 64-bit words with a masked multiply and on
    log/power tables, and pads short columns with zeros; the reconstructions solve for one or
    two missing columns.

    The word loops act byte by byte (`forWords_bytewise`), so each loop over the columns has
    an invariant about ONE byte position `k`, stated with the sums of the doubling `gf`; the
    rest is `Doubling.solve_one` and `Doubling.solve_two` at the source's exponents. -/

namespace Sirius.Raidz

open Sirius.Lib Function Finset Nat

/-- `VDEV_RAIDZ_MUL_2`, on a byte. -/
def vdevRaidzMul2 (a : Byte) : Byte := (a <<< 1) ^^^ (if a &&& 0x80#8 ≠ 0#8 then 0x1d#8 else 0#8)

/-- `vdev_raidz_pow2`. -/
def vdevRaidzPow2Table : List (BitVec 8) :=
  [0x01, 0x02, 0x04, 0x08, 0x10, 0x20, 0x40, 0x80,
   0x1d, 0x3a, 0x74, 0xe8, 0xcd, 0x87, 0x13, 0x26,
   0x4c, 0x98, 0x2d, 0x5a, 0xb4, 0x75, 0xea, 0xc9,
   0x8f, 0x03, 0x06, 0x0c, 0x18, 0x30, 0x60, 0xc0,
   0x9d, 0x27, 0x4e, 0x9c, 0x25, 0x4a, 0x94, 0x35,
   0x6a, 0xd4, 0xb5, 0x77, 0xee, 0xc1, 0x9f, 0x23,
   0x46, 0x8c, 0x05, 0x0a, 0x14, 0x28, 0x50, 0xa0,
   0x5d, 0xba, 0x69, 0xd2, 0xb9, 0x6f, 0xde, 0xa1,
   0x5f, 0xbe, 0x61, 0xc2, 0x99, 0x2f, 0x5e, 0xbc,
   0x65, 0xca, 0x89, 0x0f, 0x1e, 0x3c, 0x78, 0xf0,
   0xfd, 0xe7, 0xd3, 0xbb, 0x6b, 0xd6, 0xb1, 0x7f,
   0xfe, 0xe1, 0xdf, 0xa3, 0x5b, 0xb6, 0x71, 0xe2,
   0xd9, 0xaf, 0x43, 0x86, 0x11, 0x22, 0x44, 0x88,
   0x0d, 0x1a, 0x34, 0x68, 0xd0, 0xbd, 0x67, 0xce,
   0x81, 0x1f, 0x3e, 0x7c, 0xf8, 0xed, 0xc7, 0x93,
   0x3b, 0x76, 0xec, 0xc5, 0x97, 0x33, 0x66, 0xcc,
   0x85, 0x17, 0x2e, 0x5c, 0xb8, 0x6d, 0xda, 0xa9,
   0x4f, 0x9e, 0x21, 0x42, 0x84, 0x15, 0x2a, 0x54,
   0xa8, 0x4d, 0x9a, 0x29, 0x52, 0xa4, 0x55, 0xaa,
   0x49, 0x92, 0x39, 0x72, 0xe4, 0xd5, 0xb7, 0x73,
   0xe6, 0xd1, 0xbf, 0x63, 0xc6, 0x91, 0x3f, 0x7e,
   0xfc, 0xe5, 0xd7, 0xb3, 0x7b, 0xf6, 0xf1, 0xff,
   0xe3, 0xdb, 0xab, 0x4b, 0x96, 0x31, 0x62, 0xc4,
   0x95, 0x37, 0x6e, 0xdc, 0xa5, 0x57, 0xae, 0x41,
   0x82, 0x19, 0x32, 0x64, 0xc8, 0x8d, 0x07, 0x0e,
   0x1c, 0x38, 0x70, 0xe0, 0xdd, 0xa7, 0x53, 0xa6,
   0x51, 0xa2, 0x59, 0xb2, 0x79, 0xf2, 0xf9, 0xef,
   0xc3, 0x9b, 0x2b, 0x56, 0xac, 0x45, 0x8a, 0x09,
   0x12, 0x24, 0x48, 0x90, 0x3d, 0x7a, 0xf4, 0xf5,
   0xf7, 0xf3, 0xfb, 0xeb, 0xcb, 0x8b, 0x0b, 0x16,
   0x2c, 0x58, 0xb0, 0x7d, 0xfa, 0xe9, 0xcf, 0x83,
   0x1b, 0x36, 0x6c, 0xd8, 0xad, 0x47, 0x8e, 0x01]

/-- `vdev_raidz_log2`. -/
def vdevRaidzLog2Table : List (BitVec 8) :=
  [0x00, 0x00, 0x01, 0x19, 0x02, 0x32, 0x1a, 0xc6,
   0x03, 0xdf, 0x33, 0xee, 0x1b, 0x68, 0xc7, 0x4b,
   0x04, 0x64, 0xe0, 0x0e, 0x34, 0x8d, 0xef, 0x81,
   0x1c, 0xc1, 0x69, 0xf8, 0xc8, 0x08, 0x4c, 0x71,
   0x05, 0x8a, 0x65, 0x2f, 0xe1, 0x24, 0x0f, 0x21,
   0x35, 0x93, 0x8e, 0xda, 0xf0, 0x12, 0x82, 0x45,
   0x1d, 0xb5, 0xc2, 0x7d, 0x6a, 0x27, 0xf9, 0xb9,
   0xc9, 0x9a, 0x09, 0x78, 0x4d, 0xe4, 0x72, 0xa6,
   0x06, 0xbf, 0x8b, 0x62, 0x66, 0xdd, 0x30, 0xfd,
   0xe2, 0x98, 0x25, 0xb3, 0x10, 0x91, 0x22, 0x88,
   0x36, 0xd0, 0x94, 0xce, 0x8f, 0x96, 0xdb, 0xbd,
   0xf1, 0xd2, 0x13, 0x5c, 0x83, 0x38, 0x46, 0x40,
   0x1e, 0x42, 0xb6, 0xa3, 0xc3, 0x48, 0x7e, 0x6e,
   0x6b, 0x3a, 0x28, 0x54, 0xfa, 0x85, 0xba, 0x3d,
   0xca, 0x5e, 0x9b, 0x9f, 0x0a, 0x15, 0x79, 0x2b,
   0x4e, 0xd4, 0xe5, 0xac, 0x73, 0xf3, 0xa7, 0x57,
   0x07, 0x70, 0xc0, 0xf7, 0x8c, 0x80, 0x63, 0x0d,
   0x67, 0x4a, 0xde, 0xed, 0x31, 0xc5, 0xfe, 0x18,
   0xe3, 0xa5, 0x99, 0x77, 0x26, 0xb8, 0xb4, 0x7c,
   0x11, 0x44, 0x92, 0xd9, 0x23, 0x20, 0x89, 0x2e,
   0x37, 0x3f, 0xd1, 0x5b, 0x95, 0xbc, 0xcf, 0xcd,
   0x90, 0x87, 0x97, 0xb2, 0xdc, 0xfc, 0xbe, 0x61,
   0xf2, 0x56, 0xd3, 0xab, 0x14, 0x2a, 0x5d, 0x9e,
   0x84, 0x3c, 0x39, 0x53, 0x47, 0x6d, 0x41, 0xa2,
   0x1f, 0x2d, 0x43, 0xd8, 0xb7, 0x7b, 0xa4, 0x76,
   0xc4, 0x17, 0x49, 0xec, 0x7f, 0x0c, 0x6f, 0xf6,
   0x6c, 0xa1, 0x3b, 0x52, 0x29, 0x9d, 0x55, 0xaa,
   0xfb, 0x60, 0x86, 0xb1, 0xbb, 0xcc, 0x3e, 0x5a,
   0xcb, 0x59, 0x5f, 0xb0, 0x9c, 0xa9, 0xa0, 0x51,
   0x0b, 0xf5, 0x16, 0xeb, 0x7a, 0x75, 0x2c, 0xd7,
   0x4f, 0xae, 0xd5, 0xe9, 0xe6, 0xe7, 0xad, 0xe8,
   0x74, 0xd6, 0xf4, 0xea, 0xa8, 0x50, 0x58, 0xaf]

def vdevRaidzPow2 (i : Nat) : Byte := vdevRaidzPow2Table.getD i 0

def vdevRaidzLog2 (a : Byte) : Nat := (vdevRaidzLog2Table.getD a.toNat 0).toNat

/-- `vdev_raidz_exp2`: `a` times `2^exp`. -/
def vdevRaidzExp2 (a : Byte) (exp : Nat) : Byte :=
  if a = 0 then 0
  else
    let exp := exp + vdevRaidzLog2 a
    let exp := if exp > 255 then exp - 255 else exp
    vdevRaidzPow2 exp

def Gf256 : Type := BitVec 8

def Gf256.of (b : Byte) : Gf256 := b

instance : Zero Gf256 := ⟨0#8⟩
instance : Add Gf256 := ⟨BitVec.xor⟩
instance : Neg Gf256 := ⟨id⟩

instance : AddCommGroup Gf256 where
  add_assoc := BitVec.xor_assoc
  zero_add _ := BitVec.zero_xor
  add_zero _ := BitVec.xor_zero
  add_comm := BitVec.xor_comm
  neg_add_cancel _ := BitVec.xor_self
  nsmul := nsmulRec
  zsmul := zsmulRec

theorem vdevRaidzMul2_xor (a b : Byte) :
    vdevRaidzMul2 (a ^^^ b) = vdevRaidzMul2 a ^^^ vdevRaidzMul2 b := by
  have hbit : ∀ c : Byte, (c &&& 0x80#8 ≠ 0#8) ↔ c.msb = true := by decide +kernel
  simp only [vdevRaidzMul2, hbit, BitVec.msb_xor, BitVec.shiftLeft_xor_distrib]
  cases a.msb with
  | false =>
    cases b.msb with
    | false => simp
    | true => simp [BitVec.xor_assoc]
  | true =>
    cases b.msb with
    | false => simp [BitVec.xor_assoc, BitVec.xor_comm (b <<< 1)]
    | true =>
      show a <<< 1 ^^^ b <<< 1 ^^^ 0#8 = a <<< 1 ^^^ 0x1d#8 ^^^ (b <<< 1 ^^^ 0x1d#8)
      rw [BitVec.xor_comm (b <<< 1) 0x1d#8, BitVec.xor_assoc (a <<< 1) 0x1d#8,
        ← BitVec.xor_assoc 0x1d#8 0x1d#8, BitVec.xor_self, BitVec.zero_xor, BitVec.xor_zero]

theorem vdevRaidzPow2Table_length : vdevRaidzPow2Table.length = 256 := by decide +kernel

theorem vdevRaidzLog2Table_length : vdevRaidzLog2Table.length = 256 := by decide +kernel

theorem vdevRaidzPow2Table_tail :
    vdevRaidzPow2Table.tail = (vdevRaidzPow2Table.take 255).map vdevRaidzMul2 := by
  decide +kernel

theorem vdevRaidzPow2_succ {i : Nat} (hi : i < 255) :
    vdevRaidzPow2 (i + 1) = vdevRaidzMul2 (vdevRaidzPow2 i) := by
  have hlen := vdevRaidzPow2Table_length
  have h := congrArg (fun l => l[i]?) vdevRaidzPow2Table_tail
  simp only [List.getElem?_tail, List.getElem?_map, List.getElem?_take, if_pos hi] at h
  rw [vdevRaidzPow2, vdevRaidzPow2, List.getD_eq_getElem?_getD, List.getD_eq_getElem?_getD, h,
    List.getElem?_eq_getElem (by omega)]
  rfl

theorem vdevRaidzPow2_iterate {i : Nat} (hi : i ≤ 255) :
    vdevRaidzPow2 i = vdevRaidzMul2^[i] 1#8 := by
  induction i with
  | zero => rfl
  | succ i ih =>
    rw [vdevRaidzPow2_succ (by omega), ih (by omega), iterate_succ_apply']

theorem vdevRaidzLog2Table_tail :
    vdevRaidzLog2Table.tail.map (fun l => vdevRaidzPow2 l.toNat)
      = (List.range' 1 255).map (BitVec.ofNat 8) := by
  decide +kernel

theorem vdevRaidzLog2Table_le : vdevRaidzLog2Table.all (fun l => l.toNat ≤ 254) = true := by
  decide +kernel

theorem vdevRaidzPow2_log2 {a : Byte} (ha : a ≠ 0) :
    vdevRaidzPow2 (vdevRaidzLog2 a) = a ∧ vdevRaidzLog2 a ≤ 254 := by
  have hlen := vdevRaidzLog2Table_length
  have hlt : a.toNat < 256 := a.isLt
  have hpos : 0 < a.toNat := by
    refine Nat.pos_of_ne_zero ?_
    intro h
    exact ha (BitVec.eq_of_toNat_eq h)
  obtain ⟨l, hget⟩ : ∃ l, vdevRaidzLog2Table[a.toNat]? = some l := by
    rw [← Option.isSome_iff_exists, isSome_getElem?, hlen]
    exact hlt
  have hlog : vdevRaidzLog2 a = l.toNat := by
    rw [vdevRaidzLog2, List.getD_eq_getElem?_getD, hget]
    rfl
  constructor
  · have h := congrArg (fun l => l[a.toNat - 1]?) vdevRaidzLog2Table_tail
    simp only [List.getElem?_map, List.getElem?_tail, Nat.sub_add_cancel hpos, hget,
      List.getElem?_range' (show a.toNat - 1 < 255 by omega), Option.map_some] at h
    rw [hlog, Option.some.inj h]
    refine BitVec.eq_of_toNat_eq ?_
    rw [BitVec.toNat_ofNat]
    omega
  · rw [hlog]
    exact of_decide_eq_true
      (List.all_eq_true.mp vdevRaidzLog2Table_le l (List.mem_of_getElem? hget))

def gf : Doubling Gf256 where
  dbl := ⟨⟨vdevRaidzMul2, rfl⟩, vdevRaidzMul2_xor⟩
  one := 1#8
  period := 255
  period_pos := by decide
  cycle := (vdevRaidzPow2_iterate (le_refl 255)).symm
  log := vdevRaidzLog2
  gen v hv := by
    obtain ⟨hpow, hle⟩ := vdevRaidzPow2_log2 hv
    exact (vdevRaidzPow2_iterate (le_trans hle (by decide))).symm.trans hpow
  char_two _ := BitVec.xor_self

namespace Gf256

theorem of_inj {a b : Byte} (h : of a = of b) : a = b := h

@[simp] theorem of_xor (a b : Byte) : of (a ^^^ b) = of a + of b := rfl

@[simp] theorem of_zero : of 0#8 = 0 := rfl

theorem of_mul2 (a : Byte) : of (vdevRaidzMul2 a) = gf.dbl (of a) := rfl

theorem of_pow2 {i : Nat} (hi : i ≤ 255) : of (vdevRaidzPow2 i) = gf.pow i gf.one :=
  vdevRaidzPow2_iterate hi

theorem of_exp2 {e : Nat} (he : e ≤ 255) (a : Byte) : of (vdevRaidzExp2 a e) = gf.pow e (of a) := by
  by_cases ha : a = 0
  · subst ha
    exact (gf.pow_map_zero e).symm
  obtain ⟨-, hle⟩ := vdevRaidzPow2_log2 ha
  have hgen : of a = gf.pow (vdevRaidzLog2 a) gf.one := (gf.gen a ha).symm
  rw [vdevRaidzExp2, if_neg ha]
  show of (vdevRaidzPow2 (if e + vdevRaidzLog2 a > 255 then e + vdevRaidzLog2 a - 255
    else e + vdevRaidzLog2 a)) = _
  conv_rhs => rw [hgen, ← gf.pow_add]
  by_cases hbig : e + vdevRaidzLog2 a > 255
  · rw [if_pos hbig, of_pow2 (by omega)]
    refine gf.pow_modEq ?_ _
    show (e + vdevRaidzLog2 a - 255) % 255 = (e + vdevRaidzLog2 a) % 255
    omega
  · rw [if_neg hbig, of_pow2 (by omega)]

end Gf256

open Gf256 (of)

def highBytes (w : BitVec 64) : BitVec 64 :=
  let mask := w &&& 0x8080808080808080#64
  (mask <<< 1) - (mask >>> 7)

def mul2Word (w : BitVec 64) : BitVec 64 :=
  ((w <<< 1) &&& 0xfefefefefefefefe#64) ^^^ (highBytes w &&& 0x1d1d1d1d1d1d1d1d#64)

theorem wordByte_highBytes (w : BitVec 64) {j : Nat} (hj : j < 8) :
    wordByte (highBytes w) j = if wordByte w j &&& 0x80#8 ≠ 0#8 then 0xff#8 else 0#8 := by
  obtain ⟨s, hs⟩ := exists_bits (fun j => decide (wordByte w j &&& 0x80#8 ≠ 0#8))
  have hbyte : ∀ a : Byte, a &&& 0x80#8 = if a &&& 0x80#8 ≠ 0#8 then 0x80#8 else 0#8 := by
    decide +kernel
  have hconst : ∀ k < 8, wordByte 0x8080808080808080#64 k = 0x80#8 := by decide
  -- the mask depends on the eight high bits only
  have hw : w &&& 0x8080808080808080#64 = spread 0x80#8 s := by
    apply eq_of_wordByte
    intro k hk
    rw [wordByte_and, hconst k hk, wordByte_spread _ _ hk, hs k hk, hbyte]
    simp
  show wordByte ((w &&& 0x8080808080808080#64) <<< 1 - (w &&& 0x8080808080808080#64) >>> 7) j = _
  rw [hw, spread_fill, wordByte_spread _ _ hj, hs j hj]
  simp

theorem wordByte_mul2Word (w : BitVec 64) {j : Nat} (hj : j < 8) :
    wordByte (mul2Word w) j = vdevRaidzMul2 (wordByte w j) := by
  have hconst : ∀ k < 8, wordByte 0x1d1d1d1d1d1d1d1d#64 k = 0x1d#8 := by decide
  rw [mul2Word, wordByte_xor, wordByte_shiftLeft_mask w hj, wordByte_and,
    wordByte_highBytes w hj, hconst j hj, vdevRaidzMul2]
  split_ifs <;> rfl

/-! ## The source's parity routines

    A stripe maps column numbers to the bytes of `rc_data`.  The columns have buffers of their
    own, and no loop reads the column it writes, except through the word it is at. -/

abbrev Stripe := Nat → Buf

def vdevRaidzP : Nat := 0
def vdevRaidzQ : Nat := 1

/-- Words in column `c`. -/
def colWords (rm : RaidzMap) (c : Nat) : Nat := (rm.rmCol c).rcSize / 8

/-- `*dst = *src`, `*dst ^= *src` and the Horner step `*dst = 2 * *dst ^ *src`. -/
def copyWord (src : Buf) (i : Nat) (_ : BitVec 64) : BitVec 64 := ldWord src i
def xorWord (src : Buf) (i : Nat) (w : BitVec 64) : BitVec 64 := w ^^^ ldWord src i
def hornerWord (src : Buf) (i : Nat) (w : BitVec 64) : BitVec 64 := mul2Word w ^^^ ldWord src i

def vdevRaidzGenerateParityP (rm : RaidzMap) (d : Stripe) : Stripe :=
  update d vdevRaidzP (forRange rm.rmFirstdatacol rm.rmCols (fun c p =>
      let ccount := colWords rm c
      if c = rm.rmFirstdatacol then forWords 0 ccount (copyWord (d c)) p
      else forWords 0 ccount (xorWord (d c)) p) (d vdevRaidzP))

/-- The P half of `vdev_raidz_generate_parity_pq`. -/
def generatePqP (rm : RaidzMap) (d : Stripe) : Buf :=
  let pcount := colWords rm vdevRaidzP
  forRange rm.rmFirstdatacol rm.rmCols (fun c p =>
    let ccount := colWords rm c
    if c = rm.rmFirstdatacol then
      forWords ccount pcount (fun _ _ => 0#64) (forWords 0 ccount (copyWord (d c)) p)
    else forWords 0 ccount (xorWord (d c)) p) (d vdevRaidzP)

/-- One pass of the Horner loops shared by parity generation and Q
    reconstruction: fold column `src` of `count` words into `total` words. -/
def hornerCol (first : Bool) (src : Buf) (count total : Nat) (dst : Buf) : Buf :=
  if first then
    forWords count total (fun _ _ => 0#64) (forWords 0 count (copyWord src) dst)
  else
    -- treat short columns as though they are full of 0s
    forWords count total (fun _ w => mul2Word w) (forWords 0 count (hornerWord src) dst)

/-- The Q half of `vdev_raidz_generate_parity_pq`. -/
def generatePqQ (rm : RaidzMap) (d : Stripe) : Buf :=
  forRange rm.rmFirstdatacol rm.rmCols (fun c q =>
    hornerCol (c = rm.rmFirstdatacol) (d c) (colWords rm c) (colWords rm vdevRaidzP) q)
    (d vdevRaidzQ)

def vdevRaidzGenerateParityPq (rm : RaidzMap) (d : Stripe) : Stripe :=
  update (update d vdevRaidzP (generatePqP rm d)) vdevRaidzQ (generatePqQ rm d)

def vdevRaidzReconstructP (rm : RaidzMap) (x : Nat) (d : Stripe) : Stripe :=
  let xcount := colWords rm x
  update d x (forRange rm.rmFirstdatacol rm.rmCols (fun c dst =>
      if c = x then dst
      else forWords 0 (min (colWords rm c) xcount) (xorWord (d c)) dst)
      (forWords 0 xcount (copyWord (d vdevRaidzP)) (d x)))

def vdevRaidzReconstructQ (rm : RaidzMap) (x : Nat) (d : Stripe) : Stripe :=
  let xcount := colWords rm x
  let dst := forRange rm.rmFirstdatacol rm.rmCols (fun c dst =>
    let ccount := if c = x then 0 else colWords rm c
    hornerCol (c = rm.rmFirstdatacol) (d c) (min ccount xcount) xcount dst) (d x)
  let exp := 255 - (rm.rmCols - 1 - x)
  update d x (forWords 0 xcount (fun i w =>
      mapWord (fun b => vdevRaidzExp2 b exp) (w ^^^ ldWord (d vdevRaidzQ) i)) dst)

/-- The map with columns `x` and `y` made to appear full of zeros. -/
def hideCols (rm : RaidzMap) (x y : Nat) : RaidzMap :=
  { rm with rmCol := fun c =>
      if c = x ∨ c = y then { rm.rmCol c with rcSize := 0 } else rm.rmCol c }

/-- `vdev_raidz_reconstruct_pq`; `pbuf` and `qbuf` are what the two freshly
    allocated parity buffers happen to contain. -/
def vdevRaidzReconstructPq (rm : RaidzMap) (x y : Nat) (pbuf qbuf : Buf) (d : Stripe) :
    Stripe :=
  let xsize := (rm.rmCol x).rcSize
  let ysize := (rm.rmCol y).rcSize
  let xy := vdevRaidzGenerateParityPq (hideCols rm x y)
    (update (update d vdevRaidzP pbuf) vdevRaidzQ qbuf)
  let p := d vdevRaidzP
  let q := d vdevRaidzQ
  let pxy := xy vdevRaidzP
  let qxy := xy vdevRaidzQ
  let a := vdevRaidzPow2 (255 + x - y)
  let b := vdevRaidzPow2 (255 - (rm.rmCols - 1 - x))
  let tmp := 255 - vdevRaidzLog2 (a ^^^ 1#8)
  let aexp := vdevRaidzLog2 (vdevRaidzExp2 a tmp)
  let bexp := vdevRaidzLog2 (vdevRaidzExp2 b tmp)
  let xd : Buf := fun i =>
    if i < xsize then vdevRaidzExp2 (p i ^^^ pxy i) aexp ^^^ vdevRaidzExp2 (q i ^^^ qxy i) bexp
    else d x i
  let yd : Buf := fun i =>
    if i < xsize ∧ i < ysize then p i ^^^ pxy i ^^^ xd i else d y i
  update (update d x xd) y yd

/-! ## One byte position through the loops -/

section Loops

variable {src dst : Buf} {k : Nat}

theorem forWords_copy (n : Nat) :
    forWords 0 n (copyWord src) dst k = if k / 8 < n then src k else dst k := by
  rw [forWords_bytewise (g := fun k _ => src k)]
  · simp only [zero_le, true_and]
  · intro i w j hj
    exact wordByte_ldWord src i hj

theorem forWords_xor (n : Nat) :
    forWords 0 n (xorWord src) dst k = if k / 8 < n then dst k ^^^ src k else dst k := by
  rw [forWords_bytewise (g := fun k b => b ^^^ src k)]
  · simp only [zero_le, true_and]
  · intro i w j hj
    rw [xorWord, wordByte_xor, wordByte_ldWord src i hj]

theorem forWords_horner (n : Nat) :
    forWords 0 n (hornerWord src) dst k
      = if k / 8 < n then vdevRaidzMul2 (dst k) ^^^ src k else dst k := by
  rw [forWords_bytewise (g := fun k b => vdevRaidzMul2 b ^^^ src k)]
  · simp only [zero_le, true_and]
  · intro i w j hj
    rw [hornerWord, wordByte_xor, wordByte_ldWord src i hj, wordByte_mul2Word w hj]

theorem forWords_zero (lo hi : Nat) :
    forWords lo hi (fun _ _ => 0#64) dst k
      = if lo ≤ k / 8 ∧ k / 8 < hi then 0#8 else dst k := by
  rw [forWords_bytewise (g := fun _ _ => 0#8)]
  intro i w j _
  exact wordByte_zero j

theorem forWords_mul2 (lo hi : Nat) :
    forWords lo hi (fun _ w => mul2Word w) dst k
      = if lo ≤ k / 8 ∧ k / 8 < hi then vdevRaidzMul2 (dst k) else dst k := by
  rw [forWords_bytewise (g := fun _ b => vdevRaidzMul2 b)]
  intro i w j hj
  exact wordByte_mul2Word w hj

theorem hornerCol_byte {first : Bool} {count total : Nat} (hk : k / 8 < total) :
    hornerCol first src count total dst k
      = (if first then 0#8 else vdevRaidzMul2 (dst k))
        ^^^ (if k / 8 < count then src k else 0#8) := by
  cases first with
  | true =>
    show forWords count total (fun _ _ => 0#64) (forWords 0 count (copyWord src) dst) k = _
    rw [forWords_zero, forWords_copy]
    by_cases hc : k / 8 < count
    · rw [if_neg (fun h => absurd h.1 (not_le.mpr hc)), if_pos hc, if_pos hc,
        if_pos rfl, BitVec.zero_xor]
    · rw [if_pos ⟨not_lt.mp hc, hk⟩, if_neg hc, if_pos rfl, BitVec.xor_zero]
  | false =>
    show forWords count total (fun _ w => mul2Word w) (forWords 0 count (hornerWord src) dst) k = _
    rw [forWords_mul2, forWords_horner]
    by_cases hc : k / 8 < count
    · rw [if_neg (fun h => absurd h.1 (not_le.mpr hc)), if_pos hc, if_pos hc,
        if_neg Bool.false_ne_true]
    · rw [if_pos ⟨not_lt.mp hc, hk⟩, if_neg hc, if_neg hc, if_neg Bool.false_ne_true,
        BitVec.xor_zero]

end Loops

section Columns

variable {f n k : Nat} {body : Nat → Buf → Buf} {t : Nat → Byte} {dst : Buf}

theorem forRange_xor (hfn : f ≤ n) (hbody : ∀ c p, f ≤ c → c < n → body c p k = p k ^^^ t c) :
    of (forRange f n body dst k) = of (dst k) + ∑ c ∈ Ico f n, of (t c) := by
  refine forRange_inv hfn (fun c (p : Buf) => of (p k) = of (dst k) + ∑ c ∈ Ico f c, of (t c)) ?_ ?_
  · rw [Ico_self, sum_empty, add_zero]
  · intro c p hlo hhi hinv
    rw [hbody c p hlo hhi, Gf256.of_xor, hinv, sum_Ico_succ_top hlo, ← add_assoc]

theorem forRange_xor_fresh (hfn : f < n) (hfirst : ∀ p, body f p k = t f)
    (hbody : ∀ c p, f < c → c < n → body c p k = p k ^^^ t c) :
    of (forRange f n body dst k) = ∑ c ∈ Ico f n, of (t c) := by
  refine forRange_inv hfn.le
    (fun c (p : Buf) => f < c → of (p k) = ∑ c ∈ Ico f c, of (t c)) ?_ ?_ hfn
  · intro h
    exact absurd h (lt_irrefl f)
  intro c p hlo hhi hinv _
  rw [sum_Ico_succ_top hlo]
  rcases eq_or_lt_of_le hlo with rfl | hlt
  · rw [hfirst, Ico_self, sum_empty, zero_add]
  · rw [hbody c p hlt hhi, Gf256.of_xor, hinv hlt]

theorem forRange_horner {src : Nat → Buf} {count : Nat → Nat} {total : Nat} (hfn : f < n)
    (hk : k / 8 < total) :
    of (forRange f n (fun c q => hornerCol (c = f) (src c) (count c) total q) dst k)
      = gf.weighted (fun c => of (if k / 8 < count c then src c k else 0#8)) f n := by
  refine forRange_inv hfn.le (fun c (q : Buf) => f < c →
      of (q k) = gf.weighted (fun c => of (if k / 8 < count c then src c k else 0#8)) f c) ?_ ?_ hfn
  · intro h
    exact absurd h (lt_irrefl f)
  intro c q hlo hhi hinv _
  rw [hornerCol_byte hk, gf.weighted_succ _ hlo, Gf256.of_xor]
  rcases eq_or_lt_of_le hlo with rfl | hlt
  · rw [decide_eq_true rfl, if_pos rfl, Doubling.weighted, Ico_self,
      sum_empty, map_zero, Gf256.of_zero]
  · rw [decide_eq_false (ne_of_gt hlt), if_neg Bool.false_ne_true, Gf256.of_mul2, hinv hlt]

end Columns

/-- The shape of every map the allocator of columns produces: parity and the first data column are
    the longest, sizes never grow, and everything is a positive number of words. -/
structure Shaped (rm : RaidzMap) : Prop where
  parity : 0 < rm.rmFirstdatacol
  data : rm.rmFirstdatacol < rm.rmCols
  words : ∀ c, 8 ∣ (rm.rmCol c).rcSize
  top : ∀ c ≤ rm.rmFirstdatacol, (rm.rmCol c).rcSize = (rm.rmCol vdevRaidzP).rcSize
  anti : ∀ c c', c ≤ c' → (rm.rmCol c').rcSize ≤ (rm.rmCol c).rcSize
  pos : ∀ c < rm.rmCols, 0 < (rm.rmCol c).rcSize

abbrev OneOrTwo (rm : RaidzMap) : Prop := rm.rmFirstdatacol = 1 ∨ rm.rmFirstdatacol = 2

theorem vdevRaidzMapAlloc_shaped {unitShift dcols nparity : Nat} {zio : Zio}
    (h : UnitAligned unitShift zio) (hu : 3 ≤ unitShift) (hp : 0 < nparity)
    (hw : nparity < dcols) : Shaped (vdevRaidzMapAlloc zio unitShift dcols nparity) := by
  have g := geometry_of_units hp hw h.units.2.2
  refine ⟨hp, g.parity_lt_cols, ?_, ?_, ?_, ?_⟩
  · intro c
    rw [rmCol_size, colSize_eq]
    exact Dvd.dvd.mul_left (pow_dvd_pow 2 hu) _
  · intro c hc
    have hc' : c ≤ nparity := hc
    rw [rmCol_size, rmCol_size, colSize_eq, colSize_eq]
    simp only [g.big_iff_of_le_parity hc', g.big_iff_of_le_parity (zero_le _), vdevRaidzP]
  · intro c c' hcc
    rw [rmCol_size, rmCol_size, colSize_eq, colSize_eq]
    refine mul_le_mul_right _ ?_
    split_ifs <;> omega
  · intro c hc
    rw [rmCol_size, colSize_eq]
    refine mul_pos ?_ (Nat.two_pow_pos _)
    -- a map of one short row consists of big columns only
    have hcols := g.cols
    have hc' : c < mapAcols (zio.ioSize >>> unitShift) dcols nparity := hc
    split_ifs at hcols ⊢ <;> omega

theorem word_lt_iff {n : Nat} (h : 8 ∣ n) (k : Nat) : k / 8 < n / 8 ↔ k < n := by
  obtain ⟨m, rfl⟩ := h
  rw [Nat.mul_div_cancel_left m (by decide), Nat.div_lt_iff_lt_mul (by decide), Nat.mul_comm]

/-- Byte `k` of column `c`, zero past the column's end. -/
def dataByte (rm : RaidzMap) (d : Stripe) (c k : Nat) : Byte :=
  if k < (rm.rmCol c).rcSize then d c k else 0#8

/-- P and Q at byte `k`, as sums over the data columns. -/
def pSum (rm : RaidzMap) (d : Stripe) (k : Nat) : Gf256 :=
  ∑ c ∈ Ico rm.rmFirstdatacol rm.rmCols, of (dataByte rm d c k)

def qSum (rm : RaidzMap) (d : Stripe) (k : Nat) : Gf256 :=
  gf.weighted (fun c => of (dataByte rm d c k)) rm.rmFirstdatacol rm.rmCols

/-- `vdev_raidz_io_start` generates P or P and Q, by the number of parity columns. -/
def vdevRaidzGenerateParity (rm : RaidzMap) (d : Stripe) : Stripe :=
  if rm.rmFirstdatacol = 1 then vdevRaidzGenerateParityP rm d
  else vdevRaidzGenerateParityPq rm d

section Generate

variable {rm : RaidzMap} {d : Stripe} {k : Nat} (hk : k < (rm.rmCol vdevRaidzP).rcSize)

include hk

theorem generatePqQ_byte (hdata : rm.rmFirstdatacol < rm.rmCols)
    (hwords : ∀ c, 8 ∣ (rm.rmCol c).rcSize) : of (generatePqQ rm d k) = qSum rm d k := by
  have hk' : k / 8 < colWords rm vdevRaidzP := (word_lt_iff (hwords _) k).mpr hk
  rw [generatePqQ, forRange_horner hdata hk']
  congr 1
  funext c
  simp only [colWords, word_lt_iff (hwords c), dataByte]

omit hk in
theorem forWords_xor_data (hwords : ∀ c, 8 ∣ (rm.rmCol c).rcSize) (c : Nat) (p : Buf) :
    forWords 0 (colWords rm c) (xorWord (d c)) p k = p k ^^^ dataByte rm d c k := by
  rw [forWords_xor]
  simp only [colWords, word_lt_iff (hwords c), dataByte]
  split_ifs
  · rfl
  · exact BitVec.xor_zero.symm

theorem generatePqP_byte (hdata : rm.rmFirstdatacol < rm.rmCols)
    (hwords : ∀ c, 8 ∣ (rm.rmCol c).rcSize) : of (generatePqP rm d k) = pSum rm d k := by
  have hk' : k / 8 < colWords rm vdevRaidzP := (word_lt_iff (hwords _) k).mpr hk
  refine forRange_xor_fresh hdata ?_ ?_
  · intro p
    rw [if_pos rfl]
    -- the first column is copied as the Horner loop copies it
    show hornerCol true _ _ _ _ _ = _
    rw [hornerCol_byte hk', if_pos rfl, BitVec.zero_xor]
    simp only [colWords, word_lt_iff (hwords _), dataByte]
  · intro c p hlt _
    rw [if_neg (ne_of_gt hlt)]
    exact forWords_xor_data hwords c p

theorem generateP_byte (hs : Shaped rm) :
    of (vdevRaidzGenerateParityP rm d vdevRaidzP k) = pSum rm d k := by
  refine forRange_xor_fresh hs.data ?_ ?_
  · intro p
    rw [if_pos rfl]
    rw [forWords_copy]
    simp only [colWords, word_lt_iff (hs.words _), dataByte, hs.top _ (le_refl _)]
    rw [if_pos hk, if_pos hk]
  · intro c p hlt _
    rw [if_neg (ne_of_gt hlt)]
    exact forWords_xor_data hs.words c p

/-- **P IS THE XOR** of the data columns, whichever routine generated it. -/
theorem generateParity_p (hs : Shaped rm) :
    of (vdevRaidzGenerateParity rm d vdevRaidzP k) = pSum rm d k := by
  rw [vdevRaidzGenerateParity]
  split_ifs
  · exact generateP_byte hk hs
  · exact generatePqP_byte hk hs.data hs.words

theorem generateParity_q (hs : Shaped rm) (hq : rm.rmFirstdatacol ≠ 1) :
    of (vdevRaidzGenerateParity rm d vdevRaidzQ k) = qSum rm d k := by
  rw [vdevRaidzGenerateParity, if_neg hq, vdevRaidzGenerateParityPq]
  exact generatePqQ_byte hk hs.data hs.words

omit hk in
theorem generateParity_data (hp : OneOrTwo rm) {c : Nat}
    (hc : rm.rmFirstdatacol ≤ c) : vdevRaidzGenerateParity rm d c = d c := by
  rw [vdevRaidzGenerateParity]
  rcases hp with h1 | h2
  · rw [if_pos h1, vdevRaidzGenerateParityP, update_of_ne]
    show c ≠ 0
    omega
  rw [if_neg (by omega), vdevRaidzGenerateParityPq, update_of_ne,
    update_of_ne]
  · show c ≠ 0
    omega
  · show c ≠ 1
    omega

end Generate

/-- `d'` still has what was written to every column outside `lost`; the lost
    columns hold anything. -/
def Survives (rm : RaidzMap) (g d' : Stripe) (lost : Finset Nat) : Prop :=
  ∀ c < rm.rmCols, c ∉ lost → ∀ k < (rm.rmCol c).rcSize, d' c k = g c k

section Reconstruct

variable {rm : RaidzMap} {d d' : Stripe} {lost : Finset Nat} {x y k : Nat}

section

variable (hsv : Survives rm (vdevRaidzGenerateParity rm d) d' lost)

include hsv

theorem dataByte_survivor (hp : OneOrTwo rm) {c : Nat}
    (hlo : rm.rmFirstdatacol ≤ c) (hhi : c < rm.rmCols) (hc : c ∉ lost) :
    dataByte rm d' c k = dataByte rm d c k := by
  rw [dataByte, dataByte]
  by_cases hk : k < (rm.rmCol c).rcSize
  · rw [if_pos hk, if_pos hk, hsv c hhi hc k hk, generateParity_data hp hlo]
  · rw [if_neg hk, if_neg hk]

variable (hs : Shaped rm)

include hs

theorem survivor_p (hc : vdevRaidzP ∉ lost)
    (hk : k < (rm.rmCol vdevRaidzP).rcSize) : of (d' vdevRaidzP k) = pSum rm d k := by
  rw [hsv vdevRaidzP (lt_trans hs.parity hs.data) hc k hk]
  exact generateParity_p hk hs

theorem survivor_q (hq : rm.rmFirstdatacol = 2) (hc : vdevRaidzQ ∉ lost)
    (hk : k < (rm.rmCol vdevRaidzP).rcSize) : of (d' vdevRaidzQ k) = qSum rm d k := by
  have hlt : vdevRaidzQ < rm.rmCols := by
    have := hs.data
    show 1 < rm.rmCols
    omega
  have hsz : (rm.rmCol vdevRaidzQ).rcSize = (rm.rmCol vdevRaidzP).rcSize :=
    hs.top _ (by rw [hq]; decide)
  rw [hsv _ hlt hc k (by rw [hsz]; exact hk)]
  exact generateParity_q hk hs (by omega)

omit hsv in
theorem word_lt_min_iff (hk : k < (rm.rmCol x).rcSize) {c : Nat} :
    k / 8 < min (colWords rm c) (colWords rm x) ↔ k < (rm.rmCol c).rcSize := by
  rw [lt_min_iff, colWords, colWords, word_lt_iff (hs.words c), word_lt_iff (hs.words x)]
  exact ⟨fun h => h.1, fun h => ⟨h, hk⟩⟩

omit hsv in
/-- What `vdev_raidz_reconstruct_p` computes, whatever the columns hold. -/
theorem reconstructP_sum (hk : k < (rm.rmCol x).rcSize) :
    of (vdevRaidzReconstructP rm x d' x k) = of (d' vdevRaidzP k)
      + ∑ c ∈ Ico rm.rmFirstdatacol rm.rmCols, if c = x then 0 else of (dataByte rm d' c k) := by
  rw [vdevRaidzReconstructP, update_self,
    forRange_xor (t := fun c => if c = x then 0#8 else dataByte rm d' c k) hs.data.le]
  · rw [forWords_copy, colWords, if_pos ((word_lt_iff (hs.words x) k).mpr hk)]
    simp only [apply_ite of, Gf256.of_zero]
  intro c p _ _
  by_cases hcx : c = x
  · rw [if_pos hcx, if_pos hcx, BitVec.xor_zero]
  rw [if_neg hcx, if_neg hcx, forWords_xor, dataByte]
  simp only [word_lt_min_iff hs hk]
  split_ifs
  · rfl
  · exact BitVec.xor_zero.symm

section

variable (hlo : rm.rmFirstdatacol ≤ x) (hhi : x < rm.rmCols) (hP : vdevRaidzP ∉ lost)
  (hk : k < (rm.rmCol x).rcSize)

include hlo hhi hP hk

/-- The errors of the other data columns go into the column that P rebuilds. -/
theorem reconstructP_error : of (vdevRaidzReconstructP rm x d' x k) = of (d x k)
    + ∑ c ∈ (Ico rm.rmFirstdatacol rm.rmCols).erase x,
        (of (dataByte rm d c k) + of (dataByte rm d' c k)) := by
  have hk0 : k < (rm.rmCol vdevRaidzP).rcSize := lt_of_lt_of_le hk (hs.anti _ _ (zero_le _))
  rw [reconstructP_sum hs hk, survivor_p hsv hs hP hk0, pSum, ← sum_add_distrib,
    ← add_sum_erase _ _ (mem_Ico.mpr ⟨hlo, hhi⟩), if_pos rfl, add_zero, dataByte, if_pos hk]
  refine congrArg _ (sum_congr rfl fun c hc => ?_)
  rw [if_neg (ne_of_mem_erase hc)]

variable (hp : OneOrTwo rm)

include hp

/-- **ONE COLUMN FROM P**, when P and the other data columns survive. -/
theorem reconstructP_byte (hlost : ∀ c ∈ lost, rm.rmFirstdatacol ≤ c → c = x) :
    vdevRaidzReconstructP rm x d' x k = d x k := by
  refine Gf256.of_inj ?_
  rw [reconstructP_error hsv hs hlo hhi hP hk, sum_eq_zero, add_zero]
  intro c hc
  obtain ⟨hcx, hc⟩ := mem_erase.mp hc
  obtain ⟨hclo, hchi⟩ := mem_Ico.mp hc
  rw [dataByte_survivor hsv hp hclo hchi fun h => hcx (hlost c h hclo), gf.char_two]

/-- When a second data column is wrong, its error goes into the first. -/
theorem reconstructP_add (hylo : rm.rmFirstdatacol ≤ y) (hyhi : y < rm.rmCols) (hne : x ≠ y)
    (hlost : ∀ c ∈ lost, rm.rmFirstdatacol ≤ c → c = x ∨ c = y) :
    of (vdevRaidzReconstructP rm x d' x k)
      = of (d x k) + (of (dataByte rm d y k) + of (dataByte rm d' y k)) := by
  have hy : y ∈ (Ico rm.rmFirstdatacol rm.rmCols).erase x :=
    mem_erase.mpr ⟨hne.symm, mem_Ico.mpr ⟨hylo, hyhi⟩⟩
  rw [reconstructP_error hsv hs hlo hhi hP hk, sum_eq_single_of_mem y hy]
  intro c hc hcy
  obtain ⟨hcx, hc⟩ := mem_erase.mp hc
  obtain ⟨hclo, hchi⟩ := mem_Ico.mp hc
  rw [dataByte_survivor hsv hp hclo hchi fun h => (hlost c h hclo).elim hcx hcy, gf.char_two]

end

/-- **ONE COLUMN FROM Q**, when Q and the other data columns survive. -/
theorem reconstructQ_byte (hq : rm.rmFirstdatacol = 2)
    (hcols : rm.rmCols - rm.rmFirstdatacol ≤ 256) (hlo : rm.rmFirstdatacol ≤ x)
    (hhi : x < rm.rmCols)
    (hQ : vdevRaidzQ ∉ lost) (hlost : ∀ c ∈ lost, rm.rmFirstdatacol ≤ c → c = x)
    (hk : k < (rm.rmCol x).rcSize) : vdevRaidzReconstructQ rm x d' x k = d x k := by
  have hk0 : k < (rm.rmCol vdevRaidzP).rcSize := lt_of_lt_of_le hk (hs.anti _ _ (zero_le _))
  have hkx : k / 8 < colWords rm x := (word_lt_iff (hs.words x) k).mpr hk
  rw [vdevRaidzReconstructQ, update_self]
  refine Gf256.of_inj ?_
  rw [forWords_bytewise (g := fun k b =>
    vdevRaidzExp2 (b ^^^ d' vdevRaidzQ k) (255 - (rm.rmCols - 1 - x)))]
  · rw [if_pos ⟨zero_le _, hkx⟩, Gf256.of_exp2 (by omega), Gf256.of_xor,
      survivor_q hsv hs hq hQ hk0, forRange_horner hs.data hkx]
    -- the Horner sum over the survivors hides column x
    have hterm : ∀ c, rm.rmFirstdatacol ≤ c → c < rm.rmCols →
        of (if k / 8 < min (if c = x then 0 else colWords rm c) (colWords rm x) then d' c k
          else 0#8) = if c ∈ ({x} : Finset Nat) then 0 else of (dataByte rm d c k) := by
      intro c hclo hchi
      by_cases hcx : c = x
      · rw [if_pos hcx, if_pos (mem_singleton.mpr hcx), zero_min,
          if_neg (not_lt_zero _), Gf256.of_zero]
      · rw [if_neg hcx, if_neg (fun h => hcx (mem_singleton.mp h)),
          ← dataByte_survivor hsv (.inr hq) hclo hchi (fun h => hcx (hlost c h hclo)), dataByte]
        simp only [word_lt_min_iff hs hk]
    rw [gf.weighted_congr hterm, add_comm, qSum, gf.weighted_add_weighted_hide _
        (singleton_subset_iff.mpr (mem_Ico.mpr ⟨hlo, hhi⟩)),
      sum_singleton, gf.solve_one, dataByte, if_pos hk]
    show (255 - (rm.rmCols - 1 - x) + (rm.rmCols - 1 - x)) % 255 = 0 % 255
    omega
  · intro i w j hj
    rw [wordByte_mapWord _ _ hj, wordByte_xor, wordByte_ldWord _ _ hj]

end

theorem vdevRaidzPow2_ne_one {i : Nat} (hi : i < 255) (hpos : 0 < i) : vdevRaidzPow2 i ≠ 1#8 := by
  have hlen := vdevRaidzPow2Table_length
  have hout : 1#8 ∉ (vdevRaidzPow2Table.take 255).tail := by decide +kernel
  intro h
  refine hout (List.mem_of_getElem? (i := i - 1) ?_)
  rw [List.getElem?_tail, Nat.sub_add_cancel hpos, List.getElem?_take, if_pos hi]
  rw [vdevRaidzPow2, List.getD_eq_getElem?_getD, List.getElem?_eq_getElem (by omega)] at h
  rw [List.getElem?_eq_getElem (by omega)]
  exact congrArg some h

theorem pow_log2_exp2 {i t : Nat} (hi : i ≤ 255) (ht : t ≤ 255) :
    gf.pow (vdevRaidzLog2 (vdevRaidzExp2 (vdevRaidzPow2 i) t)) gf.one
      = gf.pow (i + t) gf.one := by
  have h : of (vdevRaidzExp2 (vdevRaidzPow2 i) t) = gf.pow (i + t) gf.one := by
    rw [Gf256.of_exp2 ht, Gf256.of_pow2 hi, ← gf.pow_add, add_comm]
  rw [← gf.pow_log_pow (i + t), ← h]
  rfl

/-- **TWO UNKNOWNS** at one byte, with the exponents of `reconstruct_pq`. -/
theorem solve_pq {n : Nat} (hxy : x < y) (hyn : y < n) (hn : n - 1 - x ≤ 255) (hd : y - x ≤ 254)
    (dx dy : Gf256) :
    gf.pow (vdevRaidzLog2 (vdevRaidzExp2 (vdevRaidzPow2 (255 + x - y))
        (255 - vdevRaidzLog2 (vdevRaidzPow2 (255 + x - y) ^^^ 1#8)))) (dx + dy)
      + gf.pow (vdevRaidzLog2 (vdevRaidzExp2 (vdevRaidzPow2 (255 - (n - 1 - x)))
        (255 - vdevRaidzLog2 (vdevRaidzPow2 (255 + x - y) ^^^ 1#8))))
        (gf.pow (n - 1 - x) dx + gf.pow (n - 1 - y) dy) = dx := by
  have hone : of (vdevRaidzPow2 (255 + x - y) ^^^ 1#8) = gf.pow (255 + x - y) gf.one + gf.one := by
    rw [Gf256.of_xor, Gf256.of_pow2 (by omega)]
    rfl
  have hne : vdevRaidzPow2 (255 + x - y) ^^^ 1#8 ≠ 0#8 := by
    intro h
    exact vdevRaidzPow2_ne_one (by omega) (by omega) (BitVec.xor_eq_zero_iff.mp h)
  have hlog := (vdevRaidzPow2_log2 hne).2
  refine gf.solve_two (k := 255 + x - y)
    (t := 255 - vdevRaidzLog2 (vdevRaidzPow2 (255 + x - y) ^^^ 1#8))
    (e := 255 - (n - 1 - x)) ?_ ?_ ?_ ?_ ?_ ?_ dx dy
  · rw [← hone]
    exact hne
  · rw [← hone]
    show (255 - vdevRaidzLog2 (vdevRaidzPow2 (255 + x - y) ^^^ 1#8)
      + vdevRaidzLog2 (vdevRaidzPow2 (255 + x - y) ^^^ 1#8)) % 255 = 0 % 255
    omega
  · show (255 - (n - 1 - x) + (n - 1 - x)) % 255 = 0 % 255
    omega
  · congr 1
    omega
  · exact pow_log2_exp2 (by omega) (by omega)
  · exact pow_log2_exp2 (by omega) (by omega)

theorem hideCols_size (c : Nat) :
    ((hideCols rm x y).rmCol c).rcSize
      = if c = x ∨ c = y then 0 else (rm.rmCol c).rcSize :=
  apply_ite RaidzCol.rcSize _ _ _

theorem mem_pair {c : Nat} : c ∈ ({x, y} : Finset Nat) ↔ c = x ∨ c = y := by
  rw [mem_insert, mem_singleton]

/-- The stripe that `reconstruct_pq` hands to parity generation: scratch
    buffers in place of P and Q. -/
def scratch (d : Stripe) (pbuf qbuf : Buf) : Stripe :=
  update (update d vdevRaidzP pbuf) vdevRaidzQ qbuf

section

variable (hsv : Survives rm (vdevRaidzGenerateParity rm d) d' lost)
  (hlost : ∀ c ∈ lost, rm.rmFirstdatacol ≤ c → c = x ∨ c = y) (hq : rm.rmFirstdatacol = 2)

include hsv hlost hq

theorem dataByte_hideCols {pbuf qbuf : Buf} {c : Nat}
    (hlo : rm.rmFirstdatacol ≤ c) (hhi : c < rm.rmCols) :
    of (dataByte (hideCols rm x y) (scratch d' pbuf qbuf) c k)
      = if c ∈ ({x, y} : Finset Nat) then 0 else of (dataByte rm d c k) := by
  by_cases hc : c = x ∨ c = y
  · rw [if_pos (mem_pair.mpr hc), dataByte, hideCols_size, if_pos hc,
      if_neg (not_lt_zero k), Gf256.of_zero]
  have hmem : c ∉ ({x, y} : Finset Nat) := fun h => hc (mem_pair.mp h)
  rw [if_neg hmem, ← dataByte_survivor hsv (.inr hq) hlo hhi (fun h => hc (hlost c h hlo)),
    dataByte, hideCols_size, if_neg hc, scratch, update_of_ne, update_of_ne, dataByte]
  · show c ≠ 0
    omega
  · show c ≠ 1
    omega

variable (hs : Shaped rm) (hlo : rm.rmFirstdatacol ≤ x) (hxy : x < y) (hhi : y < rm.rmCols)
  (hP : vdevRaidzP ∉ lost) (hQ : vdevRaidzQ ∉ lost) (pbuf qbuf : Buf)

include hs hlo hxy hhi hP hQ

theorem parity_add_hidden (hk : k < (rm.rmCol vdevRaidzP).rcSize) :
    of (d' vdevRaidzP k)
        + of (vdevRaidzGenerateParityPq (hideCols rm x y) (scratch d' pbuf qbuf) vdevRaidzP k)
      = of (dataByte rm d x k) + of (dataByte rm d y k)
    ∧ of (d' vdevRaidzQ k)
        + of (vdevRaidzGenerateParityPq (hideCols rm x y) (scratch d' pbuf qbuf) vdevRaidzQ k)
      = gf.pow (rm.rmCols - 1 - x) (of (dataByte rm d x k))
        + gf.pow (rm.rmCols - 1 - y) (of (dataByte rm d y k)) := by
  have hsub : ({x, y} : Finset Nat) ⊆ Ico rm.rmFirstdatacol rm.rmCols := by
    intro c hc
    rw [mem_Ico]
    rcases mem_pair.mp hc with rfl | rfl
    · exact ⟨hlo, lt_trans hxy hhi⟩
    · exact ⟨le_trans hlo hxy.le, hhi⟩
  have hne : ∀ c < 2, ¬ (c = x ∨ c = y) := by
    intro c hc
    omega
  have hdata : (hideCols rm x y).rmFirstdatacol < (hideCols rm x y).rmCols := hs.data
  have hwords : ∀ c, 8 ∣ ((hideCols rm x y).rmCol c).rcSize := by
    intro c
    rw [hideCols_size]
    split_ifs
    · exact dvd_zero 8
    · exact hs.words c
  have hk' : k < ((hideCols rm x y).rmCol vdevRaidzP).rcSize := by
    rw [hideCols_size, if_neg (hne _ (by decide))]
    exact hk
  constructor
  · have hpxy : pSum (hideCols rm x y) (scratch d' pbuf qbuf) k
        = ∑ c ∈ Ico rm.rmFirstdatacol rm.rmCols,
            if c ∈ ({x, y} : Finset Nat) then 0 else of (dataByte rm d c k) :=
      sum_congr rfl (fun c hc =>
        dataByte_hideCols hsv hlost hq (mem_Ico.mp hc).1 (mem_Ico.mp hc).2)
    rw [vdevRaidzGenerateParityPq, update_of_ne (by decide), update_self,
      generatePqP_byte hk' hdata hwords, hpxy, survivor_p hsv hs hP hk, pSum,
      gf.sum_add_sum_hide _ hsub, sum_pair (Nat.ne_of_lt hxy)]
  · have hqxy : qSum (hideCols rm x y) (scratch d' pbuf qbuf) k
        = gf.weighted (fun c => if c ∈ ({x, y} : Finset Nat) then 0
            else of (dataByte rm d c k)) rm.rmFirstdatacol rm.rmCols :=
      gf.weighted_congr (fun c hclo hchi => dataByte_hideCols hsv hlost hq hclo hchi)
    rw [vdevRaidzGenerateParityPq, update_self, generatePqQ_byte hk' hdata hwords, hqxy,
      survivor_q hsv hs hq hQ hk, qSum,
      gf.weighted_add_weighted_hide _ hsub, sum_pair (Nat.ne_of_lt hxy)]

/-- The second column follows from the first. -/
theorem reconstructPq_second
    (hx : ∀ k < (rm.rmCol x).rcSize, vdevRaidzReconstructPq rm x y pbuf qbuf d' x k = d x k) :
    ∀ k < (rm.rmCol y).rcSize, vdevRaidzReconstructPq rm x y pbuf qbuf d' y k = d y k := by
  intro k hk
  have hkx : k < (rm.rmCol x).rcSize := lt_of_lt_of_le hk (hs.anti _ _ hxy.le)
  have hk0 := lt_of_lt_of_le hkx (hs.anti _ _ (zero_le x))
  obtain ⟨hp, -⟩ := parity_add_hidden hsv hlost hq hs hlo hxy hhi hP hQ pbuf qbuf hk0
  have hxk := hx k hkx
  rw [vdevRaidzReconstructPq, update_of_ne (Nat.ne_of_lt hxy), update_self] at hxk
  rw [vdevRaidzReconstructPq, update_self, if_pos ⟨hkx, hk⟩]
  refine Gf256.of_inj ?_
  beta_reduce
  rw [hxk, Gf256.of_xor, Gf256.of_xor]
  rw [scratch] at hp
  rw [hp, dataByte, dataByte, if_pos hkx, if_pos hk, add_comm (of (d x k)), add_assoc,
    gf.char_two, add_zero]

/-- **TWO COLUMNS FROM P AND Q**, when both and the other data columns survive. -/
theorem reconstructPq_byte (hcols : rm.rmCols - rm.rmFirstdatacol ≤ 256) (hd : y - x ≤ 254) :
    (∀ k < (rm.rmCol x).rcSize, vdevRaidzReconstructPq rm x y pbuf qbuf d' x k = d x k)
      ∧ ∀ k < (rm.rmCol y).rcSize, vdevRaidzReconstructPq rm x y pbuf qbuf d' y k = d y k := by
  have hlog : ∀ a : Byte, vdevRaidzLog2 a ≤ 255 := fun a => Nat.le_of_lt_succ (BitVec.isLt _)
  have hx : ∀ k < (rm.rmCol x).rcSize, vdevRaidzReconstructPq rm x y pbuf qbuf d' x k = d x k := by
    intro k hk
    have hk0 := lt_of_lt_of_le hk (hs.anti _ _ (zero_le x))
    obtain ⟨hp, hq'⟩ := parity_add_hidden hsv hlost hq hs hlo hxy hhi hP hQ pbuf qbuf hk0
    rw [vdevRaidzReconstructPq, update_of_ne (Nat.ne_of_lt hxy), update_self, if_pos hk]
    refine Gf256.of_inj ?_
    rw [Gf256.of_xor, Gf256.of_exp2 (hlog _), Gf256.of_exp2 (hlog _), Gf256.of_xor, Gf256.of_xor]
    rw [scratch] at hp hq'
    rw [hp, hq', solve_pq hxy hhi (by omega) hd, dataByte, if_pos hk]
  exact ⟨hx, reconstructPq_second hsv hlost hq hs hlo hxy hhi hP hQ pbuf qbuf hx⟩

end

theorem reconstruct_frame (rm : RaidzMap) (d : Stripe) {c : Nat} :
    (c ≠ x → vdevRaidzReconstructP rm x d c = d c)
      ∧ (c ≠ x → vdevRaidzReconstructQ rm x d c = d c)
      ∧ ∀ pbuf qbuf, c ≠ x → c ≠ y → vdevRaidzReconstructPq rm x y pbuf qbuf d c = d c := by
  refine ⟨fun h => update_of_ne h _ _, fun h => update_of_ne h _ _, ?_⟩
  intro pbuf qbuf hx hy
  rw [vdevRaidzReconstructPq, update_of_ne hy, update_of_ne hx]

/-- Every byte of column `c` is what it was. -/
def Restored (rm : RaidzMap) (d d' : Stripe) (c : Nat) : Prop :=
  ∀ k < (rm.rmCol c).rcSize, d' c k = d c k

/-- **RAID-Z ERASURE RECOVERY.**  Lay out any aligned I/O over any children (at most 255 data
    columns), generate parity for any contents, and destroy what parity can cover, leaving anything
    at all in the lost buffers: P restores one data column, with Q lost or not, Q restores one, with
    P lost or not, P and Q restore two.  A unit is at least a word; `vdev_ashift` is never
    below 9. -/
theorem raidz_erasure_recovery (zio : Zio) (unitShift dcols nparity : Nat)
    (hz : UnitAligned unitShift zio) (hu : 3 ≤ unitShift) (hp : nparity = 1 ∨ nparity = 2)
    (hw : nparity < dcols)
    (hcols : (vdevRaidzMapAlloc zio unitShift dcols nparity).rmCols - nparity ≤ 255)
    (d d' : Stripe) :
    let rm := vdevRaidzMapAlloc zio unitShift dcols nparity
    let g := vdevRaidzGenerateParity rm d
    (∀ lost x, nparity ≤ x → x < rm.rmCols → vdevRaidzP ∉ lost →
      (∀ c ∈ lost, nparity ≤ c → c = x) → Survives rm g d' lost →
      Restored rm d (vdevRaidzReconstructP rm x d') x)
    ∧ (nparity = 2 → ∀ lost x, nparity ≤ x → x < rm.rmCols → vdevRaidzQ ∉ lost →
      (∀ c ∈ lost, nparity ≤ c → c = x) → Survives rm g d' lost →
      Restored rm d (vdevRaidzReconstructQ rm x d') x)
    ∧ (nparity = 2 → ∀ x y pbuf qbuf, nparity ≤ x → x < y → y < rm.rmCols →
      Survives rm g d' {x, y} →
      Restored rm d (vdevRaidzReconstructPq rm x y pbuf qbuf d') x
        ∧ Restored rm d (vdevRaidzReconstructPq rm x y pbuf qbuf d') y) := by
  intro rm g
  have hs : Shaped rm := vdevRaidzMapAlloc_shaped hz hu (by omega) hw
  have hf : rm.rmFirstdatacol = nparity := rfl
  have hcols' : rm.rmCols - rm.rmFirstdatacol ≤ 255 := hcols
  have hpar : ∀ {c x : Nat}, c < nparity → nparity ≤ x → c ≠ x := by
    intro c x hc hx
    omega
  refine ⟨?_, ?_, ?_⟩
  · intro lost x hlo hhi hP hlost hsv k hk
    exact reconstructP_byte hsv hs hlo hhi hP hk hp hlost
  · intro h2 lost x hlo hhi hQ hlost hsv k hk
    exact reconstructQ_byte hsv hs h2 (le_succ_of_le hcols') hlo hhi hQ hlost hk
  intro h2 x y pbuf qbuf hlo hxy hhi hsv
  have hy : nparity ≤ y := le_trans hlo hxy.le
  refine reconstructPq_byte hsv (fun c hc _ => mem_pair.mp hc) h2 hs hlo hxy hhi ?_ ?_ pbuf qbuf
    (le_succ_of_le hcols') (by omega)
  · rw [mem_pair, not_or]
    exact ⟨hpar hs.parity hlo, hpar hs.parity hy⟩
  · rw [mem_pair, not_or]
    exact ⟨hpar (by rw [h2]; decide) hlo, hpar (by rw [h2]; decide) hy⟩

/-- A double-parity stripe of three data columns on five children: columns 2 and
    4 are overwritten with `0xff` and come back. -/
theorem raidz_erasure_recovery_five_wide :
    Restored (vdevRaidzMapAlloc ⟨0, 1536⟩ 9 5 2) (fun c k => BitVec.ofNat 8 (c * 7 + k))
      (vdevRaidzReconstructPq (vdevRaidzMapAlloc ⟨0, 1536⟩ 9 5 2) 2 4 (fun _ => 1) (fun _ => 2)
        (update (update (vdevRaidzGenerateParity
          (vdevRaidzMapAlloc ⟨0, 1536⟩ 9 5 2) (fun c k => BitVec.ofNat 8 (c * 7 + k)))
          2 (fun _ => 0xff)) 4 (fun _ => 0xff))) 4 := by
  refine ((raidz_erasure_recovery ⟨0, 1536⟩ 9 5 2 ⟨by decide, by decide, by decide⟩ (by decide)
    (.inr rfl) (by decide) (by decide) _ _).2.2 rfl 2 4 _ _ (by decide) (by decide)
    (by decide) ?_).2
  intro c _ hc k _
  rw [mem_pair, not_or] at hc
  rw [update_of_ne hc.2, update_of_ne hc.1]

end Reconstruct

end Sirius.Raidz
