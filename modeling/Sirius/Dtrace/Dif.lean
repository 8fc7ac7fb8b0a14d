import Mathlib.Data.BitVec
import Mathlib.Tactic.Linarith

/-! # D Intermediate Format (`sys/dtrace.h`)

    A DIF instruction is a 32-bit word: an opcode and three byte fields, some read together as
    a label, a variable, a table index or a subroutine.  A DIF object is its text with tables
    of integers, strings and variables; the variables of all objects live in a
    `dtrace_vstate_t`. -/

namespace Sirius.Dtrace.Dif

open Nat

/-- `dif_instr_t`. -/
abbrev Instr := BitVec 32

/-- `DIF_INSTR_OP`. -/
def instrOp (i : Instr) : ℕ := ((i >>> 24) &&& 0xff).toNat

/-- `DIF_INSTR_R1`. -/
def instrR1 (i : Instr) : ℕ := ((i >>> 16) &&& 0xff).toNat

/-- `DIF_INSTR_R2`. -/
def instrR2 (i : Instr) : ℕ := ((i >>> 8) &&& 0xff).toNat

/-- `DIF_INSTR_RD`. -/
def instrRd (i : Instr) : ℕ := (i &&& 0xff).toNat

/-- `DIF_INSTR_RS`. -/
def instrRs (i : Instr) : ℕ := (i &&& 0xff).toNat

/-- `DIF_INSTR_LABEL`. -/
def instrLabel (i : Instr) : ℕ := (i &&& 0xffffff).toNat

/-- `DIF_INSTR_VAR`. -/
def instrVar (i : Instr) : ℕ := ((i >>> 8) &&& 0xffff).toNat

/-- `DIF_INSTR_INTEGER`. -/
def instrInteger (i : Instr) : ℕ := ((i >>> 8) &&& 0xffff).toNat

/-- `DIF_INSTR_STRING`. -/
def instrString (i : Instr) : ℕ := ((i >>> 8) &&& 0xffff).toNat

/-- `DIF_INSTR_SUBR`. -/
def instrSubr (i : Instr) : ℕ := ((i >>> 8) &&& 0xffff).toNat

/-- `DIF_INSTR_TYPE`. -/
def instrType (i : Instr) : ℕ := ((i >>> 16) &&& 0xff).toNat

/-- `DIF_INSTR_FMT`. -/
def instrFmt (op r1 r2 d : ℕ) : Instr :=
  (BitVec.ofNat 32 op <<< 24) ||| (BitVec.ofNat 32 r1 <<< 16) |||
    (BitVec.ofNat 32 r2 <<< 8) ||| BitVec.ofNat 32 d

/-- `DIF_INSTR_LOAD`. -/
def instrLoad (op r1 d : ℕ) : Instr := instrFmt op r1 0 d

/-- `DIF_DIR_NREGS`: the integer registers. -/
def dirNregs : ℕ := 8

/-- `DIF_DTR_NREGS`: the tuple registers. -/
def dtrNregs : ℕ := 8

inductive Alu
  | or | xor | and | sll | srl | sra | sub | add | mul | sdiv | udiv | srem | urem
  deriving DecidableEq

inductive Cond
  | a | e | ne | g | gu | ge | geu | l | lu | le | leu
  deriving DecidableEq

inductive Load
  | sb | sh | sw | ub | uh | uw | x
  deriving DecidableEq

/-- Where a load may load from: the kernel (`LDx`), what the program may store to
    (`RLDx`), or the user's address space (`ULDx`). -/
inductive Space
  | kernel | restricted | user
  deriving DecidableEq

inductive Width
  | byte | half | word | xword
  deriving DecidableEq

/-- The opcodes `DIF_OP_*` that the emulator knows. -/
inductive Op
  | alu (f : Alu)
  | not | mov | cmp | tst
  | branch (c : Cond)
  | load (s : Space) (l : Load)
  | ret | nop | setx | sets | scmp
  | ldga | ldgs | stgs | ldta | ldts | stts
  | call | pushtr | pushtv | popts | flushts
  | ldgaa | ldtaa | stgaa | sttaa | ldls | stls
  | allocs | copys
  | store (w : Width)
  deriving DecidableEq

/-- The opcode of each number; `DIF_OP_XLATE` and `DIF_OP_XLARG` never reach the kernel. -/
def Op.decode : ℕ → Option Op
  | 1 => some (.alu .or)
  | 2 => some (.alu .xor)
  | 3 => some (.alu .and)
  | 4 => some (.alu .sll)
  | 5 => some (.alu .srl)
  | 6 => some (.alu .sub)
  | 7 => some (.alu .add)
  | 8 => some (.alu .mul)
  | 9 => some (.alu .sdiv)
  | 10 => some (.alu .udiv)
  | 11 => some (.alu .srem)
  | 12 => some (.alu .urem)
  | 13 => some .not
  | 14 => some .mov
  | 15 => some .cmp
  | 16 => some .tst
  | 17 => some (.branch .a)
  | 18 => some (.branch .e)
  | 19 => some (.branch .ne)
  | 20 => some (.branch .g)
  | 21 => some (.branch .gu)
  | 22 => some (.branch .ge)
  | 23 => some (.branch .geu)
  | 24 => some (.branch .l)
  | 25 => some (.branch .lu)
  | 26 => some (.branch .le)
  | 27 => some (.branch .leu)
  | 28 => some (.load .kernel .sb)
  | 29 => some (.load .kernel .sh)
  | 30 => some (.load .kernel .sw)
  | 31 => some (.load .kernel .ub)
  | 32 => some (.load .kernel .uh)
  | 33 => some (.load .kernel .uw)
  | 34 => some (.load .kernel .x)
  | 35 => some .ret
  | 36 => some .nop
  | 37 => some .setx
  | 38 => some .sets
  | 39 => some .scmp
  | 40 => some .ldga
  | 41 => some .ldgs
  | 42 => some .stgs
  | 43 => some .ldta
  | 44 => some .ldts
  | 45 => some .stts
  | 46 => some (.alu .sra)
  | 47 => some .call
  | 48 => some .pushtr
  | 49 => some .pushtv
  | 50 => some .popts
  | 51 => some .flushts
  | 52 => some .ldgaa
  | 53 => some .ldtaa
  | 54 => some .stgaa
  | 55 => some .sttaa
  | 56 => some .ldls
  | 57 => some .stls
  | 58 => some .allocs
  | 59 => some .copys
  | 60 => some (.store .byte)
  | 61 => some (.store .half)
  | 62 => some (.store .word)
  | 63 => some (.store .xword)
  | 64 => some (.load .user .sb)
  | 65 => some (.load .user .sh)
  | 66 => some (.load .user .sw)
  | 67 => some (.load .user .ub)
  | 68 => some (.load .user .uh)
  | 69 => some (.load .user .uw)
  | 70 => some (.load .user .x)
  | 71 => some (.load .restricted .sb)
  | 72 => some (.load .restricted .sh)
  | 73 => some (.load .restricted .sw)
  | 74 => some (.load .restricted .ub)
  | 75 => some (.load .restricted .uh)
  | 76 => some (.load .restricted .uw)
  | 77 => some (.load .restricted .x)
  | _ => none

/-- `DIF_OP_LDSB`. -/
def opLdsb : ℕ := 28

/-- `DIF_OP_RLDSB`. -/
def opRldsb : ℕ := 71

/-- `DIF_OP_RET`. -/
def opRet : ℕ := 35

def opcode (i : Instr) : Option Op := Op.decode (instrOp i)

/-- `DIF_VAR_ARRAY_MAX`. -/
def varArrayMax : ℕ := 0xff

/-- `DIF_VAR_OTHER_MIN`: the lowest scalar or associative variable. -/
def varOtherMin : ℕ := 0x100

/-- `DIF_VAR_OTHER_UBASE`: the lowest user-defined one. -/
def varOtherUbase : ℕ := 0x500

/-- `DIF_VAR_OTHER_MAX`. -/
def varOtherMax : ℕ := 0xffff

/-- `DIF_VARIABLE_MAX`. -/
def variableMax : ℕ := 0xffff

/-- `DIF_SUBR_MAX`. -/
def subrMax : ℕ := 43

/-- `DIF_SUBR_COPYOUT`. -/
def subrCopyout : ℕ := 13

/-- `DIF_SUBR_COPYOUTSTR`. -/
def subrCopyoutstr : ℕ := 14

/-- `DIF_TYPE_CTF`. -/
def typeCtf : ℕ := 0

/-- `DIF_TYPE_STRING`. -/
def typeString : ℕ := 1

/-- `dtrace_diftype_t`. -/
structure DifType where
  kind : ℕ
  flags : BitVec 8
  size : ℕ
  deriving DecidableEq

/-- `dtdt_flags & DIF_TF_BYREF`. -/
def DifType.byref (t : DifType) : Bool := t.flags &&& 1 ≠ 0

/-- `DIFV_SCOPE_*`. -/
inductive Scope
  | global | thread | loc
  deriving DecidableEq

def Scope.decode : ℕ → Option Scope
  | 0 => some .global
  | 1 => some .thread
  | 2 => some .loc
  | _ => none

/-- `DIFV_KIND_ARRAY`. -/
def kindArray : ℕ := 0

/-- `DIFV_KIND_SCALAR`. -/
def kindScalar : ℕ := 1

/-- `dtrace_difv_t`. -/
structure Difv where
  id : ℕ
  kind : ℕ
  scope : ℕ
  type : DifType
  deriving DecidableEq

/-- `dtrace_difo_t`.  Of the string table only its place and length are used. -/
structure Difo where
  buf : List Instr
  inttab : List (BitVec 64)
  strtab : BitVec 64
  strlen : ℕ
  vartab : List Difv
  rtype : DifType
  destructive : Bool
  deriving DecidableEq

/-- `dtdo_len`. -/
def Difo.len (dp : Difo) : ℕ := dp.buf.length

/-- `dtrace_statvar_t`. -/
structure Statvar where
  data : BitVec 64
  size : ℕ
  refcnt : ℕ
  var : Difv
  deriving DecidableEq

/-- `dtrace_vstate_t`: the tables of variables. -/
structure Vstate where
  globals : List (Option Statvar)
  tlocals : List Difv
  locals : List (Option Statvar)
  deriving DecidableEq

theorem instrOp_eq (i : Instr) : instrOp i = i.toNat / 2 ^ 24 % 2 ^ 8 := by
  have h := and_two_pow_sub_one_eq_mod (i.toNat >>> 24) 8
  simpa [instrOp, shiftRight_eq_div_pow] using h

theorem instrR1_eq (i : Instr) : instrR1 i = i.toNat / 2 ^ 16 % 2 ^ 8 := by
  have h := and_two_pow_sub_one_eq_mod (i.toNat >>> 16) 8
  simpa [instrR1, shiftRight_eq_div_pow] using h

theorem instrR2_eq (i : Instr) : instrR2 i = i.toNat / 2 ^ 8 % 2 ^ 8 := by
  have h := and_two_pow_sub_one_eq_mod (i.toNat >>> 8) 8
  simpa [instrR2, shiftRight_eq_div_pow] using h

theorem instrRd_eq (i : Instr) : instrRd i = i.toNat % 2 ^ 8 := by
  have h := and_two_pow_sub_one_eq_mod i.toNat 8
  simpa [instrRd] using h

theorem toNat_instrFmt {op r1 r2 d : ℕ} (hop : op < 256) (h1 : r1 < 256) (h2 : r2 < 256)
    (hd : d < 256) : (instrFmt op r1 r2 d).toNat = op * 2 ^ 24 + r1 * 2 ^ 16 + r2 * 2 ^ 8 + d := by
  have e2 : r2 <<< 8 ||| d = r2 * 2 ^ 8 + d := by
    rw [← shiftLeft_add_eq_or_of_lt (by omega), shiftLeft_eq]
  have e1 : r1 <<< 16 ||| (r2 * 2 ^ 8 + d) = r1 * 2 ^ 16 + (r2 * 2 ^ 8 + d) := by
    rw [← shiftLeft_add_eq_or_of_lt (by omega), shiftLeft_eq]
  have e0 : op <<< 24 ||| (r1 * 2 ^ 16 + (r2 * 2 ^ 8 + d)) =
      op * 2 ^ 24 + (r1 * 2 ^ 16 + (r2 * 2 ^ 8 + d)) := by
    rw [← shiftLeft_add_eq_or_of_lt (by omega), shiftLeft_eq]
  have hs : ∀ a k, a < 256 → k ≤ 24 → (BitVec.ofNat 32 a <<< k).toNat = a <<< k := by
    intro a k ha hk
    have hpow : 2 ^ k ≤ 2 ^ 24 := Nat.pow_le_pow_right (by omega) hk
    have hlt : a * 2 ^ k < 2 ^ 32 := by nlinarith
    have hmod : a % 2 ^ 32 = a := mod_eq_of_lt (by omega)
    rw [BitVec.toNat_shiftLeft, BitVec.toNat_ofNat, hmod, shiftLeft_eq, mod_eq_of_lt hlt]
  rw [instrFmt, BitVec.toNat_or, BitVec.toNat_or, BitVec.toNat_or, hs op 24 hop le_rfl,
    hs r1 16 h1 (by omega), hs r2 8 h2 (by omega), BitVec.toNat_ofNat,
    Nat.mod_eq_of_lt (by omega), Nat.or_assoc, Nat.or_assoc, e2, e1, e0]
  omega

theorem fields_instrLoad {op r1 d : ℕ} (hop : op < 256) (h1 : r1 < 256) (hd : d < 256) :
    instrOp (instrLoad op r1 d) = op ∧ instrR1 (instrLoad op r1 d) = r1 ∧
      instrR2 (instrLoad op r1 d) = 0 ∧ instrRd (instrLoad op r1 d) = d := by
  have h := toNat_instrFmt hop h1 (show 0 < 256 by omega) hd
  rw [instrOp_eq, instrR1_eq, instrR2_eq, instrRd_eq, instrLoad]
  refine ⟨?_, ?_, ?_, ?_⟩ <;> omega

theorem instrR1_lt (i : Instr) : instrR1 i < 256 := by
  rw [instrR1_eq]
  exact mod_lt _ (by omega)

theorem instrRd_lt (i : Instr) : instrRd i < 256 := by
  rw [instrRd_eq]
  exact mod_lt _ (by omega)

theorem decode_restricted {n : ℕ} {l : Load} (h : Op.decode n = some (.load .kernel l)) :
    Op.decode (n + opRldsb - opLdsb) = some (.load .restricted l) ∧ n + opRldsb - opLdsb < 256 := by
  unfold Op.decode at h
  split at h <;> cases h <;> exact ⟨rfl, by decide⟩

end Sirius.Dtrace.Dif
