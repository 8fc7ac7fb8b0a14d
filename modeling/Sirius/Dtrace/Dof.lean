import Mathlib.Algebra.Group.Nat.Defs
import Sirius.Lib.Traced

/-! # Loading DOF (`dtrace.c`)

    DOF is a file image with a header, section headers and sections, given by the user.  Here
    is the part of the loader that reads it: `dtrace_dof_slurp` and all it calls.  An address
    is an offset from the start of the image, modulo the size of the address space; of the
    memory there only the first `dofh_loadsz` bytes are the image.  Every read and write
    leaves an `Access` behind.

    Words are little-endian, as on x86.  The repository is also built for big-endian machines,
    where the words of an image are big-endian too and `DOF_ID_ENCODING` is 2: what is read
    there has the same places and widths, and other values. -/

namespace Sirius.Dtrace.Dof

open Sirius.Lib

/-- The bytes of the address space, from the image on. -/
abbrev Memory : Type := ℕ → UInt8

/-- The function that makes an access. -/
inductive Routine
  | slurp | relocate | sect | probedesc | difo | actdesc | ecbdesc
  deriving DecidableEq

/-- A read, or a write, of `len` bytes. -/
structure Access where
  who : Routine
  addr : ℕ
  len : ℕ
  write : Bool
  deriving DecidableEq

/-- How loading ends early. -/
inductive Failure
  /-- `dtrace_dof_error`. -/
  | error (msg : String)
  /-- `dtrace_difo_validate` has complained. -/
  | invalidDifo
  deriving DecidableEq

/-- A computation that reads the image, may relocate it, and leaves its accesses behind. -/
abbrev Loader (α : Type) : Type := Traced Memory Access Failure α

/-- The value of `n` bytes. -/
def word (m : Memory) (a : ℕ) : ℕ → ℕ
  | 0 => 0
  | n + 1 => (m a).toNat + 256 * word m (a + 1) n

/-- The lowest `n` bytes of a value are put in memory. -/
def putWord (m : Memory) (a n v : ℕ) : Memory := fun x =>
  if a ≤ x ∧ x < a + n then UInt8.ofNat (v / 256 ^ (x - a)) else m x

/-- Addresses wrap. -/
def ptr (a : ℕ) : ℕ := a % 2 ^ 64

/-- A member of a struct: where it is and how wide. -/
structure Field where
  offset : ℕ
  width : ℕ

/-- `p->f`. -/
def load (who : Routine) (p : ℕ) (f : Field) : Loader ℕ :=
  Traced.emit (fun _ => ⟨who, ptr (p + f.offset), f.width, false⟩)
    fun m => word m (ptr (p + f.offset)) f.width

/-- `bcopy(p, …, n)`. -/
def loadBytes (who : Routine) (p n : ℕ) : Loader (List UInt8) :=
  Traced.emit (fun _ => ⟨who, ptr p, n, false⟩) fun m => (List.range n).map fun i => m (ptr p + i)

/-- How many bytes `strncpy(…, p, n)` reads: up to the first zero. -/
def strncpyLen (m : Memory) (p : ℕ) : ℕ → ℕ
  | 0 => 0
  | n + 1 => if m p = 0 then 1 else strncpyLen m (p + 1) n + 1

/-- `strncpy(…, p, n)`. -/
def strncpy (who : Routine) (p n : ℕ) : Loader (List UInt8) :=
  Traced.emit (fun m => ⟨who, ptr p, strncpyLen m (ptr p) n, false⟩)
    fun m => (List.range (strncpyLen m (ptr p) n)).map fun i => m (ptr p + i)

/-- `*(uint64_t *)p += v`. -/
def addWord (who : Routine) (p v : ℕ) : Loader Unit := do
  let old ← load who p ⟨0, 8⟩
  Traced.update (fun _ => ⟨who, ptr p, 8, true⟩) fun m => putWord m (ptr p) 8 ((old + v) % 2 ^ 64)

/-- `if (c) { dtrace_dof_error(dof, msg); return … }`. -/
def errorIf (c : Prop) [Decidable c] (msg : String) : Loader Unit := Traced.failIf c (.error msg)

/-- `dof_hdr_t`. -/
def sizeofHdr : ℕ := 64
/-- Identification byte `i`. -/
def dofhIdent (i : ℕ) : Field := ⟨i, 1⟩
/-- File attribute flags. -/
def dofhFlags : Field := ⟨16, 4⟩
/-- The size of a section header. -/
def dofhSecsize : Field := ⟨24, 4⟩
/-- The number of section headers. -/
def dofhSecnum : Field := ⟨28, 4⟩
/-- Where the section headers are. -/
def dofhSecoff : Field := ⟨32, 8⟩
/-- The size of the loadable portion. -/
def dofhLoadsz : Field := ⟨40, 8⟩

/-- `dof_sec_t`. -/
def sizeofSec : ℕ := 32
/-- One of the `DOF_SECT` types below. -/
def dofsType : Field := ⟨0, 4⟩
/-- The alignment of the data. -/
def dofsAlign : Field := ⟨4, 4⟩
/-- Section flags. -/
def dofsFlags : Field := ⟨8, 4⟩
/-- The size of an entry, of a table. -/
def dofsEntsize : Field := ⟨12, 4⟩
/-- Where the data are. -/
def dofsOffset : Field := ⟨16, 8⟩
/-- The size of the data. -/
def dofsSize : Field := ⟨24, 8⟩

/-- `dof_ecbdesc_t`. -/
def sizeofEcbdesc : ℕ := 24
/-- Link to a probe description. -/
def dofeProbes : Field := ⟨0, 4⟩
/-- Link to the DIF object of the predicate. -/
def dofePred : Field := ⟨4, 4⟩
/-- Link to the actions. -/
def dofeActions : Field := ⟨8, 4⟩

/-- `dof_probedesc_t`. -/
def sizeofProbedesc : ℕ := 24
/-- Link to the string table with the names. -/
def dofpStrtab : Field := ⟨0, 4⟩
/-- The provider, as an offset there. -/
def dofpProvider : Field := ⟨4, 4⟩
/-- The module. -/
def dofpMod : Field := ⟨8, 4⟩
/-- The function. -/
def dofpFunc : Field := ⟨12, 4⟩
/-- The name. -/
def dofpName : Field := ⟨16, 4⟩

/-- `dof_actdesc_t`. -/
def sizeofActdesc : ℕ := 32
/-- Link to the DIF object. -/
def dofaDifo : Field := ⟨0, 4⟩
/-- Link to the string table with the format. -/
def dofaStrtab : Field := ⟨4, 4⟩
/-- A `DTRACEACT` constant. -/
def dofaKind : Field := ⟨8, 4⟩
/-- The format, as an offset there. -/
def dofaArg : Field := ⟨16, 8⟩

/-- `dof_difohdr_t`; the links follow the return type. -/
def sizeofDifohdr : ℕ := 12
/-- Link to a table of the object. -/
def dofdLinks (l : ℕ) : Field := ⟨8 + 4 * l, 4⟩

/-- `dof_relohdr_t`. -/
def sizeofRelohdr : ℕ := 12
/-- Link to the string table with the symbols. -/
def dofrStrtab : Field := ⟨0, 4⟩
/-- Link to the relocations. -/
def dofrRelsec : Field := ⟨4, 4⟩
/-- Link to the section that is relocated. -/
def dofrTgtsec : Field := ⟨8, 4⟩

/-- `dof_relodesc_t`. -/
def sizeofRelodesc : ℕ := 24
/-- A `DOF_RELO` constant. -/
def dofrType : Field := ⟨4, 4⟩
/-- Where the word is in the section. -/
def dofrOffset : Field := ⟨8, 8⟩

/-- Any type, for `dtrace_dof_sect`. -/
def dofSectNone : ℕ := 0
/-- A `dof_ecbdesc_t`. -/
def dofSectEcbdesc : ℕ := 3
/-- A `dof_probedesc_t`. -/
def dofSectProbedesc : ℕ := 4
/-- An array of `dof_actdesc_t`. -/
def dofSectActdesc : ℕ := 5
/-- A `dof_difohdr_t`. -/
def dofSectDifohdr : ℕ := 6
/-- Instructions. -/
def dofSectDif : ℕ := 7
/-- A string table. -/
def dofSectStrtab : ℕ := 8
/-- An array of `dtrace_difv_t`. -/
def dofSectVartab : ℕ := 9
/-- An array of `dof_relodesc_t`. -/
def dofSectReltab : ℕ := 10
/-- A `dof_relohdr_t`, for user relocations. -/
def dofSectUrelhdr : ℕ := 12
/-- A provider. -/
def dofSectProvider : ℕ := 15
/-- Probes of a provider. -/
def dofSectProbes : ℕ := 16
/-- Mappings of probe arguments. -/
def dofSectPrargs : ℕ := 17
/-- Offsets of probes. -/
def dofSectProffs : ℕ := 18
/-- An array of integers. -/
def dofSectInttab : ℕ := 19

/-- `DOF_SECIDX_NONE`. -/
def dofSecidxNone : ℕ := 2 ^ 32 - 1

/-- `sec->dofs_flags & DOF_SECF_LOAD`. -/
def isLoad (flags : ℕ) : Bool := flags % 2 = 1

/-- `daddr + dofh_secoff + i * dofh_secsize`; the product is one of 32-bit words. -/
def secAt (who : Routine) (i : ℕ) : Loader ℕ := do
  let secoff ← load who 0 dofhSecoff
  let secsize ← load who 0 dofhSecsize
  return ptr (secoff + i * secsize % 2 ^ 32)

/-- `dtrace_dof_sect`. -/
def dofSect (type i : ℕ) : Loader ℕ := do
  let sec ← secAt .sect i
  errorIf (i ≥ (← load .sect 0 dofhSecnum)) "referenced section index is invalid"
  errorIf (¬ isLoad (← load .sect sec dofsFlags)) "referenced section is not loadable"
  Traced.onlyIf (type ≠ dofSectNone) do
    errorIf (type ≠ (← load .sect sec dofsType)) "referenced section is the wrong type"
  return sec

/-- One of the four names of a probe description, of at most `len - 1` bytes. -/
def probeName (probe str size : ℕ) (f : Field) (len : ℕ) (msg : String) : Loader (List UInt8) := do
  let off ← load .probedesc probe f
  errorIf (off ≥ size) msg
  strncpy .probedesc (str + off) (min (len - 1) (size - off))

/-- `dtrace_dof_probedesc`: the provider, module, function and name. -/
def dofProbedesc (sec : ℕ) : Loader (List (List UInt8)) := do
  errorIf ((← load .probedesc sec dofsType) ≠ dofSectProbedesc) "invalid probe section"
  errorIf ((← load .probedesc sec dofsAlign) ≠ 4) "bad alignment in probe description"
  let offset ← load .probedesc sec dofsOffset
  errorIf ((offset + sizeofProbedesc) % 2 ^ 64 > (← load .probedesc 0 dofhLoadsz))
    "truncated probe description"
  let probe := ptr offset
  let strtab ← dofSect dofSectStrtab (← load .probedesc probe dofpStrtab)
  let str ← load .probedesc strtab dofsOffset
  let size ← load .probedesc strtab dofsSize
  let provider ← probeName probe str size dofpProvider 64 "corrupt probe provider"
  let mod ← probeName probe str size dofpMod 64 "corrupt probe module"
  let func ← probeName probe str size dofpFunc 128 "corrupt probe function"
  let name ← probeName probe str size dofpName 64 "corrupt probe name"
  return [provider, mod, func, name]

/-- The tables of a `dtrace_difo_t` that come from sections. -/
inductive Slot
  | buf | inttab | strtab | vartab
  deriving DecidableEq

/-- A row of the table `difo[]`. -/
structure DifoRow where
  slot : Slot
  sect : ℕ
  entsize : ℕ
  align : ℕ
  msg : String

/-- `difo[]`. -/
def difoRows : List DifoRow :=
  [⟨.buf, dofSectDif, 4, 4, "multiple DIF sections"⟩,
   ⟨.inttab, dofSectInttab, 8, 8, "multiple integer tables"⟩,
   ⟨.strtab, dofSectStrtab, 0, 1, "multiple string tables"⟩,
   ⟨.vartab, dofSectVartab, 20, 4, "multiple variable tables"⟩]

/-- A `dtrace_difo_t` as it is read: its tables, with their lengths in entries; `none` is
    `NULL`, which is also what an allocation of nothing returns. -/
structure DofDifo where
  rtype : List UInt8
  table : Slot → Option (List UInt8)
  len : Slot → ℕ

/-- `dtrace_difo_maxsize`. -/
def dtraceDifoMaxsize : ℕ := 256 * 1024

/-- A section is copied to the table of the object that its type says. -/
def copyTable (subsec : ℕ) (row : DifoRow) (dp : DofDifo) : Loader DofDifo := do
  errorIf (¬ isLoad (← load .difo subsec dofsFlags)) "section not loaded"
  errorIf ((← load .difo subsec dofsAlign) ≠ row.align) "bad alignment"
  errorIf (dp.table row.slot ≠ none) row.msg
  let entsize ← load .difo subsec dofsEntsize
  errorIf (row.entsize ≠ entsize) "entry size mismatch"
  let size ← load .difo subsec dofsSize
  errorIf (entsize ≠ 0 ∧ size % entsize ≠ 0) "corrupt entry size"
  let bytes ← loadBytes .difo (← load .difo subsec dofsOffset) size
  return { dp with
    table := Function.update dp.table row.slot (if size = 0 then none else some bytes)
    len := Function.update dp.len row.slot
      (if entsize ≠ 0 then size % 2 ^ 32 / entsize else size % 2 ^ 32) }

/-- One link of a DIF object header; `ttl` is the size so far. -/
def difoLink (dofd l : ℕ) (acc : ℕ × DofDifo) : Loader (ℕ × DofDifo) := do
  let subsec ← dofSect dofSectNone (← load .difo dofd (dofdLinks l))
  let size ← load .difo subsec dofsSize
  errorIf ((acc.1 + size) % 2 ^ 64 > dtraceDifoMaxsize) "exceeds maximum size"
  let type ← load .difo subsec dofsType
  match difoRows.find? (fun row => row.sect = type) with
  | some row => do
      let dp ← copyTable subsec row acc.2
      return ((acc.1 + size) % 2 ^ 64, dp)
  | none => do
      errorIf (isLoad (← load .difo subsec dofsFlags)) "unrecognized DIFO subsection"
      return ((acc.1 + size) % 2 ^ 64, acc.2)

/-- The number of rounds of a loop up to an `int`. -/
def intRounds (n : ℕ) : ℕ := if n % 2 ^ 32 < 2 ^ 31 then n % 2 ^ 32 else 0

/-- `dtrace_dof_difo`.  `valid` is what the kernel makes of the object that was read: the
    string sizes filled in, and `dtrace_difo_validate`. -/
def dofDifo (valid : DofDifo → Bool) (sec : ℕ) : Loader DofDifo := do
  errorIf ((← load .difo sec dofsType) ≠ dofSectDifohdr) "invalid DIFO header section"
  errorIf ((← load .difo sec dofsAlign) ≠ 4) "bad alignment in DIFO header"
  let size ← load .difo sec dofsSize
  errorIf (size < sizeofDifohdr ∨ size % 4 ≠ 0) "bad size in DIFO header"
  let dofd := ptr (← load .difo sec dofsOffset)
  let rtype ← loadBytes .difo dofd 8
  let acc ← Traced.forFrom (difoLink dofd) (intRounds ((size - sizeofDifohdr) / 4 + 1)) 0
    (0, ⟨rtype, fun _ => none, fun _ => 0⟩)
  errorIf (acc.2.table .buf = none) "missing DIF text"
  Traced.failIf (valid acc.2 = false) .invalidDifo
  return acc.2

/-- `dtrace_actions_max`. -/
def dtraceActionsMax : ℕ := 16 * 1024

/-- `DTRACEACT_PRINTA`. -/
def dtraceactPrinta : ℕ := 4

/-- `DTRACEACT_ISPRINTFLIKE`. -/
def isPrintflike (kind : ℕ) : Bool :=
  kind = 3 ∨ kind = dtraceactPrinta ∨ kind = 0x203 ∨ kind = 0x204

/-- The format string of a `printf`-like action. -/
def formatString (desc : ℕ) : Loader Unit := do
  let strtab ← dofSect dofSectStrtab (← load .actdesc desc dofaStrtab)
  let str ← load .actdesc strtab dofsOffset
  let size ← load .actdesc strtab dofsSize
  let arg ← load .actdesc desc dofaArg
  let len ← Traced.emit (fun m => ⟨.actdesc, ptr (str + arg),
    strncpyLen m (ptr (str + arg)) (size - arg), false⟩)
    fun m => strncpyLen m (ptr (str + arg)) (size - arg)
  -- The last byte that was looked at is the zero, unless there is none.
  let last ← Traced.peek fun m => m (ptr (str + arg) + (len - 1))
  errorIf (len = 0 ∨ last ≠ 0) "bogus format string"
  errorIf (len = 1) "empty format string"

/-- The action `offs` bytes into the array: its format, if any, and its DIF object. -/
def dofAction (valid : DofDifo → Bool) (sec offs : ℕ) : Loader Unit := do
  let desc := ptr ((← load .actdesc sec dofsOffset) + offs)
  let kind ← load .actdesc desc dofaKind
  Traced.onlyIf (isPrintflike kind ∧
      (kind ≠ dtraceactPrinta ∨ (← load .actdesc desc dofaStrtab) ≠ dofSecidxNone))
    (formatString desc)
  let difo ← load .actdesc desc dofaDifo
  Traced.onlyIf (difo ≠ dofSecidxNone) do
    let difosec ← dofSect dofSectDifohdr difo
    let _ ← dofDifo valid difosec
    return ()

/-- `dtrace_dof_actdesc`. -/
def dofActdesc (valid : DofDifo → Bool) (sec : ℕ) : Loader Unit := do
  errorIf ((← load .actdesc sec dofsType) ≠ dofSectActdesc) "invalid action section"
  errorIf (((← load .actdesc sec dofsOffset) + sizeofActdesc) % 2 ^ 64 >
    (← load .actdesc 0 dofhLoadsz)) "truncated action description"
  errorIf ((← load .actdesc sec dofsAlign) ≠ 8) "bad alignment in action description"
  let size ← load .actdesc sec dofsSize
  let entsize ← load .actdesc sec dofsEntsize
  errorIf (size < entsize) "section entry size exceeds total size"
  errorIf (entsize ≠ sizeofActdesc) "bad entry size in action description"
  errorIf (size / entsize > dtraceActionsMax) "actions exceed dtrace_actions_max"
  Traced.whileFrom (fun offs => do return offs < (← load .actdesc sec dofsSize)) sizeofActdesc
    (dofAction valid sec) (dtraceActionsMax + 2) 0

/-- `dtrace_dof_ecbdesc`. -/
def dofEcbdesc (valid : DofDifo → Bool) (sec : ℕ) : Loader Unit := do
  errorIf ((← load .ecbdesc sec dofsSize) < sizeofEcbdesc) "truncated ECB description"
  errorIf ((← load .ecbdesc sec dofsAlign) ≠ 8) "bad alignment in ECB description"
  let ecb := ptr (← load .ecbdesc sec dofsOffset)
  let probes ← dofSect dofSectProbedesc (← load .ecbdesc ecb dofeProbes)
  let _ ← dofProbedesc probes
  let pred ← load .ecbdesc ecb dofePred
  Traced.onlyIf (pred ≠ dofSecidxNone) do
    let _ ← dofDifo valid (← dofSect dofSectDifohdr pred)
    return ()
  let actions ← load .ecbdesc ecb dofeActions
  Traced.onlyIf (actions ≠ dofSecidxNone) do
    dofActdesc valid (← dofSect dofSectActdesc actions)

/-- One relocation of the table at `r`, for the target section `ts`. -/
def relocateOne (ts ubase r : ℕ) : Loader Unit := do
  let offset ← load .relocate r dofrOffset
  let taddr := ptr ((← load .relocate ts dofsOffset) + offset)
  match ← load .relocate r dofrType with
  | 0 => return ()
  | 1 => do
      let size ← load .relocate ts dofsSize
      errorIf (offset ≥ size ∨ (offset + 8) % 2 ^ 64 > size) "bad relocation offset"
      errorIf (taddr % 8 ≠ 0) "misaligned setx relo"
      addWord .relocate taddr ubase
  | _ => Traced.fail (.error "invalid relocation type")

/-- All the relocations of the table `rs`. -/
def relocateAll (rs ts ubase : ℕ) : Loader Unit := do
  errorIf ((← load .relocate rs dofsEntsize) < sizeofRelodesc) "invalid relocation section"
  errorIf ((← load .relocate rs dofsAlign) ≠ 8) "invalid relocation section"
  let r ← load .relocate rs dofsOffset
  let size ← load .relocate rs dofsSize
  let entsize ← load .relocate rs dofsEntsize
  let _ ← Traced.forFrom (fun _ r => do
    relocateOne ts ubase r
    return ptr (r + (← load .relocate rs dofsEntsize))) (size / entsize % 2 ^ 32) 0 (ptr r)
  return ()

/-- `dtrace_dof_relocate`. -/
def dofRelocate (sec ubase : ℕ) : Loader Unit := do
  let dofr := ptr (← load .relocate sec dofsOffset)
  errorIf ((← load .relocate sec dofsSize) < sizeofRelohdr) "invalid relocation header"
  errorIf ((← load .relocate sec dofsAlign) ≠ 4) "invalid relocation header"
  -- All three are looked up before any of them is looked at.
  let ss ← Traced.attempt (dofSect dofSectStrtab (← load .relocate dofr dofrStrtab))
  let rs ← Traced.attempt (dofSect dofSectReltab (← load .relocate dofr dofrRelsec))
  let ts ← Traced.attempt (dofSect dofSectNone (← load .relocate dofr dofrTgtsec))
  match ss, rs, ts with
  | .ok _, .ok rs, .ok ts => relocateAll rs ts ubase
  | .error msg, _, _ | _, .error msg, _ | _, _, .error msg => Traced.fail msg

/-- `dtrace_dof_slurp`: the identification bytes and the flags. -/
def checkIdent : Loader Unit := do
  let magic ← loadBytes .slurp 0 4
  errorIf (magic ≠ [0x7F, 0x44, 0x4F, 0x46]) "DOF magic string mismatch"
  let model ← load .slurp 0 (dofhIdent 4)
  errorIf (model ≠ 1 ∧ model ≠ 2) "DOF has invalid data model"
  errorIf ((← load .slurp 0 (dofhIdent 5)) ≠ 1) "DOF encoding mismatch"
  let version ← load .slurp 0 (dofhIdent 6)
  errorIf (version ≠ 1 ∧ version ≠ 2) "DOF version mismatch"
  errorIf ((← load .slurp 0 (dofhIdent 7)) ≠ 2) "DOF uses unsupported instruction set"
  errorIf ((← load .slurp 0 (dofhIdent 8)) > 8) "DOF uses too many integer registers"
  errorIf ((← load .slurp 0 (dofhIdent 9)) > 8) "DOF uses too many tuple registers"
  Traced.forFrom (fun i _ => do
    errorIf ((← load .slurp 0 (dofhIdent i)) ≠ 0) "DOF has invalid ident byte set") 6 10 ()
  errorIf ((← load .slurp 0 dofhFlags) ≠ 0) "DOF has invalid flag bits set"

/-- `dtrace_dof_slurp`: the section headers are inside, and aligned. -/
def checkHeaders (len : ℕ) : Loader Unit := do
  errorIf ((← load .slurp 0 dofhSecsize) = 0) "zero section header size"
  let seclen := (← load .slurp 0 dofhSecnum) * (← load .slurp 0 dofhSecsize)
  let secoff ← load .slurp 0 dofhSecoff
  errorIf (secoff > len ∨ seclen > len ∨ (secoff + seclen) % 2 ^ 64 > len)
    "truncated section headers"
  errorIf (secoff % 8 ≠ 0) "misaligned section headers"
  errorIf ((← load .slurp 0 dofhSecsize) % 8 ≠ 0) "misaligned section size"

/-- `for (i = 0; i < dof->dofh_secnum; i++) { sec = …; body(sec); }`; the number is one of 32
    bits. -/
def forSections (body : ℕ → Loader Unit) : Loader Unit :=
  Traced.whileFrom (fun i => do return i < (← load .slurp 0 dofhSecnum)) 1
    (fun i => do body (← secAt .slurp i)) (2 ^ 32 + 1) 0

/-- `dtrace_dof_slurp`: the first pass, over the sections as they are. -/
def checkSection (noprobes : Bool) (len sec : ℕ) : Loader Unit := do
  Traced.onlyIf (noprobes = true) do
    let type ← load .slurp sec dofsType
    errorIf (type = dofSectProvider ∨ type = dofSectProbes ∨ type = dofSectPrargs ∨
      type = dofSectProffs) "illegal sections for enabling"
  Traced.onlyIf (isLoad (← load .slurp sec dofsFlags)) do
    let align ← load .slurp sec dofsAlign
    errorIf (align &&& ((align + 2 ^ 32 - 1) % 2 ^ 32) ≠ 0) "bad section alignment"
    let offset ← load .slurp sec dofsOffset
    errorIf (offset &&& ((align + 2 ^ 32 - 1) % 2 ^ 32) ≠ 0) "misaligned section"
    let size ← load .slurp sec dofsSize
    errorIf (offset > len ∨ size > len ∨ (offset + size) % 2 ^ 64 > len) "corrupt section header"
    Traced.onlyIf ((← load .slurp sec dofsType) = dofSectStrtab) do
      errorIf ((← load .slurp (offset + size + (2 ^ 64 - 1)) ⟨0, 1⟩) ≠ 0)
        "non-terminating string table"

/-- `dtrace_dof_slurp`: the second pass, which relocates. -/
def relocateSection (ubase sec : ℕ) : Loader Unit := do
  Traced.onlyIf (isLoad (← load .slurp sec dofsFlags)) do
    Traced.onlyIf ((← load .slurp sec dofsType) = dofSectUrelhdr) (dofRelocate sec ubase)

/-- `dtrace_dof_slurp`: the third pass, which finds the ECBs. -/
def enableSection (valid : DofDifo → Bool) (sec : ℕ) : Loader Unit := do
  Traced.onlyIf ((← load .slurp sec dofsType) = dofSectEcbdesc) (dofEcbdesc valid sec)

/-- `dtrace_dof_slurp`. -/
def dofSlurp (valid : DofDifo → Bool) (ubase : ℕ) (noprobes : Bool) : Loader Unit := do
  let len ← load .slurp 0 dofhLoadsz
  checkIdent
  checkHeaders len
  forSections (checkSection noprobes len)
  forSections (relocateSection ubase)
  forSections (enableSection valid)

end Sirius.Dtrace.Dof
