import Sirius.Dtrace.Dif
import Sirius.Lib.WhileLoop

/-! # Emulating a DIF object (`dtrace.c`: `dtrace_dif_emulate`)

    The emulator "is deliberately void of assertions": it indexes registers, tables and
    variables by what the instruction says.  Here an index out of range stops the run with the
    reason.

    What the emulator calls (the access checks, the safe loads and copies, the built-in
    variables, the subroutines, the dynamic variables) is a parameter, a `Kernel`. -/

namespace Sirius.Dtrace.Dif

open Sirius.Lib

/-- `CPU_DTRACE_*`. -/
def cpuBadaddr : BitVec 16 := 0x0004
def cpuBadalign : BitVec 16 := 0x0008
def cpuDivzero : BitVec 16 := 0x0010
def cpuIllop : BitVec 16 := 0x0020
def cpuNoscratch : BitVec 16 := 0x0040
def cpuKpriv : BitVec 16 := 0x0080
def cpuUpriv : BitVec 16 := 0x0100
def cpuTupoflow : BitVec 16 := 0x0200
def cpuBadstack : BitVec 16 := 0x1000

/-- `CPU_DTRACE_FAULT`. -/
def cpuFault : BitVec 16 :=
  cpuBadaddr ||| cpuBadalign ||| cpuDivzero ||| cpuIllop ||| cpuNoscratch ||| cpuKpriv |||
    cpuUpriv ||| cpuTupoflow ||| cpuBadstack

/-- The CPU's flags and illegal value, the scratch space of the machine state, and the rest
    of the kernel. -/
structure Env (X : Type) where
  flags : BitVec 16
  illval : BitVec 64
  scratchBase : BitVec 64
  scratchSize : BitVec 64
  scratchPtr : BitVec 64
  ext : X

/-- `*flags |= f`. -/
def Env.fault {X : Type} (e : Env X) (f : BitVec 16) : Env X := { e with flags := e.flags ||| f }

/-- `*flags |= f; *illval = a`. -/
def Env.faultAt {X : Type} (e : Env X) (f : BitVec 16) (a : BitVec 64) : Env X :=
  { e with flags := e.flags ||| f, illval := a }

/-- `dtrace_key_t`. -/
structure Key where
  value : BitVec 64
  size : BitVec 64

/-- `dtrace_dynvar_op_t`. -/
inductive DynvarOp
  | alloc | noalloc | dealloc

def Width.bytes : Width → BitVec 64
  | .byte => 1
  | .half => 2
  | .word => 4
  | .xword => 8

structure Kernel (X : Type) where
  canstore : Env X → Vstate → BitVec 64 → BitVec 64 → Bool
  canload : Env X → Vstate → BitVec 64 → BitVec 64 → Bool × Env X
  strcanload : Env X → Vstate → BitVec 64 → BitVec 64 → Bool × Env X
  vcanload : Env X → Vstate → BitVec 64 → DifType → Bool × Env X
  /-- `dtrace_load8` and its kind. -/
  load : Width → Env X → BitVec 64 → BitVec 64 × Env X
  /-- `dtrace_fuword8` and its kind. -/
  fuword : Width → Env X → BitVec 64 → BitVec 64 × Env X
  strncmp : Env X → BitVec 64 → BitVec 64 → BitVec 64 → BitVec 64 × Env X
  strlen : Env X → BitVec 64 → BitVec 64 → BitVec 64 × Env X
  /-- The option `DTRACEOPT_STRSIZE`. -/
  strsize : Env X → BitVec 64
  /-- `dtrace_strsize_default`. -/
  strsizeDefault : BitVec 64
  bcopy : Env X → BitVec 64 → BitVec 64 → BitVec 64 → Env X
  bzero : Env X → BitVec 64 → BitVec 64 → Env X
  vcopy : Env X → BitVec 64 → BitVec 64 → DifType → Env X
  /-- A load or a store of memory that is known to be mapped. -/
  peek : Width → Env X → BitVec 64 → BitVec 64
  poke : Width → Env X → BitVec 64 → BitVec 64 → Env X
  difVariable : Env X → ℕ → BitVec 64 → BitVec 64 × Env X
  /-- `dtrace_dif_subr`: of the registers it only sees and sets `regs[rd]`. -/
  difSubr : Env X → Vstate → ℕ → BitVec 64 → (Fin (dtrNregs + 2) → Key) → ℕ → BitVec 64 × Env X
  /-- `dtrace_dynvar`: the address of the variable's data, if there is a variable. -/
  dynvar : Env X → Vstate → List Key → BitVec 64 → DynvarOp → Option (BitVec 64) × Env X
  /-- `DTRACE_TLS_THRKEY`. -/
  thrkey : Env X → BitVec 64
  /-- `curthread->t_predcache = NULL`. -/
  flushPredcache : Env X → Env X
  ncpu : ℕ
  cpuId : Env X → ℕ

/-- The state of `dtrace_dif_emulate` at the head of its loop. -/
structure Machine (X : Type) where
  pc : ℕ
  opc : ℕ
  regs : Fin dirNregs → BitVec 64
  /-- Two more than the tuple has, for the thread and the variable. -/
  tupregs : Fin (dtrNregs + 2) → Key
  ttop : ℕ
  ccN : Bool
  ccZ : Bool
  ccV : Bool
  ccC : Bool
  rval : BitVec 64
  vstate : Vstate
  env : Env X

/-- `DIF_REG_R0`. -/
def regR0 : Fin dirNregs := ⟨0, by decide⟩

inductive VarFault
  /-- `DIF_VAR_OTHER_UBASE` is subtracted from a smaller number. -/
  | belowBase
  | outOfTable
  | nullEntry
  /-- The storage has not the size of the variable. -/
  | badStorage
  deriving DecidableEq

inductive Stop
  | register (r : ℕ)
  | integer (i : ℕ)
  | string (i : ℕ)
  | tuple (i : ℕ)
  | var (scope : Scope) (id : ℕ) (why : VarFault)
  /-- The quotient of the least integer and -1, which the machine's division traps. -/
  | divide
  deriving DecidableEq

abbrev Exec : Type → Type := Except Stop

section

variable {X : Type}

/-- `regs[r]`. -/
def Machine.reg (m : Machine X) (r : ℕ) : Exec (BitVec 64) :=
  if h : r < dirNregs then .ok (m.regs ⟨r, h⟩) else .error (.register r)

/-- `regs[r] = v`. -/
def Machine.setReg (m : Machine X) (r : ℕ) (v : BitVec 64) : Exec (Machine X) :=
  if h : r < dirNregs then .ok { m with regs := Function.update m.regs ⟨r, h⟩ v }
  else .error (.register r)

/-- `tupregs[i] = k`. -/
def Machine.setTup (m : Machine X) (i : ℕ) (k : Key) : Exec (Machine X) :=
  if h : i < dtrNregs + 2 then .ok { m with tupregs := Function.update m.tupregs ⟨i, h⟩ k }
  else .error (.tuple i)

/-- The keys `key[lo], …, key[lo + n - 1]`. -/
def Machine.keys (m : Machine X) (lo n : ℕ) : List Key :=
  (List.finRange (dtrNregs + 2)).filterMap fun i =>
    if lo ≤ i.val ∧ i.val < lo + n then some (m.tupregs i) else none

/-- `dtvs_globals[id - DIF_VAR_OTHER_UBASE]` or `dtvs_locals[…]`, which must not be `NULL`. -/
def statvar (scope : Scope) (tab : List (Option Statvar)) (id : ℕ) : Exec Statvar :=
  if id < varOtherUbase then .error (.var scope id .belowBase)
  else
    match tab[id - varOtherUbase]? with
    | none => .error (.var scope id .outOfTable)
    | some none => .error (.var scope id .nullEntry)
    | some (some svar) => .ok svar

/-- `dtvs_tlocals[id - DIF_VAR_OTHER_UBASE]`. -/
def tlocal (vs : Vstate) (id : ℕ) : Exec Difv :=
  if id < varOtherUbase then .error (.var .thread id .belowBase)
  else
    match vs.tlocals[id - varOtherUbase]? with
    | none => .error (.var .thread id .outOfTable)
    | some v => .ok v

/-- A failed `ASSERT` about a variable's storage. -/
def assertStorage (scope : Scope) (id : ℕ) (c : Prop) [Decidable c] : Exec Unit :=
  if c then .ok () else .error (.var scope id .badStorage)

/-- `regs[r1] op regs[r2]`, and the flag it raises.  Shift counts are taken modulo 64, as
    the machine does. -/
def Alu.eval (f : Alu) (a b : BitVec 64) : Exec (BitVec 64 × BitVec 16) :=
  match f with
  | .or => .ok (a ||| b, 0)
  | .xor => .ok (a ^^^ b, 0)
  | .and => .ok (a &&& b, 0)
  | .sll => .ok (a <<< (b.toNat % 64), 0)
  | .srl => .ok (a >>> (b.toNat % 64), 0)
  | .sra => .ok (a.sshiftRight (b.toNat % 64), 0)
  | .sub => .ok (a - b, 0)
  | .add => .ok (a + b, 0)
  | .mul => .ok (a * b, 0)
  | .udiv => if b = 0 then .ok (0, cpuDivzero) else .ok (a / b, 0)
  | .urem => if b = 0 then .ok (0, cpuDivzero) else .ok (a % b, 0)
  | .sdiv =>
    if b = 0 then .ok (0, cpuDivzero)
    else if a = BitVec.intMin 64 ∧ b = -1 then .error .divide
    else .ok (a.sdiv b, 0)
  | .srem =>
    if b = 0 then .ok (0, cpuDivzero)
    else if a = BitVec.intMin 64 ∧ b = -1 then .error .divide
    else .ok (a.srem b, 0)

def Cond.holds (c : Cond) (m : Machine X) : Bool :=
  match c with
  | .a => true
  | .e => m.ccZ
  | .ne => !m.ccZ
  | .g => !(m.ccZ || (m.ccN ^^ m.ccV))
  | .gu => !(m.ccC || m.ccZ)
  | .ge => !(m.ccN ^^ m.ccV)
  | .geu => !m.ccC
  | .l => m.ccN ^^ m.ccV
  | .lu => m.ccC
  | .le => m.ccZ || (m.ccN ^^ m.ccV)
  | .leu => m.ccC || m.ccZ

def Load.width : Load → Width
  | .sb | .ub => .byte
  | .sh | .uh => .half
  | .sw | .uw => .word
  | .x => .xword

def Load.extend (l : Load) (v : BitVec 64) : BitVec 64 :=
  match l with
  | .sb => (v.truncate 8).signExtend 64
  | .sh => (v.truncate 16).signExtend 64
  | .sw => (v.truncate 32).signExtend 64
  | .ub => (v.truncate 8).zeroExtend 64
  | .uh => (v.truncate 16).zeroExtend 64
  | .uw => (v.truncate 32).zeroExtend 64
  | .x => v

variable (k : Kernel X)

/-- `LDx`: `regs[rd] = dtrace_loadN(regs[r1])`. -/
def execLoad (l : Load) (r1 rd : ℕ) (m : Machine X) : Exec (Machine X) := do
  let a ← m.reg r1
  let (v, env) := k.load l.width m.env a
  { m with env := env }.setReg rd (l.extend v)

/-- `RLDx`: only from where the program may store. -/
def execRestrictedLoad (l : Load) (r1 rd : ℕ) (m : Machine X) : Exec (Machine X) := do
  let a ← m.reg r1
  if k.canstore m.env m.vstate a l.width.bytes then execLoad k l r1 rd m
  else .ok { m with env := m.env.faultAt cpuKpriv a }

/-- `ULDx`. -/
def execUserLoad (l : Load) (r1 rd : ℕ) (m : Machine X) : Exec (Machine X) := do
  let a ← m.reg r1
  let (v, env) := k.fuword l.width m.env a
  { m with env := env }.setReg rd (l.extend v)

/-- `STx`: to an aligned address where the program may store. -/
def execStore (w : Width) (r1 rd : ℕ) (m : Machine X) : Exec (Machine X) := do
  let a ← m.reg rd
  if !k.canstore m.env m.vstate a w.bytes then
    .ok { m with env := m.env.faultAt cpuBadaddr a }
  else if a &&& (w.bytes - 1) ≠ 0 then .ok { m with env := m.env.faultAt cpuBadalign a }
  else do
    let v ← m.reg r1
    .ok { m with env := k.poke w m.env a v }

/-- `DIF_OP_SCMP`. -/
def execScmp (r1 r2 : ℕ) (m : Machine X) : Exec (Machine X) := do
  let sz := k.strsize m.env
  let s1 ← m.reg r1
  let s2 ← m.reg r2
  let (ok1, env) := if s1 ≠ 0 then k.strcanload m.env m.vstate s1 sz else (true, m.env)
  if !ok1 then .ok { m with env := env }
  else
    let (ok2, env) := if s2 ≠ 0 then k.strcanload env m.vstate s2 sz else (true, env)
    if !ok2 then .ok { m with env := env }
    else
      let (r, env) := k.strncmp env s1 s2 sz
      .ok { m with env := env, ccN := r.slt 0, ccZ := r = 0, ccV := false, ccC := false }

/-- A by-reference variable whose storage is at `a`: `NULL` if the first byte says so. -/
def loadRef (m : Machine X) (a : BitVec 64) : BitVec 64 :=
  if k.peek .byte m.env a = 0xff then 0 else a + 8

/-- A store to a by-reference variable whose storage is at `a`. -/
def storeRef (m : Machine X) (a v : BitVec 64) (t : DifType) : Machine X :=
  if v = 0 then { m with env := k.poke .byte m.env a 0xff }
  else
    let env := k.poke .byte m.env a 0
    let (ok, env) := k.vcanload env m.vstate v t
    if !ok then { m with env := env } else { m with env := k.vcopy env v (a + 8) t }

/-- `DIF_OP_LDGS`. -/
def execLdgs (id rd : ℕ) (m : Machine X) : Exec (Machine X) :=
  if varOtherUbase ≤ id then do
    let svar ← statvar .global m.vstate.globals id
    if !svar.var.type.byref then m.setReg rd svar.data
    else m.setReg rd (loadRef k m svar.data)
  else
    let (v, env) := k.difVariable m.env id 0
    { m with env := env }.setReg rd v

/-- `svar->dtsv_data = v`, in the table of globals. -/
def Vstate.setGlobal (vs : Vstate) (id : ℕ) (svar : Statvar) (v : BitVec 64) : Vstate :=
  { vs with globals := vs.globals.set (id - varOtherUbase) (some { svar with data := v }) }

/-- `DIF_OP_STGS`. -/
def execStgs (id rd : ℕ) (m : Machine X) : Exec (Machine X) := do
  let svar ← statvar .global m.vstate.globals id
  let v ← m.reg rd
  if svar.var.type.byref then do
    assertStorage .global id (svar.data ≠ 0 ∧ svar.size ≠ 0)
    .ok (storeRef k m svar.data v svar.var.type)
  else .ok { m with vstate := m.vstate.setGlobal id svar v }

def localAddr (m : Machine X) (svar : Statvar) (sz : ℕ) : BitVec 64 :=
  svar.data + BitVec.ofNat 64 (k.cpuId m.env * sz)

/-- `DIF_OP_LDLS`. -/
def execLdls (id rd : ℕ) (m : Machine X) : Exec (Machine X) :=
  if id < varOtherUbase then m.setReg rd 0
  else do
    let svar ← statvar .loc m.vstate.locals id
    if svar.var.type.byref then do
      let sz := svar.var.type.size + 8
      assertStorage .loc id (svar.size = k.ncpu * sz)
      m.setReg rd (loadRef k m (localAddr k m svar sz))
    else do
      assertStorage .loc id (svar.size = k.ncpu * 8)
      m.setReg rd (k.peek .xword m.env (localAddr k m svar 8))

/-- `DIF_OP_STLS`. -/
def execStls (id rd : ℕ) (m : Machine X) : Exec (Machine X) := do
  let svar ← statvar .loc m.vstate.locals id
  let v ← m.reg rd
  if svar.var.type.byref then do
    let sz := svar.var.type.size + 8
    assertStorage .loc id (svar.size = k.ncpu * sz)
    .ok (storeRef k m (localAddr k m svar sz) v svar.var.type)
  else do
    assertStorage .loc id (svar.size = k.ncpu * 8)
    .ok { m with env := k.poke .xword m.env (localAddr k m svar 8) v }

def dynSize (t : DifType) : BitVec 64 := BitVec.ofNat 64 (max t.size 8)

def loadDyn (rd : ℕ) (m : Machine X) (dvar : BitVec 64) (t : DifType) : Exec (Machine X) :=
  if t.byref then m.setReg rd dvar else m.setReg rd (k.peek .xword m.env dvar)

/-- What `dtrace_dynvar` found goes to a register: 0, or the variable's data. -/
def fetchDyn (rd : ℕ) (m : Machine X) (t : DifType) :
    Option (BitVec 64) × Env X → Exec (Machine X)
  | (none, env) => { m with env := env }.setReg rd 0
  | (some dvar, env) => loadDyn k rd { m with env := env } dvar t

def storeDyn (m : Machine X) (v : BitVec 64) (t : DifType) :
    Option (BitVec 64) → Machine X
  | none => m
  | some dvar =>
    if t.byref then
      let (ok, env) := k.vcanload m.env m.vstate v t
      if !ok then { m with env := env } else { m with env := k.vcopy env v dvar t }
    else { m with env := k.poke .xword m.env dvar v }

def threadKeys (id : ℕ) (m : Machine X) : Exec (Machine X) := do
  let m ← m.setTup dtrNregs ⟨BitVec.ofNat 64 (id - varOtherUbase), 0⟩
  m.setTup (dtrNregs + 1) ⟨k.thrkey m.env, 0⟩

/-- `id -= DIF_VAR_OTHER_UBASE`, under its `ASSERT`. -/
def assertBase (scope : Scope) (id : ℕ) : Exec Unit :=
  if id < varOtherUbase then .error (.var scope id .belowBase) else .ok ()

/-- `DIF_OP_LDTS`. -/
def execLdts (id rd : ℕ) (m : Machine X) : Exec (Machine X) := do
  assertBase .thread id
  let m ← threadKeys k id m
  let (dvar, env) := k.dynvar m.env m.vstate (m.keys dtrNregs 2) 8 .noalloc
  let m := { m with env := env }
  match dvar with
  | none => m.setReg rd 0
  | some dvar => do
      let v ← tlocal m.vstate id
      loadDyn k rd m dvar v.type

/-- `DIF_OP_STTS`. -/
def execStts (id rd : ℕ) (m : Machine X) : Exec (Machine X) := do
  assertBase .thread id
  let m ← threadKeys k id m
  let v ← tlocal m.vstate id
  let r ← m.reg rd
  let (dvar, env) := k.dynvar m.env m.vstate (m.keys dtrNregs 2) (dynSize v.type)
    (if r ≠ 0 then .alloc else .dealloc)
  .ok (storeDyn k { m with env := k.flushPredcache env } r v.type dvar)

/-- The keys of an associative array: the tuple, the variable, and for a thread-local one
    the thread; and the variable's definition. -/
def arrayKeys (scope : Scope) (id : ℕ) (m : Machine X) :
    Exec (Machine X × ℕ × Difv) := do
  assertBase scope id
  let nkeys := m.ttop
  let m ← m.setTup nkeys ⟨BitVec.ofNat 64 (id - varOtherUbase), 0⟩
  if scope = .thread then do
    let m ← m.setTup (nkeys + 1) ⟨k.thrkey m.env, 0⟩
    let v ← tlocal m.vstate id
    .ok (m, nkeys + 2, v)
  else do
    let svar ← statvar .global m.vstate.globals id
    .ok (m, nkeys + 1, svar.var)

/-- `DIF_OP_LDGAA` and `DIF_OP_LDTAA`. -/
def execLdaa (scope : Scope) (id rd : ℕ) (m : Machine X) : Exec (Machine X) := do
  let (m, nkeys, v) ← arrayKeys k scope id m
  fetchDyn k rd m v.type (k.dynvar m.env m.vstate (m.keys 0 nkeys) (dynSize v.type) .noalloc)

/-- `DIF_OP_STGAA` and `DIF_OP_STTAA`. -/
def execStaa (scope : Scope) (id rd : ℕ) (m : Machine X) : Exec (Machine X) := do
  let (m, nkeys, v) ← arrayKeys k scope id m
  let r ← m.reg rd
  let (dvar, env) := k.dynvar m.env m.vstate (m.keys 0 nkeys) (dynSize v.type)
    (if r ≠ 0 then .alloc else .dealloc)
  .ok (storeDyn k { m with env := env } r v.type dvar)

/-- `DIF_OP_PUSHTR`. -/
def execPushtr (type r2 rd : ℕ) (m : Machine X) : Exec (Machine X) := do
  if m.ttop = dtrNregs then .ok { m with env := m.env.fault cpuTupoflow }
  else do
    let v ← m.reg rd
    let n ← m.reg r2
    let (size, env) :=
      if type = typeString then
        let (len, env) := k.strlen m.env v (if n ≠ 0 then n else k.strsizeDefault)
        (len + 1, env)
      else (n, m.env)
    let m ← { m with env := env }.setTup m.ttop ⟨v, size⟩
    .ok { m with ttop := m.ttop + 1 }

/-- `DIF_OP_PUSHTV`. -/
def execPushtv (rd : ℕ) (m : Machine X) : Exec (Machine X) := do
  if m.ttop = dtrNregs then .ok { m with env := m.env.fault cpuTupoflow }
  else do
    let v ← m.reg rd
    let m ← m.setTup m.ttop ⟨v, 0⟩
    .ok { m with ttop := m.ttop + 1 }

/-- `DIF_OP_ALLOCS`. -/
def execAllocs (r1 rd : ℕ) (m : Machine X) : Exec (Machine X) := do
  let n ← m.reg r1
  -- P2ROUNDUP(dtms_scratch_ptr, 8)
  let ptr := -(-m.env.scratchPtr &&& -8)
  let size := ptr - m.env.scratchPtr + n
  if size < n ∨ ¬ size ≤ m.env.scratchBase + m.env.scratchSize - m.env.scratchPtr then
    ({ m with env := m.env.fault cpuNoscratch } : Machine X).setReg rd 0
  else
    let env := k.bzero m.env m.env.scratchPtr size
    ({ m with env := { env with scratchPtr := m.env.scratchPtr + size } } : Machine X).setReg rd ptr

/-- `DIF_OP_COPYS`. -/
def execCopys (r1 r2 rd : ℕ) (m : Machine X) : Exec (Machine X) := do
  let src ← m.reg r1
  let n ← m.reg r2
  let dst ← m.reg rd
  if !k.canstore m.env m.vstate dst n then
    .ok { m with env := m.env.faultAt cpuBadaddr dst }
  else
    let (ok, env) := k.canload m.env m.vstate src n
    if !ok then .ok { m with env := env } else .ok { m with env := k.bcopy env src dst n }

/-- The switch of `dtrace_dif_emulate`.  `pc` has moved to the next instruction. -/
def exec (dp : Difo) (instr : Instr) (m : Machine X) : Exec (Machine X) :=
  let r1 := instrR1 instr
  let r2 := instrR2 instr
  let rd := instrRd instr
  let id := instrVar instr
  match opcode instr with
  | some (.alu f) => do
      let a ← m.reg r1
      let b ← m.reg r2
      let (v, flag) ← f.eval a b
      { m with env := m.env.fault flag }.setReg rd v
  | some .not => do
      let a ← m.reg r1
      m.setReg rd (~~~a)
  | some .mov => do
      let a ← m.reg r1
      m.setReg rd a
  | some .cmp => do
      let a ← m.reg r1
      let b ← m.reg r2
      .ok { m with ccN := (a - b).slt 0, ccZ := a - b = 0, ccV := false, ccC := a < b }
  | some .tst => do
      let a ← m.reg r1
      .ok { m with ccN := false, ccV := false, ccC := false, ccZ := a = 0 }
  | some (.branch c) => .ok (if c.holds m then { m with pc := instrLabel instr } else m)
  | some (.load .kernel l) => execLoad k l r1 rd m
  | some (.load .restricted l) => execRestrictedLoad k l r1 rd m
  | some (.load .user l) => execUserLoad k l r1 rd m
  | some .ret => do
      let v ← m.reg rd
      .ok { m with rval := v, pc := dp.len }
  | some .nop => .ok m
  | some .setx =>
    match dp.inttab[instrInteger instr]? with
    | none => .error (.integer (instrInteger instr))
    | some v => m.setReg rd v
  | some .sets =>
    if instrString instr < dp.strlen then
      m.setReg rd (dp.strtab + BitVec.ofNat 64 (instrString instr))
    else .error (.string (instrString instr))
  | some .scmp => execScmp k r1 r2 m
  | some .ldga => do
      let ndx ← m.reg r2
      let (v, env) := k.difVariable m.env r1 ndx
      { m with env := env }.setReg rd v
  | some .ldgs => execLdgs k id rd m
  | some .stgs => execStgs k id rd m
  | some .ldta => { m with env := m.env.fault cpuIllop }.setReg rd 0
  | some .ldls => execLdls k id rd m
  | some .stls => execStls k id rd m
  | some .ldts => execLdts k id rd m
  | some .stts => execStts k id rd m
  | some .call => do
      let old ← m.reg rd
      let (v, env) := k.difSubr m.env m.vstate (instrSubr instr) old m.tupregs m.ttop
      { m with env := env }.setReg rd v
  | some .pushtr => execPushtr k r1 r2 rd m
  | some .pushtv => execPushtv rd m
  | some .popts => .ok { m with ttop := m.ttop - 1 }
  | some .flushts => .ok { m with ttop := 0 }
  | some .ldgaa => execLdaa k .global id rd m
  | some .ldtaa => execLdaa k .thread id rd m
  | some .stgaa => execStaa k .global id rd m
  | some .sttaa => execStaa k .thread id rd m
  | some .allocs => execAllocs k r1 rd m
  | some .copys => execCopys k r1 r2 rd m
  | some (.store w) => execStore k w r1 rd m
  | none => .ok m

/-- `pc < textlen && !(*flags & CPU_DTRACE_FAULT)`. -/
def Machine.goesOn (dp : Difo) (m : Machine X) : Prop :=
  m.pc < dp.len ∧ m.env.flags &&& cpuFault = 0

instance (dp : Difo) : DecidablePred (Machine.goesOn (X := X) dp) := fun m =>
  inferInstanceAs (Decidable (m.pc < dp.len ∧ m.env.flags &&& cpuFault = 0))

def step (dp : Difo) (m : Machine X) : Exec (Machine X) :=
  match dp.buf[m.pc]? with
  | some instr => exec k dp instr { m with opc := m.pc, pc := m.pc + 1 }
  | none => .ok m

/-- The loop of `dtrace_dif_emulate`, for at most `n` instructions. -/
def emulate (dp : Difo) (n : ℕ) (m : Machine X) : Loop Stop (Machine X) :=
  whileLoop (Machine.goesOn dp) (step k dp) n m

/-- What `dtrace_dif_emulate` returns: the value, or 0 and the offset of the fault. -/
def Machine.result (m : Machine X) : BitVec 64 × Option ℕ :=
  if m.env.flags &&& cpuFault = 0 then (m.rval, none) else (0, some (m.opc * 4))

end

end Sirius.Dtrace.Dif
