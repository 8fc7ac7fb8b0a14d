import Sirius.Dtrace.Dif

/-! # Validating a DIF object (`dtrace.c`: `dtrace_difo_validate`)

    The validator walks the text and then the table of variables, each up to the first
    complaint.  For a consumer that may not read kernel memory it replaces every load by the
    checked one (`kcheckload`), in place.  An object without complaints is accepted. -/

namespace Sirius.Dtrace.Dif

open List

/-- What `dtrace_difo_err` is called with. -/
structure Complaint where
  pc : ℕ
  format : String
  args : List ℕ
  deriving DecidableEq

/-- `if (c) err += efunc(pc, format, args)`. -/
def complainIf (c : Prop) [Decidable c] (pc : ℕ) (format : String) (args : List ℕ) :
    List Complaint :=
  if c then [⟨pc, format, args⟩] else []

def badReg (nregs pc r : ℕ) : List Complaint :=
  complainIf (nregs ≤ r) pc "invalid register %u\n" [r]

def writesR0 (pc rd : ℕ) : List Complaint := complainIf (rd = 0) pc "cannot write to %r0\n" []

def reservedBits (c : Prop) [Decidable c] (pc : ℕ) : List Complaint :=
  complainIf c pc "non-zero reserved bits\n" []

/-- The switch of `dtrace_difo_validate`. -/
def checkInstr (nregs : ℕ) (dp : Difo) (pc : ℕ) (instr : Instr) : List Complaint :=
  let r1 := instrR1 instr
  let r2 := instrR2 instr
  let rd := instrRd instr
  let rs := instrRs instr
  let label := instrLabel instr
  let v := instrVar instr
  let subr := instrSubr instr
  let type := instrType instr
  match opcode instr with
  | some (.alu _) | some .copys =>
    badReg nregs pc r1 ++ badReg nregs pc r2 ++ badReg nregs pc rd ++ writesR0 pc rd
  | some .not | some .mov | some .allocs | some (.load _ _) =>
    badReg nregs pc r1 ++ reservedBits (r2 ≠ 0) pc ++ badReg nregs pc rd ++ writesR0 pc rd
  | some (.store _) =>
    badReg nregs pc r1 ++ reservedBits (r2 ≠ 0) pc ++ badReg nregs pc rd ++
      complainIf (rd = 0) pc "cannot write to 0 address\n" []
  | some .cmp | some .scmp =>
    badReg nregs pc r1 ++ badReg nregs pc r2 ++ reservedBits (rd ≠ 0) pc
  | some .tst => badReg nregs pc r1 ++ reservedBits (r2 ≠ 0 ∨ rd ≠ 0) pc
  | some (.branch _) =>
    complainIf (dp.len ≤ label) pc "invalid branch target %u\n" [label] ++
      complainIf (label ≤ pc) pc "backward branch to %u\n" [label]
  | some .ret => reservedBits (r1 ≠ 0 ∨ r2 ≠ 0) pc ++ badReg nregs pc rd
  | some .nop | some .popts | some .flushts =>
    reservedBits (r1 ≠ 0 ∨ r2 ≠ 0 ∨ rd ≠ 0) pc
  | some .setx =>
    complainIf (dp.inttab.length ≤ instrInteger instr) pc "invalid integer ref %u\n"
      [instrInteger instr] ++ badReg nregs pc rd ++ writesR0 pc rd
  | some .sets =>
    complainIf (dp.strlen ≤ instrString instr) pc "invalid string ref %u\n"
      [instrString instr] ++ badReg nregs pc rd ++ writesR0 pc rd
  | some .ldga | some .ldta =>
    complainIf (varArrayMax < r1) pc "invalid array %u\n" [r1] ++ badReg nregs pc r2 ++
      badReg nregs pc rd ++ writesR0 pc rd
  | some .ldgs | some .ldts | some .ldls | some .ldgaa | some .ldtaa =>
    complainIf (v < varOtherMin ∨ varOtherMax < v) pc "invalid variable %u\n" [v] ++
      badReg nregs pc rd ++ writesR0 pc rd
  | some .stgs | some .stts | some .stls | some .stgaa | some .sttaa =>
    complainIf (v < varOtherUbase ∨ varOtherMax < v) pc "invalid variable %u\n" [v] ++
      complainIf (nregs ≤ rs) pc "invalid register %u\n" [rd]
  | some .call =>
    complainIf (subrMax < subr) pc "invalid subr %u\n" [subr] ++ badReg nregs pc rd ++
      writesR0 pc rd
  | some .pushtr =>
    complainIf (type ≠ typeString ∧ type ≠ typeCtf) pc "invalid ref type %u\n" [type] ++
      badReg nregs pc r2 ++ badReg nregs pc rs
  | some .pushtv =>
    complainIf (type ≠ typeCtf) pc "invalid val type %u\n" [type] ++
      badReg nregs pc r2 ++ badReg nregs pc rs
  | none => [⟨pc, "invalid opcode %u\n", [instrOp instr]⟩]

/-- Under `kcheckload` a load becomes the checked load of the same size. -/
def checkLoad (kcheckload : Bool) (instr : Instr) : Instr :=
  match opcode instr with
  | some (.load .kernel _) =>
    if kcheckload then
      instrLoad (instrOp instr + opRldsb - opLdsb) (instrR1 instr) (instrRd instr)
    else instr
  | _ => instr

def callsDestructive (instr : Instr) : Bool :=
  opcode instr = some .call ∧ (instrSubr instr = subrCopyout ∨ instrSubr instr = subrCopyoutstr)

/-- The loop over the text from `pc` on: the new text, `dtdo_destructive`, and the
    complaints about the instruction it ended at. -/
def validateText (nregs : ℕ) (kcheckload : Bool) (dp : Difo) :
    ℕ → List Instr → List Instr × Bool × List Complaint
  | _, [] => ([], false, [])
  | pc, instr :: rest =>
    match checkInstr nregs dp pc instr with
    | [] =>
      let after := validateText nregs kcheckload dp (pc + 1) rest
      (checkLoad kcheckload instr :: after.1, callsDestructive instr || after.2.1, after.2.2)
    | err => (checkLoad kcheckload instr :: rest, callsDestructive instr, err)

/-- `dtdo_len - 1`, as an unsigned integer. -/
def lastPc (dp : Difo) : ℕ := (dp.len + (2 ^ 32 - 1)) % 2 ^ 32

/-- The last instruction must be a `ret`. -/
def checkRet (buf : List Instr) (pc : ℕ) : List Complaint :=
  match buf.getLast? with
  | some instr =>
    complainIf (instrOp instr ≠ opRet) pc "expected 'ret' as last DIF instruction\n" []
  | none => []

/-- What is not returned by reference has the size of a base type. -/
def checkRtype (rtype : DifType) (pc : ℕ) : List Complaint :=
  if rtype.byref then []
  else complainIf (rtype.size ∉ [0, 1, 2, 4, 8]) pc "bad return size" []

def Vstate.existing (vs : Vstate) (scope : Scope) (ndx : ℕ) : Option Difv :=
  match scope with
  | .global => (vs.globals[ndx]?.join).map Statvar.var
  | .thread => vs.tlocals[ndx]?
  | .loc => (vs.locals[ndx]?.join).map Statvar.var

/-- A user-defined variable against the definition there is; `none` is a failed `ASSERT`. -/
def checkExisting (i : ℕ) (v : Difv) : Option Difv → Option (List Complaint)
  | none => some []
  | some e =>
    if e.id = 0 then some []
    else if e.id ≠ v.id ∨ e.scope ≠ v.scope then none
    else
      some (complainIf (e.kind ≠ v.kind) i "%d changed variable kind\n" [v.id] ++
        if v.type.flags ≠ e.type.flags then
          [⟨i, "%d changed variable type flags\n", [v.id]⟩]
        else complainIf (v.type.size ≠ 0 ∧ v.type.size ≠ e.type.size) i
          "%d changed variable type size\n" [v.id])

def checkVar (globalMaxsize : ℕ) (vs : Vstate) (i : ℕ) (v : Difv) : Option (List Complaint) :=
  match Scope.decode v.scope with
  | none => some [⟨i, "unrecognized variable scope %d\n", [v.scope]⟩]
  | some scope =>
    if v.kind ≠ kindArray ∧ v.kind ≠ kindScalar then
      some [⟨i, "unrecognized variable type %d\n", [v.kind]⟩]
    else if variableMax < v.id then some [⟨i, "%d exceeds variable id limit\n", [v.id]⟩]
    else if v.id < varOtherUbase then some []
    else if v.type.byref ∧ v.type.size = 0 then some [⟨i, "zero-sized variable\n", []⟩]
    else if v.type.byref ∧ scope = .global ∧ globalMaxsize < v.type.size then
      some [⟨i, "oversized by-ref global\n", []⟩]
    else checkExisting i v (vs.existing scope (v.id - varOtherUbase))

/-- The loop over the table of variables, from entry `i` on. -/
def validateVars (globalMaxsize : ℕ) (vs : Vstate) : ℕ → List Difv → Option (List Complaint)
  | _, [] => some []
  | i, v :: rest =>
    match checkVar globalMaxsize vs i v with
    | some [] => validateVars globalMaxsize vs (i + 1) rest
    | other => other

/-- `dtrace_difo_validate`: the object as it leaves it, and the complaints.
    `globalMaxsize` is `dtrace_global_maxsize`. -/
def difoValidate (globalMaxsize : ℕ) (vs : Vstate) (kcheckload : Bool) (nregs : ℕ)
    (dp : Difo) : Option (Difo × List Complaint) :=
  let text := validateText nregs kcheckload dp 0 dp.buf
  let dp' := { dp with buf := text.1, destructive := text.2.1 }
  let err := text.2.2 ++ checkRet text.1 (lastPc dp) ++ checkRtype dp.rtype (lastPc dp)
  match err with
  | [] => (validateVars globalMaxsize vs 0 dp.vartab).map (fun e => (dp', e))
  | _ => some (dp', err)

variable {pc : ℕ} {c : Prop}

@[simp] theorem complainIf_eq_nil [Decidable c] {format : String}
    {args : List ℕ} : complainIf c pc format args = [] ↔ ¬ c := by
  unfold complainIf
  split_ifs with h <;> simp [h]

variable {nregs : ℕ}

@[simp] theorem badReg_eq_nil {r : ℕ} : badReg nregs pc r = [] ↔ r < nregs := by
  rw [badReg, complainIf_eq_nil, not_le]

@[simp] theorem writesR0_eq_nil {rd : ℕ} : writesR0 pc rd = [] ↔ rd ≠ 0 := by
  rw [writesR0, complainIf_eq_nil]

@[simp] theorem reservedBits_eq_nil [Decidable c] :
    reservedBits c pc = [] ↔ ¬ c := by
  rw [reservedBits, complainIf_eq_nil]

def Valid (nregs : ℕ) (dp : Difo) (pc : ℕ) (i : Instr) : Prop :=
  match opcode i with
  | some (.alu _) | some .copys =>
    instrR1 i < nregs ∧ instrR2 i < nregs ∧ instrRd i < nregs ∧ instrRd i ≠ 0
  | some .not | some .mov | some .allocs | some (.load _ _) | some (.store _) =>
    instrR1 i < nregs ∧ instrR2 i = 0 ∧ instrRd i < nregs ∧ instrRd i ≠ 0
  | some .cmp | some .scmp => instrR1 i < nregs ∧ instrR2 i < nregs ∧ instrRd i = 0
  | some .tst => instrR1 i < nregs ∧ instrR2 i = 0 ∧ instrRd i = 0
  | some (.branch _) => instrLabel i < dp.len ∧ pc < instrLabel i
  | some .ret => instrR1 i = 0 ∧ instrR2 i = 0 ∧ instrRd i < nregs
  | some .nop | some .popts | some .flushts =>
    instrR1 i = 0 ∧ instrR2 i = 0 ∧ instrRd i = 0
  | some .setx =>
    instrInteger i < dp.inttab.length ∧ instrRd i < nregs ∧ instrRd i ≠ 0
  | some .sets => instrString i < dp.strlen ∧ instrRd i < nregs ∧ instrRd i ≠ 0
  | some .ldga | some .ldta =>
    instrR1 i ≤ varArrayMax ∧ instrR2 i < nregs ∧ instrRd i < nregs ∧ instrRd i ≠ 0
  | some .ldgs | some .ldts | some .ldls | some .ldgaa | some .ldtaa =>
    (varOtherMin ≤ instrVar i ∧ instrVar i ≤ varOtherMax) ∧ instrRd i < nregs ∧ instrRd i ≠ 0
  | some .stgs | some .stts | some .stls | some .stgaa | some .sttaa =>
    (varOtherUbase ≤ instrVar i ∧ instrVar i ≤ varOtherMax) ∧ instrRs i < nregs
  | some .call => instrSubr i ≤ subrMax ∧ instrRd i < nregs ∧ instrRd i ≠ 0
  | some .pushtr =>
    (instrType i = typeString ∨ instrType i = typeCtf) ∧ instrR2 i < nregs ∧ instrRs i < nregs
  | some .pushtv => instrType i = typeCtf ∧ instrR2 i < nregs ∧ instrRs i < nregs
  | none => False

variable {dp : Difo}

theorem checkInstr_eq_nil {i : Instr} : checkInstr nregs dp pc i = [] ↔ Valid nregs dp pc i := by
  unfold checkInstr Valid
  cases opcode i with
  | none => simp
  | some o =>
    cases o <;> simp only [append_eq_nil_iff, complainIf_eq_nil, badReg_eq_nil, writesR0_eq_nil,
        reservedBits_eq_nil, not_le, not_lt, not_or, not_not, not_and, and_assoc]
    case pushtr => simp only [imp_iff_not_or, not_not]

theorem validateText_eq_nil (nregs : ℕ) (kcheckload : Bool) (dp : Difo) (pc : ℕ)
    (buf : List Instr) :
    ((validateText nregs kcheckload dp pc buf).2.2 = [] ↔
      ∀ k i, buf[k]? = some i → Valid nregs dp (pc + k) i) ∧
    ((validateText nregs kcheckload dp pc buf).2.2 = [] →
      (validateText nregs kcheckload dp pc buf).1 = buf.map (checkLoad kcheckload) ∧
      (validateText nregs kcheckload dp pc buf).2.1 = buf.any callsDestructive) := by
  induction buf generalizing pc with
  | nil => exact ⟨by simp [validateText], by simp [validateText]⟩
  | cons instr rest ih =>
    obtain ⟨ih1, ih2⟩ := ih (pc + 1)
    rw [validateText]
    cases hc : checkInstr nregs dp pc instr with
    | nil =>
      refine ⟨ih1.trans ⟨?_, ?_⟩, fun h => ?_⟩
      · intro h k i hk
        cases k with
        | zero =>
          cases hk
          exact checkInstr_eq_nil.mp hc
        | succ k =>
          have := h k i hk
          rwa [Nat.add_assoc, Nat.add_comm 1] at this
      · intro h k i hk
        have := h (k + 1) i hk
        rwa [Nat.add_assoc, Nat.add_comm 1]
      · obtain ⟨hm, ha⟩ := ih2 h
        exact ⟨by rw [map_cons, ← hm], by rw [any_cons, ← ha]⟩
    | cons e err =>
      refine ⟨⟨nofun, fun h => ?_⟩, nofun⟩
      have := checkInstr_eq_nil.mpr (h 0 instr rfl)
      rw [Nat.add_zero, hc] at this
      exact nomatch this

def Difo.checked (kcheckload : Bool) (dp : Difo) : Difo :=
  { dp with
    buf := dp.buf.map (checkLoad kcheckload)
    destructive := dp.buf.any callsDestructive }

theorem Difo.len_checked (kcheckload : Bool) (dp : Difo) :
    (dp.checked kcheckload).len = dp.len := length_map _

variable {kcheckload : Bool} {dp' : Difo} {globalMaxsize : ℕ} {vs : Vstate}

/-- **ACCEPTANCE**: what it means that the validator has no complaint. -/
theorem difoValidate_eq_nil :
    difoValidate globalMaxsize vs kcheckload nregs dp = some (dp', []) ↔
      dp' = dp.checked kcheckload ∧ (∀ pc i, dp.buf[pc]? = some i → Valid nregs dp pc i) ∧
      checkRet dp'.buf (lastPc dp) = [] ∧ checkRtype dp.rtype (lastPc dp) = [] ∧
      validateVars globalMaxsize vs 0 dp.vartab = some [] := by
  obtain ⟨htext, hshape⟩ := validateText_eq_nil nregs kcheckload dp 0 dp.buf
  simp only [Nat.zero_add] at htext
  rw [difoValidate]
  generalize validateText nregs kcheckload dp 0 dp.buf = text at htext hshape ⊢
  obtain ⟨buf, destr, err⟩ := text
  constructor
  · intro h
    split at h
    next herr =>
      obtain ⟨e, he, hpair⟩ := Option.map_eq_some_iff.mp h
      obtain ⟨rfl, rfl⟩ := Prod.mk.inj hpair
      obtain ⟨⟨htxt, hret⟩, hrt⟩ := by simpa only [append_eq_nil_iff] using herr
      obtain ⟨rfl, rfl⟩ := hshape htxt
      exact ⟨rfl, htext.mp htxt, hret, hrt, he⟩
    next hne =>
      exact absurd (Prod.mk.inj (Option.some.inj h)).2 hne
  · rintro ⟨rfl, hvalid, hret, hrt, hvars⟩
    have herr := htext.mpr hvalid
    obtain ⟨rfl, rfl⟩ := hshape herr
    rw [herr, show checkRet (dp.buf.map (checkLoad kcheckload)) (lastPc dp) = [] from hret, hrt]
    exact Option.map_eq_some_iff.mpr ⟨[], hvars, rfl⟩

variable {instr : Instr}

theorem opcode_checkLoad {l : Load} (h : opcode instr = some (.load .kernel l)) :
    opcode (checkLoad true instr) = some (.load .restricted l) ∧
      instrR1 (checkLoad true instr) = instrR1 instr ∧ instrR2 (checkLoad true instr) = 0 ∧
      instrRd (checkLoad true instr) = instrRd instr := by
  obtain ⟨hdec, hlt⟩ := decode_restricted h
  obtain ⟨hop, h1, h2, hd⟩ := fields_instrLoad hlt (instrR1_lt instr) (instrRd_lt instr)
  have he : checkLoad true instr =
      instrLoad (instrOp instr + opRldsb - opLdsb) (instrR1 instr) (instrRd instr) := by
    rw [checkLoad, h]
    rfl
  rw [he]
  exact ⟨by rw [opcode, hop, hdec], h1, h2, hd⟩

theorem checkLoad_of_ne (h : ∀ l, kcheckload = true → opcode instr ≠ some (.load .kernel l)) :
    checkLoad kcheckload instr = instr := by
  rw [checkLoad]
  split
  next l hop =>
    cases kcheckload with
    | false => rfl
    | true => exact absurd hop (h l rfl)
  next => rfl

theorem checkLoad_checkLoad (kcheckload : Bool) (instr : Instr) :
    checkLoad kcheckload (checkLoad kcheckload instr) = checkLoad kcheckload instr := by
  refine checkLoad_of_ne fun l hk hop => ?_
  subst hk
  by_cases hload : ∃ l, opcode instr = some (.load .kernel l)
  · obtain ⟨l', hl'⟩ := hload
    rw [(opcode_checkLoad hl').1] at hop
    cases hop
  · rw [checkLoad_of_ne fun l _ hl => hload ⟨l, hl⟩] at hop
    exact hload ⟨l, hop⟩

theorem Valid.checkLoad (h : Valid nregs dp pc instr) (kcheckload : Bool) :
    Valid nregs dp pc (checkLoad kcheckload instr) := by
  by_cases hload : ∃ l, kcheckload = true ∧ opcode instr = some (.load .kernel l)
  · obtain ⟨l, rfl, hl⟩ := hload
    obtain ⟨hop, h1, h2, hd⟩ := opcode_checkLoad hl
    unfold Valid at h ⊢
    rw [hl] at h
    rw [hop, h1, h2, hd]
    exact ⟨h.1, rfl, h.2.2⟩
  · rwa [checkLoad_of_ne fun l hk hl => hload ⟨l, hk, hl⟩]

theorem valid_congr (hlen : dp'.len = dp.len) (hint : dp'.inttab = dp.inttab)
    (hstr : dp'.strlen = dp.strlen) : Valid nregs dp' pc instr ↔ Valid nregs dp pc instr := by
  unfold Valid
  rw [hlen, hint, hstr]

theorem callsDestructive_checkLoad (kcheckload : Bool) (instr : Instr) :
    callsDestructive (checkLoad kcheckload instr) = callsDestructive instr := by
  by_cases hload : ∃ l, kcheckload = true ∧ opcode instr = some (.load .kernel l)
  · obtain ⟨l, rfl, hl⟩ := hload
    have hop := (opcode_checkLoad hl).1
    simp [callsDestructive, hop, hl]
  · rw [checkLoad_of_ne fun l hk hl => hload ⟨l, hk, hl⟩]

theorem Difo.checked_checked (kcheckload : Bool) (dp : Difo) :
    (dp.checked kcheckload).checked kcheckload = dp.checked kcheckload := by
  simp only [Difo.checked, map_map, any_map, Difo.mk.injEq, true_and]
  constructor
  · exact map_congr_left fun i _ => checkLoad_checkLoad kcheckload i
  · congr 1
    funext i
    exact callsDestructive_checkLoad kcheckload i

theorem difoValidate_checked
    (h : difoValidate globalMaxsize vs kcheckload nregs dp = some (dp', [])) :
    difoValidate globalMaxsize vs kcheckload nregs dp' = some (dp', []) := by
  obtain ⟨rfl, hvalid, hret, hrt, hvars⟩ := difoValidate_eq_nil.mp h
  have hlen := dp.len_checked kcheckload
  have hlast : lastPc (dp.checked kcheckload) = lastPc dp := by rw [lastPc, lastPc, hlen]
  refine difoValidate_eq_nil.mpr ⟨(dp.checked_checked kcheckload).symm, ?_, ?_, ?_, hvars⟩
  · intro pc i hi
    obtain ⟨j, hj, rfl⟩ := getElem?_map .. ▸ hi |> Option.map_eq_some_iff.mp
    exact (valid_congr hlen rfl rfl).mpr ((hvalid pc j hj).checkLoad kcheckload)
  · rw [hlast]
    exact hret
  · rw [hlast]
    exact hrt

end Sirius.Dtrace.Dif
