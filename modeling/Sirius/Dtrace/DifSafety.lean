import Sirius.Dtrace.DifValidate
import Sirius.Dtrace.DifEmulate

/-! # What a validated DIF object cannot do

    One pass over the emulator's switch says what an instruction can do: it keeps `%r0` and
    the bound on the tuple stack, leaves `pc` alone or moves it forward, changes at most the
    value of a global scalar, and stops only at a variable that is not there or at a division
    that overflows.  What runs do follows from that. -/

namespace Sirius.Dtrace.Dif

open Sirius.Lib List

variable {X : Type}

/-- The table and the variable that the emulator looks up for an instruction. -/
def varAccess (instr : Instr) : Option (Scope × ℕ) :=
  match opcode instr with
  | some .ldgs =>
    if varOtherUbase ≤ instrVar instr then some (.global, instrVar instr) else none
  | some .ldls => if varOtherUbase ≤ instrVar instr then some (.loc, instrVar instr) else none
  | some .stgs | some .ldgaa | some .stgaa => some (.global, instrVar instr)
  | some .stls => some (.loc, instrVar instr)
  | some .ldts | some .stts | some .ldtaa | some .sttaa => some (.thread, instrVar instr)
  | _ => none

/-- The storage of a static variable fits its type: by reference, a word and the value; for
    a clause-local variable that on each CPU, or a word on each. -/
def Statvar.Fits (ncpu : ℕ) (scope : Scope) (svar : Statvar) : Prop :=
  match scope with
  | .global =>
    if svar.var.type.byref then svar.size = svar.var.type.size + 8 ∧ svar.data ≠ 0
    else svar.size = 0
  | _ =>
    svar.size = (ncpu * if svar.var.type.byref then svar.var.type.size + 8 else 8) ∧
      (svar.size ≠ 0 → svar.data ≠ 0)

def Hits (ncpu : ℕ) (vs : Vstate) (scope : Scope) (id : ℕ) : Prop :=
  varOtherUbase ≤ id ∧ match scope with
    | .global => ∃ svar, vs.globals[id - varOtherUbase]? = some (some svar) ∧
        svar.var.id = id ∧ svar.Fits ncpu .global
    | .loc => ∃ svar, vs.locals[id - varOtherUbase]? = some (some svar) ∧
        svar.var.id = id ∧ svar.Fits ncpu .loc
    | .thread => ∃ v, vs.tlocals[id - varOtherUbase]? = some v ∧ v.id = id

def Statvar.Same (a b : Statvar) : Prop :=
  b.size = a.size ∧ b.refcnt = a.refcnt ∧ b.var = a.var ∧
    (a.var.type.byref = true → b.data = a.data)

theorem Statvar.Same.refl (a : Statvar) : a.Same a := ⟨rfl, rfl, rfl, fun _ => rfl⟩

theorem Statvar.Same.trans {a b c : Statvar} (h : a.Same b) (h' : b.Same c) : a.Same c := by
  obtain ⟨h1, h2, h3, h4⟩ := h
  obtain ⟨h1', h2', h3', h4'⟩ := h'
  refine ⟨h1'.trans h1, h2'.trans h2, h3'.trans h3, fun hr => ?_⟩
  rw [h4' (by rw [h3]; exact hr), h4 hr]

structure Vstate.Same (vs vs' : Vstate) : Prop where
  tlocals : vs'.tlocals = vs.tlocals
  locals : vs'.locals = vs.locals
  globals : List.Forall₂ (Option.Rel Statvar.Same) vs.globals vs'.globals

theorem relSame_refl (o : Option Statvar) : Option.Rel Statvar.Same o o := by
  cases o with
  | none => exact .none
  | some a => exact .some (Statvar.Same.refl a)

theorem relSame_trans {a b c : Option Statvar} (h : Option.Rel Statvar.Same a b)
    (h' : Option.Rel Statvar.Same b c) : Option.Rel Statvar.Same a c := by
  cases h with
  | none => exact h'
  | some hs =>
    cases h' with
    | some hs' => exact .some (hs.trans hs')

theorem Vstate.Same.refl (vs : Vstate) : vs.Same vs :=
  ⟨rfl, rfl, forall₂_same.mpr fun o _ => relSame_refl o⟩

theorem Vstate.Same.trans {a b c : Vstate} (h : a.Same b) (h' : b.Same c) : a.Same c := by
  refine ⟨h'.tlocals.trans h.tlocals, h'.locals.trans h.locals, ?_⟩
  have hg := forall₂_iff_get.mp h.globals
  have hg' := forall₂_iff_get.mp h'.globals
  exact forall₂_iff_get.mpr ⟨hg.1.trans hg'.1, fun i hi hi' =>
    relSame_trans (hg.2 i hi (hg.1 ▸ hi)) (hg'.2 i (hg.1 ▸ hi) hi')⟩

variable {id : ℕ} {vs : Vstate} {svar : Statvar}

theorem Vstate.same_setGlobal (h : vs.globals[id - varOtherUbase]? = some (some svar))
    (hr : svar.var.type.byref = false) (v : BitVec 64) : vs.Same (vs.setGlobal id svar v) := by
  refine ⟨rfl, rfl, forall₂_iff_get.mpr ⟨?_, fun i hi hi' => ?_⟩⟩
  · exact (length_set ..).symm
  simp only [get_eq_getElem]
  by_cases hne : id - varOtherUbase = i
  · subst hne
    have hval := (List.getElem?_eq_some_iff.mp h).2
    rw [hval]
    simp only [setGlobal, getElem_set_self]
    exact .some ⟨rfl, rfl, rfl, fun hb => by rw [hr] at hb; cases hb⟩
  · simp only [setGlobal, getElem_set_ne hne]
    exact relSame_refl _

structure Kept (m m' : Machine X) : Prop where
  r0 : m.regs regR0 = 0 → m'.regs regR0 = 0
  ttop : m.ttop ≤ dtrNregs → m'.ttop ≤ dtrNregs
  pc : m'.pc = m.pc
  tables : m.vstate.Same m'.vstate

theorem Kept.refl (m : Machine X) : Kept m m := ⟨id, id, rfl, .refl _⟩

theorem Kept.trans {a b c : Machine X} (h : Kept a b) (h' : Kept b c) : Kept a c :=
  ⟨h'.r0 ∘ h.r0, h'.ttop ∘ h.ttop, h'.pc.trans h.pc, h.tables.trans h'.tables⟩

theorem Kept.env (m : Machine X) (e : Env X) : Kept m { m with env := e } := ⟨id, id, rfl, .refl _⟩

/-! ## The parts of an instruction -/

variable {E : Stop → Prop} {m0 m : Machine X} {k : Kernel X} {r : ℕ}

theorem ends_reg (h : r < dirNregs) : Ends (fun v => m.reg r = .ok v) E (m.reg r) := by
  rw [Machine.reg, dif_pos h]
  exact rfl

theorem ends_setReg {v : BitVec 64} (hm : Kept m0 m) (h : r < dirNregs)
    (h0 : r ≠ 0) : Ends (Kept m0) E (m.setReg r v) := by
  rw [Machine.setReg, dif_pos h]
  refine ends_ok.mpr (hm.trans ⟨fun hz => ?_, id, rfl, .refl _⟩)
  have hne : regR0 ≠ ⟨r, h⟩ := fun he => h0 (congrArg Fin.val he).symm
  rw [← hz]
  exact Function.update_of_ne hne _ _

theorem ends_setTup {i : ℕ} {key : Key} (h : i < dtrNregs + 2) :
    Ends (fun m' => Kept m m' ∧ m'.ttop = m.ttop ∧ m'.vstate = m.vstate) E (m.setTup i key) := by
  rw [Machine.setTup, dif_pos h]
  exact ⟨⟨id, id, rfl, .refl _⟩, rfl, rfl⟩

variable {scope : Scope}

theorem ends_statvar {tab : List (Option Statvar)}
    (hE : ∀ why, (∀ svar, varOtherUbase ≤ id → tab[id - varOtherUbase]? ≠ some (some svar)) →
      E (.var scope id why)) :
    Ends (fun svar => varOtherUbase ≤ id ∧ tab[id - varOtherUbase]? = some (some svar)) E
      (statvar scope tab id) := by
  rw [statvar]
  by_cases hb : id < varOtherUbase
  · rw [if_pos hb]
    exact hE _ fun _ hle => absurd hle (not_le.mpr hb)
  rw [if_neg hb]
  cases ht : tab[id - varOtherUbase]? with
  | none => exact hE _ fun svar _ he => nomatch ht.symm.trans he
  | some o =>
    cases o with
    | none => exact hE _ fun svar _ he => nomatch ht.symm.trans he
    | some svar => exact ⟨not_lt.mp hb, rfl⟩

theorem ends_tlocal
    (hE : ∀ why, (∀ v, varOtherUbase ≤ id → vs.tlocals[id - varOtherUbase]? ≠ some v) →
      E (.var .thread id why)) : Ends (fun _ => True) E (tlocal vs id) := by
  rw [tlocal]
  by_cases hb : id < varOtherUbase
  · rw [if_pos hb]
    exact hE _ fun _ hle => absurd hle (not_le.mpr hb)
  · rw [if_neg hb]
    cases ht : vs.tlocals[id - varOtherUbase]? with
    | none => exact hE _ fun v _ he => nomatch ht.symm.trans he
    | some v => exact trivial

theorem ends_assertBase (hE : ∀ why, ¬ varOtherUbase ≤ id → E (.var scope id why)) :
    Ends (fun _ => True) E (assertBase scope id) := by
  rw [assertBase]
  by_cases hb : id < varOtherUbase
  · rw [if_pos hb]
    exact hE _ (not_le.mpr hb)
  · rw [if_neg hb]
    exact trivial

theorem ends_assertStorage {c : Prop} [Decidable c] (hE : ∀ why, ¬ c → E (.var scope id why)) :
    Ends (fun _ => True) E (assertStorage scope id c) := by
  rw [assertStorage]
  by_cases hc : c
  · rw [if_pos hc]
    exact trivial
  · rw [if_neg hc]
    exact hE _ hc

section

variable {r1 r2 rd : ℕ} (h1 : r1 < dirNregs) (hd : rd < dirNregs)

include h1 hd

variable {l : Load}

theorem execLoad_ends (h0 : rd ≠ 0) : Ends (Kept m) E (execLoad k l r1 rd m) := by
  refine (ends_reg h1).bind fun a _ => ?_
  exact ends_setReg (.env m _) hd h0

theorem execRestrictedLoad_ends (h0 : rd ≠ 0) :
    Ends (Kept m) E (execRestrictedLoad k l r1 rd m) := by
  refine (ends_reg h1).bind fun a _ => ?_
  by_cases hs : k.canstore m.env m.vstate a l.width.bytes = true
  · rw [if_pos hs]
    exact execLoad_ends h1 hd h0
  · rw [if_neg hs]
    exact Kept.env m _

theorem execUserLoad_ends (h0 : rd ≠ 0) : Ends (Kept m) E (execUserLoad k l r1 rd m) := by
  refine (ends_reg h1).bind fun a _ => ?_
  exact ends_setReg (.env m _) hd h0

theorem execStore_ends {w : Width} : Ends (Kept m) E (execStore k w r1 rd m) := by
  refine (ends_reg hd).bind fun a _ => ?_
  split_ifs
  · exact Kept.env m _
  · exact Kept.env m _
  · exact (ends_reg h1).bind fun v _ => Kept.env m _

theorem execAllocs_ends (h0 : rd ≠ 0) : Ends (Kept m) E (execAllocs k r1 rd m) := by
  refine (ends_reg h1).bind fun n _ => ?_
  dsimp only
  split_ifs <;> exact ends_setReg (.env m _) hd h0

theorem execCopys_ends (h2 : r2 < dirNregs) : Ends (Kept m) E (execCopys k r1 r2 rd m) := by
  refine (ends_reg h1).bind fun src _ => ?_
  refine (ends_reg h2).bind fun n _ => ?_
  refine (ends_reg hd).bind fun dst _ => ?_
  dsimp only
  split_ifs <;> exact Kept.env m _

end

theorem execScmp_ends {r1 r2 : ℕ} (h1 : r1 < dirNregs) (h2 : r2 < dirNregs) :
    Ends (Kept m) E (execScmp k r1 r2 m) := by
  refine (ends_reg h1).bind fun s1 _ => ?_
  refine (ends_reg h2).bind fun s2 _ => ?_
  dsimp only
  generalize (if s1 ≠ 0 then k.strcanload m.env m.vstate s1 (k.strsize m.env)
    else (true, m.env)) = p1
  by_cases hok1 : (!p1.1) = true
  · rw [if_pos hok1]
    exact Kept.env m _
  rw [if_neg hok1]
  generalize (if s2 ≠ 0 then k.strcanload p1.2 m.vstate s2 (k.strsize m.env)
    else (true, p1.2)) = p2
  by_cases hok2 : (!p2.1) = true
  · rw [if_pos hok2]
    exact Kept.env m _
  · rw [if_neg hok2]
    exact ⟨id, id, rfl, .refl _⟩

variable {ncpu pc : ℕ}

theorem fits_of_hit {o : Option (Option Statvar)} {P Q : Statvar → Prop}
    (h : ∃ svar, o = some (some svar) ∧ P svar ∧ Q svar) (hs : o = some (some svar)) : Q svar := by
  obtain ⟨svar', hs', -, hf⟩ := h
  cases hs.symm.trans hs'
  exact hf

section

/-- `E` allows to stop at a variable that an access misses. -/
abbrev Blames (E : Stop → Prop) (k : Kernel X) (m : Machine X) (scope : Scope) (id : ℕ) : Prop :=
  ∀ why, ¬ Hits k.ncpu m.vstate scope id → E (.var scope id why)

variable {id rd : ℕ} {t : DifType} (hd : rd < dirNregs)

include hd

omit hd in
theorem ends_static {tab : List (Option Statvar)} {P : Statvar → Prop} (hE : ∀ why, ¬ (varOtherUbase
    ≤ id ∧ ∃ svar, tab[id - varOtherUbase]? = some (some svar) ∧ P svar) → E (.var scope id why)) :
    Ends (fun svar => varOtherUbase ≤ id ∧ tab[id - varOtherUbase]? = some (some svar)) E
      (statvar scope tab id) := by
  refine ends_statvar fun why hno => hE why ?_
  rintro ⟨hle, svar, hs, -⟩
  exact hno svar hle hs

theorem execLdgs_ends (h0 : rd ≠ 0) (hE : varOtherUbase ≤ id → Blames E k m .global id) :
    Ends (Kept m) E (execLdgs k id rd m) := by
  rw [execLdgs]
  by_cases hb : varOtherUbase ≤ id
  · rw [if_pos hb]
    refine (ends_static (hE hb)).bind fun svar _ => ?_
    split_ifs
    · exact ends_setReg (.refl m) hd h0
    · exact ends_setReg (.refl m) hd h0
  · rw [if_neg hb]
    exact ends_setReg (.env m _) hd h0

omit hd in
theorem kept_storeRef (a v : BitVec 64) (t : DifType) : Kept m (storeRef k m a v t) := by
  rw [storeRef]
  split_ifs
  · exact .env m _
  · dsimp only
    split_ifs
    · exact .env m _
    · exact .env m _

theorem execStgs_ends (hE : Blames E k m .global id) : Ends (Kept m) E (execStgs k id rd m) := by
  refine (ends_static hE).bind fun svar hs => ?_
  refine (ends_reg hd).bind fun v _ => ?_
  by_cases hr : svar.var.type.byref = true
  · rw [if_pos hr]
    refine Ends.bind (ends_assertStorage fun why hc => hE why fun hit => hc ?_)
      fun _ _ => kept_storeRef _ _ _
    have hf := fits_of_hit hit.2 hs.2
    simp only [Statvar.Fits, if_pos hr] at hf
    exact ⟨hf.2, by rw [hf.1]; omega⟩
  · rw [if_neg hr]
    exact ⟨fun h => h, fun h => h, rfl, Vstate.same_setGlobal hs.2 (Bool.eq_false_iff.mpr hr) v⟩

theorem execLdls_ends (h0 : rd ≠ 0) (hE : varOtherUbase ≤ id → Blames E k m .loc id) :
    Ends (Kept m) E (execLdls k id rd m) := by
  rw [execLdls]
  by_cases hb : id < varOtherUbase
  · rw [if_pos hb]
    exact ends_setReg (.refl m) hd h0
  rw [if_neg hb]
  have hE' := hE (not_lt.mp hb)
  refine (ends_static hE').bind fun svar hs => ?_
  have hfit := fun hit : Hits k.ncpu m.vstate .loc id => (fits_of_hit hit.2 hs.2).1
  split_ifs at hfit ⊢
  · exact Ends.bind (ends_assertStorage fun why hc => hE' why fun hit => hc (hfit hit))
      fun _ _ => ends_setReg (.refl m) hd h0
  · exact Ends.bind (ends_assertStorage fun why hc => hE' why fun hit => hc (hfit hit))
      fun _ _ => ends_setReg (.refl m) hd h0

theorem execStls_ends (hE : Blames E k m .loc id) : Ends (Kept m) E (execStls k id rd m) := by
  refine (ends_static hE).bind fun svar hs => ?_
  refine (ends_reg hd).bind fun v _ => ?_
  have hfit := fun hit : Hits k.ncpu m.vstate .loc id => (fits_of_hit hit.2 hs.2).1
  split_ifs at hfit ⊢
  · exact Ends.bind (ends_assertStorage fun why hc => hE why fun hit => hc (hfit hit))
      fun _ _ => kept_storeRef _ _ _
  · exact Ends.bind (ends_assertStorage fun why hc => hE why fun hit => hc (hfit hit))
      fun _ _ => Kept.env m _

omit hd in
theorem threadKeys_ends :
    Ends (fun m' => Kept m m' ∧ m'.vstate = m.vstate) E (threadKeys k id m) := by
  refine (ends_setTup (by decide)).bind fun m' hm' => ?_
  refine (ends_setTup (by decide)).mono fun m'' hm'' => ?_
  exact ⟨hm'.1.trans hm''.1, hm''.2.2.trans hm'.2.2⟩

theorem loadDyn_ends {dvar : BitVec 64} (hm : Kept m0 m) (h0 : rd ≠ 0) :
    Ends (Kept m0) E (loadDyn k rd m dvar t) := by
  rw [loadDyn]
  split_ifs <;> exact ends_setReg hm hd h0

theorem fetchDyn_ends {found : Option (BitVec 64) × Env X} (hm : Kept m0 m) (h0 : rd ≠ 0) :
    Ends (Kept m0) E (fetchDyn k rd m t found) := by
  obtain ⟨dvar, env⟩ := found
  cases dvar with
  | none => exact ends_setReg (hm.trans (.env m env)) hd h0
  | some dvar => exact loadDyn_ends hd (hm.trans (.env m env)) h0

omit hd in
theorem kept_storeDyn (v : BitVec 64) (t : DifType) (dvar : Option (BitVec 64)) :
    Kept m (storeDyn k m v t dvar) := by
  cases dvar with
  | none => exact .refl m
  | some dvar =>
    rw [storeDyn]
    split_ifs
    · dsimp only
      split_ifs
      · exact .env m _
      · exact .env m _
    · exact .env m _

theorem execLdts_ends (h0 : rd ≠ 0) (hE : Blames E k m .thread id) :
    Ends (Kept m) E (execLdts k id rd m) := by
  refine Ends.bind (ends_assertBase fun why hb => hE why fun hit => hb hit.1) fun _ _ => ?_
  refine threadKeys_ends.bind fun m' hm' => ?_
  have hk : ∀ e, Kept m { m' with env := e } := fun e => hm'.1.trans (.env m' e)
  generalize k.dynvar m'.env m'.vstate (m'.keys dtrNregs 2) 8 .noalloc = found
  obtain ⟨dvar, env⟩ := found
  cases dvar with
  | none => exact ends_setReg (hk _) hd h0
  | some dvar =>
    refine Ends.bind (ends_tlocal fun why hno => hE why ?_) fun v _ => loadDyn_ends hd (hk _) h0
    rintro ⟨hle, v, hv, -⟩
    exact hno v hle (hm'.2 ▸ hv)

theorem execStts_ends (hE : Blames E k m .thread id) : Ends (Kept m) E (execStts k id rd m) := by
  refine Ends.bind (ends_assertBase fun why hb => hE why fun hit => hb hit.1) fun _ _ => ?_
  refine threadKeys_ends.bind fun m' hm' => ?_
  refine Ends.bind (ends_tlocal fun why hno => hE why ?_) fun v _ => ?_
  · rintro ⟨hle, v, hv, -⟩
    exact hno v hle (hm'.2 ▸ hv)
  · refine (ends_reg hd).bind fun r _ => ?_
    exact hm'.1.trans ((Kept.env m' _).trans (kept_storeDyn _ _ _))

section

variable (hs : scope = .global ∨ scope = .thread)

include hs

omit hd in
theorem arrayKeys_ends (ht : m.ttop ≤ dtrNregs) (hE : Blames E k m scope id) :
    Ends (fun p => Kept m p.1) E (arrayKeys k scope id m) := by
  refine Ends.bind (ends_assertBase fun why hb => hE why fun hit => hb hit.1) fun _ _ => ?_
  refine (ends_setTup (by omega)).bind fun m' hm' => ?_
  rcases hs with rfl | rfl
  · refine Ends.bind (ends_statvar fun why hno => hE why ?_) fun svar _ => hm'.1
    rintro ⟨hle, svar, hv, -⟩
    exact hno svar hle (hm'.2.2 ▸ hv)
  · refine (ends_setTup (by omega)).bind fun m'' hm'' => ?_
    refine Ends.bind (ends_tlocal fun why hno => hE why ?_) fun v _ => hm'.1.trans hm''.1
    rintro ⟨hle, v, hv, -⟩
    exact hno v hle (hm''.2.2 ▸ hm'.2.2 ▸ hv)

theorem execLdaa_ends (ht : m.ttop ≤ dtrNregs) (h0 : rd ≠ 0) (hE : Blames E k m scope id) :
    Ends (Kept m) E (execLdaa k scope id rd m) := by
  refine (arrayKeys_ends hs ht hE).bind fun p hp => ?_
  exact fetchDyn_ends hd hp h0

theorem execStaa_ends (ht : m.ttop ≤ dtrNregs) (hE : Blames E k m scope id) :
    Ends (Kept m) E (execStaa k scope id rd m) := by
  refine (arrayKeys_ends hs ht hE).bind fun p hp => ?_
  obtain ⟨m', nkeys, v⟩ := p
  refine (ends_reg hd).bind fun r _ => ?_
  exact hp.trans ((Kept.env m' _).trans (kept_storeDyn _ _ _))

end

theorem execPushtr_ends {type r2 : ℕ} (h2 : r2 < dirNregs) (ht : m.ttop ≤ dtrNregs) :
    Ends (Kept m) E (execPushtr k type r2 rd m) := by
  rw [execPushtr]
  by_cases hfull : m.ttop = dtrNregs
  · rw [if_pos hfull]
    exact Kept.env m _
  rw [if_neg hfull]
  refine (ends_reg hd).bind fun v _ => ?_
  refine (ends_reg h2).bind fun n _ => ?_
  refine (ends_setTup (by omega)).bind fun m' hm' => ?_
  have hk := (Kept.env m _).trans hm'.1
  refine { hk with ttop := fun _ => ?_ }
  rw [hm'.2.1]
  exact lt_of_le_of_ne ht hfull

theorem execPushtv_ends (ht : m.ttop ≤ dtrNregs) : Ends (Kept m) E (execPushtv rd m) := by
  rw [execPushtv]
  by_cases hfull : m.ttop = dtrNregs
  · rw [if_pos hfull]
    exact Kept.env m _
  rw [if_neg hfull]
  refine (ends_reg hd).bind fun v _ => ?_
  refine (ends_setTup (by omega)).bind fun m' hm' => ?_
  refine { hm'.1 with ttop := fun _ => ?_ }
  rw [hm'.2.1]
  exact lt_of_le_of_ne ht hfull

end

/-- What an instruction at `pc` does. -/
structure Advanced (pc : ℕ) (m m' : Machine X) : Prop where
  r0 : m.regs regR0 = 0 → m'.regs regR0 = 0
  ttop : m.ttop ≤ dtrNregs → m'.ttop ≤ dtrNregs
  forward : pc < m'.pc
  tables : m.vstate.Same m'.vstate

theorem Kept.advanced {m m' : Machine X} (h : Kept m m') (hpc : m.pc = pc + 1) : Advanced pc m m' :=
  ⟨h.r0, h.ttop, by rw [h.pc, hpc]; exact Nat.lt_succ_self pc, h.tables⟩

/-- The quotient does not fit: the least integer divided by -1. -/
def Alu.Overflows (f : Alu) (a b : BitVec 64) : Prop :=
  (f = sdiv ∨ f = srem) ∧ a = .intMin 64 ∧ b = -1

/-- The instruction divides registers whose quotient does not fit. -/
def Instr.Traps (m : Machine X) (instr : Instr) : Prop :=
  ∃ f a b, opcode instr = some (.alu f) ∧ m.reg (instrR1 instr) = .ok a ∧
    m.reg (instrR2 instr) = .ok b ∧ f.Overflows a b

/-- What an instruction may stop at: a variable it names that is not there, or a division
    that overflows. -/
def Blame (ncpu : ℕ) (m : Machine X) (instr : Instr) : Stop → Prop
  | .var scope id _ => varAccess instr = some (scope, id) ∧ ¬ Hits ncpu m.vstate scope id
  | .divide => Instr.Traps m instr
  | _ => False

theorem Alu.eval_ends {f : Alu} {a b : BitVec 64} (hE : f.Overflows a b → E .divide) :
    Ends (fun _ => True) E (f.eval a b) := by
  cases f
  case sdiv | srem =>
    rw [Alu.eval]
    split_ifs with h0 ho
    · exact trivial
    · exact hE ⟨by simp, ho⟩
    · exact trivial
  case udiv | urem =>
    rw [Alu.eval]
    split_ifs <;> exact trivial
  all_goals exact trivial

variable {dp : Difo} {instr : Instr} {o : Op}

/-- Whether an operation looks a variable up in the tables. -/
def Op.isVar : Op → Bool
  | .ldgs | .stgs | .ldls | .stls | .ldts | .stts | .ldgaa | .stgaa | .ldtaa | .sttaa => true
  | _ => false

/-- An operation on variables blames the variable it names. -/
theorem exec_var_ends (hv : Valid dirNregs dp pc instr) (hop : opcode instr = some o)
    (hvar : o.isVar = true) (ht : m.ttop ≤ dtrNregs) :
    Ends (Kept m) (Blame k.ncpu m instr) (exec k dp instr m) := by
  have blame : ∀ {scope id}, varAccess instr = some (scope, id) → ∀ why,
      ¬ Hits k.ncpu m.vstate scope id → Blame k.ncpu m instr (.var scope id why) :=
    fun ha _ hno => ⟨ha, hno⟩
  unfold varAccess at blame
  unfold exec Valid at *
  simp only [hop] at hv blame ⊢
  cases o with
  | ldgs =>
    obtain ⟨-, hd, h0⟩ := hv
    exact execLdgs_ends hd h0 fun hb => blame (if_pos hb)
  | ldls =>
    obtain ⟨-, hd, h0⟩ := hv
    exact execLdls_ends hd h0 fun hb => blame (if_pos hb)
  | ldts =>
    obtain ⟨-, hd, h0⟩ := hv
    exact execLdts_ends hd h0 (blame rfl)
  | ldgaa =>
    obtain ⟨-, hd, h0⟩ := hv
    exact execLdaa_ends hd (.inl rfl) ht h0 (blame rfl)
  | ldtaa =>
    obtain ⟨-, hd, h0⟩ := hv
    exact execLdaa_ends hd (.inr rfl) ht h0 (blame rfl)
  | stgs => exact execStgs_ends hv.2 (blame rfl)
  | stls => exact execStls_ends hv.2 (blame rfl)
  | stts => exact execStts_ends hv.2 (blame rfl)
  | stgaa => exact execStaa_ends hv.2 (.inl rfl) ht (blame rfl)
  | sttaa => exact execStaa_ends hv.2 (.inr rfl) ht (blame rfl)
  | _ => cases hvar

/-- The other operations stop at a division only. -/
theorem exec_plain_ends (hv : Valid dirNregs dp pc instr) (hlen : pc < dp.len)
    (hop : opcode instr = some o) (hvar : o.isVar = false) (hpc : m.pc = pc + 1)
    (ht : m.ttop ≤ dtrNregs) :
    Ends (Advanced pc m) (Blame k.ncpu m instr) (exec k dp instr m) := by
  have kept : ∀ {x}, Ends (Kept m) (Blame k.ncpu m instr) x →
      Ends (Advanced pc m) (Blame k.ncpu m instr) x :=
    fun h => h.mono fun m' hm' => hm'.advanced hpc
  unfold exec Valid at *
  simp only [hop] at hv ⊢
  cases o with
  | alu f =>
    obtain ⟨h1, h2, hd, h0⟩ := hv
    refine kept ((ends_reg h1).bind fun a ha => ?_)
    refine (ends_reg h2).bind fun b hb => ?_
    refine Ends.bind (Alu.eval_ends fun ho => ?_) fun p _ => ends_setReg (.env m _) hd h0
    exact ⟨f, a, b, hop, ha, hb, ho⟩
  | not | mov =>
    obtain ⟨h1, -, hd, h0⟩ := hv
    exact kept ((ends_reg h1).bind fun a _ => ends_setReg (.refl m) hd h0)
  | cmp =>
    obtain ⟨h1, h2, -⟩ := hv
    refine kept ((ends_reg h1).bind fun a _ => ?_)
    exact (ends_reg h2).bind fun b _ => ⟨id, id, rfl, .refl _⟩
  | tst =>
    obtain ⟨h1, -, -⟩ := hv
    exact kept ((ends_reg h1).bind fun a _ => ⟨id, id, rfl, .refl _⟩)
  | branch c =>
    obtain ⟨-, hfwd⟩ := hv
    dsimp only
    by_cases hc : c.holds m = true
    · rw [if_pos hc]
      exact ⟨id, id, hfwd, .refl _⟩
    · rw [if_neg hc]
      exact (Kept.refl m).advanced hpc
  | load sp l =>
    obtain ⟨h1, -, hd, h0⟩ := hv
    cases sp with
    | kernel => exact kept (execLoad_ends h1 hd h0)
    | restricted => exact kept (execRestrictedLoad_ends h1 hd h0)
    | user => exact kept (execUserLoad_ends h1 hd h0)
  | ret =>
    obtain ⟨-, -, hd⟩ := hv
    exact (ends_reg hd).bind fun v _ => ⟨id, id, hlen, .refl _⟩
  | nop => exact kept (Kept.refl m)
  | setx =>
    obtain ⟨hi, hd, h0⟩ := hv
    rw [getElem?_eq_getElem hi]
    exact kept (ends_setReg (.refl m) hd h0)
  | sets =>
    obtain ⟨hi, hd, h0⟩ := hv
    rw [if_pos hi]
    exact kept (ends_setReg (.refl m) hd h0)
  | scmp =>
    obtain ⟨h1, h2, -⟩ := hv
    exact kept (execScmp_ends h1 h2)
  | ldga =>
    obtain ⟨-, h2, hd, h0⟩ := hv
    exact kept ((ends_reg h2).bind fun ndx _ => ends_setReg (.env m _) hd h0)
  | ldta =>
    obtain ⟨-, -, hd, h0⟩ := hv
    exact kept (ends_setReg (.env m _) hd h0)
  | call =>
    obtain ⟨-, hd, h0⟩ := hv
    exact kept ((ends_reg hd).bind fun old _ => ends_setReg (.env m _) hd h0)
  | pushtr => exact kept (execPushtr_ends hv.2.2 hv.2.1 ht)
  | pushtv => exact kept (execPushtv_ends hv.2.2 ht)
  | popts => exact kept ⟨id, fun h => le_trans (Nat.sub_le _ _) h, rfl, .refl _⟩
  | flushts => exact kept ⟨id, fun _ => Nat.zero_le _, rfl, .refl _⟩
  | allocs =>
    obtain ⟨h1, -, hd, h0⟩ := hv
    exact kept (execAllocs_ends h1 hd h0)
  | copys =>
    obtain ⟨h1, h2, hd, -⟩ := hv
    exact kept (execCopys_ends h1 hd h2)
  | store w =>
    obtain ⟨h1, -, hd, -⟩ := hv
    exact kept (execStore_ends h1 hd)
  | _ => cases hvar

/-- **AN INSTRUCTION**: what a valid instruction does, and what it may stop at. -/
theorem exec_ends (hv : Valid dirNregs dp pc instr) (hlen : pc < dp.len)
    (hpc : m.pc = pc + 1) (ht : m.ttop ≤ dtrNregs) :
    Ends (Advanced pc m) (Blame k.ncpu m instr) (exec k dp instr m) := by
  cases hop : opcode instr with
  | none =>
    rw [Valid, hop] at hv
    exact hv.elim
  | some o =>
    cases hvar : o.isVar with
    | true => exact (exec_var_ends hv hop hvar ht).mono fun m' hm' => hm'.advanced hpc
    | false => exact exec_plain_ends hv hlen hop hvar hpc ht

/-- The state in which `dtrace_dif_emulate` enters its loop.  Registers and tuple registers
    hold whatever was on the stack, but for `%r0`. -/
def Machine.start (vs : Vstate) (env : Env X) (regs : Fin dirNregs → BitVec 64)
    (tupregs : Fin (dtrNregs + 2) → Key) : Machine X where
  pc := 0
  opc := 0
  regs := Function.update regs regR0 0
  tupregs := tupregs
  ttop := 0
  ccN := false
  ccZ := false
  ccV := false
  ccC := false
  rval := 0
  vstate := vs
  env := env

structure Sound (m : Machine X) : Prop where
  r0 : m.regs regR0 = 0
  ttop : m.ttop ≤ dtrNregs

theorem Machine.start_sound (vs : Vstate) (env : Env X) (regs : Fin dirNregs → BitVec 64)
    (tupregs : Fin (dtrNregs + 2) → Key) : Sound (Machine.start vs env regs tupregs) :=
  ⟨Function.update_self regR0 0 regs, Nat.zero_le _⟩

theorem Advanced.sound {m m' : Machine X} (h : Advanced pc m m') (hm : Sound m) : Sound m' :=
  ⟨h.r0 hm.r0, h.ttop hm.ttop⟩

def Difo.ValidText (dp : Difo) : Prop := ∀ pc i, dp.buf[pc]? = some i → Valid dirNregs dp pc i

theorem step_ends (hv : dp.ValidText) (hm : Sound m) (hg : m.goesOn dp) :
    ∃ instr, dp.buf[m.pc]? = some instr ∧
      Ends (Advanced m.pc m) (Blame k.ncpu m instr) (step k dp m) := by
  obtain ⟨instr, hi⟩ : ∃ instr, dp.buf[m.pc]? = some instr := ⟨_, getElem?_eq_getElem hg.1⟩
  refine ⟨instr, hi, ?_⟩
  have hstep : step k dp m = exec k dp instr { m with opc := m.pc, pc := m.pc + 1 } := by
    rw [step, hi]
  rw [hstep]
  have h := exec_ends (k := k) (m := { m with opc := m.pc, pc := m.pc + 1 }) (hv _ _ hi) hg.1
    rfl hm.ttop
  cases hs : exec k dp instr { m with opc := m.pc, pc := m.pc + 1 } with
  | ok m' =>
    rw [hs] at h
    exact { h with }
  | error s =>
    rw [hs] at h
    cases s with
    | var scope id why | divide => exact h
    | register r | integer i | string i | tuple i => exact h.elim

/-! ## Past a look-up that misses

    A kernel without `ASSERT`s does not stop at an entry that is not there: it takes the
    memory beyond the table for one, and goes on. -/

/-- What an instruction finds and leaves beyond the tables. -/
structure Beyond (X : Type) where
  value : BitVec 64
  tupregs : Fin (dtrNregs + 2) → Key
  vstate : Vstate
  env : Env X

/-- The instruction puts the variable into `rd`. -/
def loadsVar (instr : Instr) : Bool :=
  match opcode instr with
  | some .ldgs | some .ldls | some .ldts | some .ldgaa | some .ldtaa => true
  | _ => false

theorem Valid.loadsVar (hv : Valid dirNregs dp pc instr) (hl : loadsVar instr = true) :
    instrRd instr < dirNregs ∧ instrRd instr ≠ 0 := by
  unfold Valid Dif.loadsVar at *
  cases hop : opcode instr with
  | none => rw [hop] at hl; cases hl
  | some o =>
    simp only [hop] at hv hl
    cases o with
    | ldgs | ldls | ldts | ldgaa | ldtaa => exact hv.2
    | _ => cases hl

/-- A round that missed the tables, with what it found beyond them. -/
def past (w : Machine X → Beyond X) (dp : Difo) (m : Machine X) :
    Exec (Machine X) → Exec (Machine X)
  | .error (.var _ _ _) =>
    let found := w m
    let m := { m with
      opc := m.pc, pc := m.pc + 1, tupregs := found.tupregs, vstate := found.vstate,
      env := found.env }
    match dp.buf[m.opc]? with
    | some instr => if loadsVar instr then m.setReg (instrRd instr) found.value else .ok m
    | none => .ok m
  | r => r

/-- A round of `dtrace_dif_emulate` in a kernel without `ASSERT`s. -/
def stepPast (w : Machine X → Beyond X) (k : Kernel X) (dp : Difo) (m : Machine X) :
    Exec (Machine X) := past w dp m (step k dp m)

def emulatePast (w : Machine X → Beyond X) (k : Kernel X) (dp : Difo) (n : ℕ) (m : Machine X) :
    Loop Stop (Machine X) :=
  whileLoop (Machine.goesOn dp) (stepPast w k dp) n m

/-- The next instruction divides registers whose quotient does not fit. -/
def Machine.Traps (dp : Difo) (m : Machine X) : Prop :=
  ∃ instr, dp.buf[m.pc]? = some instr ∧ Instr.Traps m instr

variable {w : Machine X → Beyond X}

/-- A round of a valid object keeps the machine sound, moves `pc` forward, and uses no
    register, table entry or tuple register that is not there. -/
theorem stepPast_sound (hv : dp.ValidText) (hm : Sound m) (hg : m.goesOn dp) :
    Ends (fun m' => Sound m' ∧ m.pc < m'.pc) (fun s => s = .divide ∧ m.Traps dp)
      (stepPast w k dp m) := by
  obtain ⟨instr, hi, h⟩ := step_ends (k := k) hv hm hg
  rw [stepPast]
  cases hs : step k dp m with
  | ok m' =>
    rw [hs] at h
    exact ⟨h.sound hm, h.forward⟩
  | error s =>
    rw [hs] at h
    cases s with
    | var scope id why =>
      simp only [past, hi]
      cases hl : loadsVar instr with
      | true =>
        obtain ⟨hd, h0⟩ := (hv _ _ hi).loadsVar hl
        rw [if_pos rfl]
        refine (ends_setReg (.refl _) hd h0).mono fun m' hm' => ?_
        exact ⟨⟨hm'.r0 hm.r0, hm'.ttop hm.ttop⟩, by rw [hm'.pc]; exact Nat.lt_succ_self _⟩
      | false => exact ⟨⟨hm.r0, hm.ttop⟩, Nat.lt_succ_self _⟩
    | divide => exact ⟨rfl, instr, hi, h⟩
    | register r | integer i | string i | tuple i => exact h.elim

theorem stepPast_traps (h : m.Traps dp) : stepPast w k dp m = .error .divide := by
  obtain ⟨instr, hi, f, a, b, hop, ha, hb, hf, hab⟩ := h
  have he : f.eval a b = .error .divide := by
    obtain ⟨rfl, rfl⟩ := hab
    rcases hf with rfl | rfl <;> rfl
  have ha' : Machine.reg { m with opc := m.pc, pc := m.pc + 1 } (instrR1 instr) = .ok a := ha
  have hb' : Machine.reg { m with opc := m.pc, pc := m.pc + 1 } (instrR2 instr) = .ok b := hb
  simp only [stepPast, step, hi, exec, hop, ha', hb', bind, Except.bind, he, past]

/-- A round of the object before its loads were rewritten, with the check in front of a
    load from kernel memory that the rewriting is meant to add. -/
def stepChecked (k : Kernel X) (kcheckload : Bool) (dp : Difo) (m : Machine X) :
    Exec (Machine X) :=
  match dp.buf[m.pc]?.bind opcode, dp.buf[m.pc]? with
  | some (.load .kernel l), some instr =>
    if kcheckload then do
      let a ← m.reg (instrR1 instr)
      if k.canstore m.env m.vstate a l.width.bytes then step k dp m
      else .ok { m with opc := m.pc, pc := m.pc + 1, env := m.env.faultAt cpuKpriv a }
    else step k dp m
  | _, _ => step k dp m

theorem exec_checked (kcheckload : Bool) (dp : Difo) (instr : Instr) (m : Machine X) :
    exec k (dp.checked kcheckload) instr m = exec k dp instr m := by
  have hlen := dp.len_checked kcheckload
  unfold exec
  rw [hlen]
  rfl

theorem step_checked (kcheckload : Bool) (dp : Difo) (m : Machine X) :
    step k (dp.checked kcheckload) m = stepChecked k kcheckload dp m := by
  rw [stepChecked]
  cases hi : dp.buf[m.pc]? with
  | none =>
    have hi' : (dp.checked kcheckload).buf[m.pc]? = none := by simp [Difo.checked, hi]
    simp only [step, hi, hi', Option.bind_none]
  | some instr =>
    have hi' : (dp.checked kcheckload).buf[m.pc]? = some (checkLoad kcheckload instr) := by
      simp [Difo.checked, hi]
    simp only [step, hi, hi', Option.bind_some, exec_checked]
    by_cases hload : ∃ l, kcheckload = true ∧ opcode instr = some (.load .kernel l)
    · obtain ⟨l, rfl, hl⟩ := hload
      obtain ⟨hop, h1, -, hd⟩ := opcode_checkLoad hl
      unfold exec
      simp only [hop, hl, h1, hd]
      rfl
    rw [checkLoad_of_ne fun l hk hl => hload ⟨l, hk, hl⟩]
    cases hop : opcode instr with
    | none => rfl
    | some o =>
      cases o with
      | load sp l =>
        cases sp with
        | kernel =>
          have hkc : ¬ kcheckload = true := fun hk => hload ⟨l, hk, hop⟩
          simp only [if_neg hkc]
        | _ => rfl
      | _ => rfl

theorem past_checked (kcheckload : Bool) (r : Exec (Machine X)) :
    past w (dp.checked kcheckload) m r = past w dp m r := by
  have hsame : ∀ instr, loadsVar (checkLoad kcheckload instr) = loadsVar instr ∧
      instrRd (checkLoad kcheckload instr) = instrRd instr := by
    intro instr
    by_cases hload : ∃ l, kcheckload = true ∧ opcode instr = some (.load .kernel l)
    · obtain ⟨l, rfl, hl⟩ := hload
      obtain ⟨hop, -, -, hd⟩ := opcode_checkLoad hl
      exact ⟨by simp only [loadsVar, hop, hl], hd⟩
    · rw [checkLoad_of_ne fun l hk hl => hload ⟨l, hk, hl⟩]
      exact ⟨rfl, rfl⟩
  unfold past
  cases hi : dp.buf[m.pc]? with
  | none => simp [Difo.checked, hi]
  | some instr => simp [Difo.checked, hi, hsame]

/-- **VALIDATED OBJECTS RUN TO AN END**: whatever the functions it calls do, whatever an
    access beyond the tables finds, and whatever the machine, the emulator executes at most
    `dtdo_len` instructions of an accepted object, and comes to the end exactly if it comes
    to no division whose quotient does not fit, which traps.
    At the head of every round `%r0` is zero and the tuple has at most eight registers, no
    instruction uses a register, an integer, a string or a tuple register that is not there,
    and the loads rewritten by the validator are accepted by it and do what the object's own
    loads do where the program may store, and fault elsewhere. -/
theorem validated_emulation {globalMaxsize : ℕ} {tables : Vstate} {kcheckload : Bool}
    {dp dp' : Difo} (h : difoValidate globalMaxsize tables kcheckload dirNregs dp = some (dp', []))
    (k : Kernel X) (w : Machine X → Beyond X) (vs : Vstate) (env : Env X)
    (regs : Fin dirNregs → BitVec 64) (tupregs : Fin (dtrNregs + 2) → Key) :
    ((∃ m, emulatePast w k dp' dp'.len (.start vs env regs tupregs) = .done m) ↔
      ∀ m, Visits (Machine.goesOn dp') (stepPast w k dp') (.start vs env regs tupregs) m →
        m.goesOn dp' → ¬ m.Traps dp') ∧
    ((∃ m, emulatePast w k dp' dp'.len (.start vs env regs tupregs) = .done m) ∨
      emulatePast w k dp' dp'.len (.start vs env regs tupregs) = .stopped .divide) ∧
    (∀ m, Visits (Machine.goesOn dp') (stepPast w k dp') (.start vs env regs tupregs) m →
      m.regs regR0 = 0 ∧ m.ttop ≤ dtrNregs ∧
        (m.goesOn dp' → ¬ m.Traps dp' → ∃ m', stepPast w k dp' m = .ok m' ∧ m.pc < m'.pc)) ∧
    difoValidate globalMaxsize tables kcheckload dirNregs dp' = some (dp', []) ∧
    ∀ n m, emulatePast w k dp' n m =
      whileLoop (Machine.goesOn dp) (fun m => past w dp m (stepChecked k kcheckload dp m)) n m := by
  have hagain := difoValidate_checked h
  have hv : dp'.ValidText := (difoValidate_eq_nil.mp hagain).2.1
  have hstart := Machine.start_sound vs env regs tupregs
  have hvisit : ∀ m, Visits (Machine.goesOn dp') (stepPast w k dp')
      (.start vs env regs tupregs) m → Sound m := by
    refine fun m hvis => hvis.inv Sound (fun s s' hs hg hb => ?_) hstart
    have hstep := stepPast_sound (k := k) (w := w) hv hs hg
    rw [hb] at hstep
    exact hstep.1
  have hrun := whileLoop_ends (E := fun s => s = .divide) Machine.pc dp'.len (fun m hg => hg.1)
    (fun m hm hg => (stepPast_sound (k := k) (w := w) hv hm hg).imp_error fun s hs => hs.1)
    dp'.len (.start vs env regs tupregs) hstart (Nat.le_add_left _ _)
  refine ⟨⟨?_, fun hno => ?_⟩, ?_, fun m hvis => ?_, hagain, fun n m => ?_⟩
  · rintro ⟨m, hd⟩ m' hvis hg htraps
    obtain ⟨t, ht⟩ := whileLoop_done hvis hd hg
    cases (stepPast_traps htraps).symm.trans ht
  · rcases hrun with ⟨m, hd, -⟩ | ⟨s, hs, -⟩
    · exact ⟨m, hd⟩
    · obtain ⟨m, hvis, hg, he⟩ := whileLoop_stopped hs
      have hstep := stepPast_sound (k := k) (w := w) hv (hvisit m hvis) hg
      rw [he] at hstep
      exact absurd hstep.2 (hno m hvis hg)
  · rcases hrun with ⟨m, hd, -⟩ | ⟨s, hs, rfl, -⟩
    · exact .inl ⟨m, hd⟩
    · exact .inr hs
  · have hm := hvisit m hvis
    refine ⟨hm.r0, hm.ttop, fun hg hno => ?_⟩
    have hstep := stepPast_sound (k := k) (w := w) hv hm hg
    cases hs : stepPast w k dp' m with
    | ok m' =>
      rw [hs] at hstep
      exact ⟨m', rfl, hstep.2⟩
    | error s =>
      rw [hs] at hstep
      exact absurd hstep.2 hno
  · obtain ⟨rfl, -⟩ := difoValidate_eq_nil.mp h
    refine whileLoop_congr (fun m => ?_) (fun m _ => ?_) n m
    · rw [Machine.goesOn, Machine.goesOn, dp.len_checked]
    · rw [stepPast, past_checked, step_checked]

def quietKernel : Kernel Unit where
  canstore _ _ _ _ := false
  canload e _ a _ := (false, e.faultAt cpuKpriv a)
  strcanload e _ a _ := (false, e.faultAt cpuKpriv a)
  vcanload e _ a _ := (false, e.faultAt cpuKpriv a)
  load _ e _ := (0, e)
  fuword _ e _ := (0, e)
  strncmp e _ _ _ := (0, e)
  strlen e _ _ := (0, e)
  strsize _ := 256
  strsizeDefault := 256
  bcopy e _ _ _ := e
  bzero e _ _ := e
  vcopy e _ _ _ := e
  peek _ _ _ := 0
  poke _ e _ _ := e
  difVariable e _ _ := (0, e)
  difSubr e _ _ old _ _ := (old, e)
  dynvar e _ _ _ _ := (none, e)
  thrkey _ := 0
  flushPredcache e := e
  ncpu := 1
  cpuId _ := 0

/-- `setx 0, %r1; ldub [%r1], %r2; ldgs 0x500, %r3; ret %r3`, with no variable in its table. -/
def loadDifo : Difo where
  buf := [0x25000001, 0x1f010002, 0x29050003, 0x23000003]
  inttab := [0x1000]
  strtab := 0
  strlen := 0
  vartab := []
  rtype := ⟨0, 0, 8⟩
  destructive := false

def Vstate.empty : Vstate := ⟨[], [], []⟩

def Env.quiet : Env Unit := ⟨0, 0, 0, 0, 0, ()⟩

/-- Beyond the table stands 42. -/
def beyond42 (m : Machine Unit) : Beyond Unit := ⟨42, m.tupregs, m.vstate, m.env⟩

/-- The load is rewritten and faults, or the emulator reads beyond the table and goes on. -/
theorem validated_emulation_load :
    difoValidate 16384 .empty true dirNregs loadDifo = some (loadDifo.checked true, []) ∧
    (loadDifo.checked true).buf = [0x25000001, 0x4a010002, 0x29050003, 0x23000003] ∧
    ∃ m, emulatePast beyond42 quietKernel (loadDifo.checked true) 4
      (.start .empty .quiet (fun _ => 0) (fun _ => ⟨0, 0⟩)) = .done m := by
  have h : difoValidate 16384 .empty true dirNregs loadDifo =
      some (loadDifo.checked true, []) := by decide
  have hbuf : (loadDifo.checked true).buf = [0x25000001, 0x4a010002, 0x29050003, 0x23000003] := by
    decide
  refine ⟨h, hbuf, (validated_emulation h quietKernel beyond42 .empty .quiet (fun _ => 0)
    (fun _ => ⟨0, 0⟩)).1.mpr ?_⟩
  rintro m - - ⟨instr, hi, f, a, b, hop, -⟩
  have hin := mem_of_getElem? hi
  simp only [hbuf, mem_cons, not_mem_nil, or_false] at hin
  rcases hin with rfl | rfl | rfl | rfl <;> cases hop

/-- `setx intMin, %r1; setx -1, %r2; srem %r1, %r2, %r3; ret %r3`. -/
def remDifo : Difo :=
  { loadDifo with
    buf := [0x25000001, 0x25000102, 0x0b010203, 0x23000003], inttab := [.intMin 64, -1] }

/-- The remainder of an accepted object traps in its third instruction. -/
theorem remainder_traps :
    difoValidate 16384 .empty false dirNregs remDifo = some (remDifo, []) ∧
    ∀ w, emulatePast w quietKernel remDifo 4
      (.start .empty .quiet (fun _ => 0) (fun _ => ⟨0, 0⟩)) = .stopped .divide := by
  exact ⟨by decide, fun _ => rfl⟩

end Sirius.Dtrace.Dif
