import Sirius.Dtrace.DifSafety

/-! # The variables of the installed DIF objects (`dtrace.c`: `dtrace_difo_init`,

    Installing an object enters its variables in the tables, which double until the variable
    fits; a static variable counts the table entries that name it and goes with the last.  The
    emulator looks variables up by the numbers in the text.  The validator reads text and
    table separately, so this is safe for objects whose text names variables of their own
    table. -/

namespace Sirius.Dtrace.Dif

open Sirius.Lib List Option

section

variable {α : Type}

/-- `while (id >= n)` double the table, filling with zeros; at most `fuel` times. -/
def growTable (zero : α) (id : ℕ) : ℕ → List α → List α
  | 0, tab => tab
  | fuel + 1, tab =>
    if id < tab.length then tab
    else growTable zero id fuel (tab ++ replicate (if tab.length = 0 then 1 else tab.length) zero)

end

/-- A zeroed `dtrace_difv_t`. -/
def Difv.zero : Difv := ⟨0, 0, 0, ⟨0, 0, 0⟩⟩

def storageSize (ncpu : ℕ) (scope : Scope) (t : DifType) : ℕ :=
  match scope with
  | .global => if t.byref then t.size + 8 else 0
  | _ => ncpu * if t.byref then t.size + 8 else 8

/-- A new `dtrace_statvar_t`, its storage at `a`. -/
def Statvar.create (ncpu : ℕ) (scope : Scope) (a : BitVec 64) (v : Difv) : Statvar where
  data := if storageSize ncpu scope v.type ≠ 0 then a else 0
  size := storageSize ncpu scope v.type
  refcnt := 0
  var := v

/-- A variable's entry in `dtvs_globals` or `dtvs_locals` gets one more reference. -/
def installStatic (ncpu : ℕ) (scope : Scope) (a : BitVec 64) (tab : List (Option Statvar))
    (v : Difv) : List (Option Statvar) :=
  let id := v.id - varOtherUbase
  let tab := growTable none id (id + 1) tab
  let svar := tab[id]?.join.getD (.create ncpu scope a v)
  tab.set id (some { svar with refcnt := svar.refcnt + 1 })

/-- One round of the loop of `dtrace_difo_init`; `none` is a failed `ASSERT`. -/
def initVar (ncpu : ℕ) (a : BitVec 64) (vs : Vstate) (v : Difv) : Option Vstate :=
  if v.id < varOtherUbase then some vs
  else
    match Scope.decode v.scope with
    | some .thread =>
      let id := v.id - varOtherUbase
      some { vs with tlocals := (growTable .zero id (id + 1) vs.tlocals).set id v }
    | some .loc => some { vs with locals := installStatic ncpu .loc a vs.locals v }
    | some .global => some { vs with globals := installStatic ncpu .global a vs.globals v }
    | none => none

/-- Its loop.  `alloc i` is what `kmem_zalloc` returns for entry `i`. -/
def initVars (ncpu : ℕ) (alloc : ℕ → BitVec 64) : ℕ → List Difv → Vstate → Option Vstate
  | _, [], vs => some vs
  | i, v :: rest, vs => (initVar ncpu (alloc i) vs v).bind (initVars ncpu alloc (i + 1) rest)

/-- `dtrace_difo_init`. -/
def difoInit (ncpu : ℕ) (alloc : ℕ → BitVec 64) (vs : Vstate) (dp : Difo) : Option Vstate :=
  if dp.len = 0 then none else initVars ncpu alloc 0 dp.vartab vs

/-- A variable's entry loses a reference, and goes with the last. -/
def releaseStatic (tab : List (Option Statvar)) (id : ℕ) : Option (List (Option Statvar)) :=
  match tab[id]? with
  | some (some svar) =>
    if svar.refcnt = 0 then none
    else if 0 < svar.refcnt - 1 then
      some (tab.set id (some { svar with refcnt := svar.refcnt - 1 }))
    else if svar.size ≠ 0 ∧ svar.data = 0 then none
    else some (tab.set id none)
  | _ => none

/-- One round of the loop of `dtrace_difo_destroy`. -/
def destroyVar (vs : Vstate) (v : Difv) : Option Vstate :=
  match Scope.decode v.scope with
  | some .thread => some vs
  | some .loc =>
    if v.id < varOtherUbase then some vs
    else (releaseStatic vs.locals (v.id - varOtherUbase)).map fun tab => { vs with locals := tab }
  | some .global =>
    if v.id < varOtherUbase then some vs
    else (releaseStatic vs.globals (v.id - varOtherUbase)).map fun tab => { vs with globals := tab }
  | none => none

/-- `dtrace_difo_destroy`. -/
def difoDestroy : List Difv → Vstate → Option Vstate
  | [], vs => some vs
  | v :: rest, vs => (destroyVar vs v).bind (difoDestroy rest)

/-! ## The tables and the objects that are installed -/

def uses (scope : Scope) (n : ℕ) (vars : List Difv) : ℕ :=
  vars.countP fun v => Scope.decode v.scope = some scope ∧ v.id = n + varOtherUbase

def EntryOk (ncpu : ℕ) (scope : Scope) (n count : ℕ) : Option Statvar → Prop
  | none => count = 0
  | some svar => svar.refcnt = count ∧ 0 < count ∧ svar.var.id = n + varOtherUbase ∧
      Scope.decode svar.var.scope = some scope ∧ svar.Fits ncpu scope

def Statics (ncpu : ℕ) (scope : Scope) (count : ℕ → ℕ) (tab : List (Option Statvar)) : Prop :=
  ∀ n, EntryOk ncpu scope n (count n) tab[n]?.join

structure Threads (count : ℕ → ℕ) (tab : List Difv) : Prop where
  entry : ∀ n v, tab[n]? = some v →
    v.id = 0 ∨ v.id = n + varOtherUbase ∧ Scope.decode v.scope = some .thread
  present : ∀ n, 0 < count n → ∃ v, tab[n]? = some v ∧ v.id = n + varOtherUbase

/-- The tables agree with the variables of the installed objects. -/
structure Tables (ncpu : ℕ) (vs : Vstate) (vars : List Difv) : Prop where
  globals : Statics ncpu .global (fun n => uses .global n vars) vs.globals
  locals : Statics ncpu .loc (fun n => uses .loc n vars) vs.locals
  threads : Threads (fun n => uses .thread n vars) vs.tlocals

theorem growTable_spec {α : Type} (zero : α) (id : ℕ) (fuel : ℕ) (tab : List α)
    (h : id < tab.length + fuel) : id < (growTable zero id fuel tab).length ∧ ∃ c, growTable
    zero id fuel tab = tab ++ replicate c zero := by
  induction fuel generalizing tab with
  | zero =>
    exact ⟨h, 0, (append_nil tab).symm⟩
  | succ fuel ih =>
    rw [growTable]
    by_cases hlt : id < tab.length
    · rw [if_pos hlt]
      exact ⟨hlt, 0, (append_nil tab).symm⟩
    rw [if_neg hlt]
    generalize hc : (if tab.length = 0 then 1 else tab.length) = c
    have hpos : 0 < c := by
      rw [← hc]
      split_ifs <;> omega
    obtain ⟨hin, c', hc'⟩ := ih (tab ++ replicate c zero) (by
      rw [length_append, length_replicate]
      omega)
    refine ⟨hin, c + c', ?_⟩
    rw [hc', append_assoc, replicate_append_replicate]

theorem join_append_replicate {β : Type} (tab : List (Option β)) (c n : ℕ) :
    (tab ++ replicate c none)[n]?.join = tab[n]?.join := by
  rw [getElem?_append]
  split_ifs with hlt
  · rfl
  · rw [getElem?_replicate, getElem?_eq_none (not_lt.mp hlt)]
    split_ifs <;> rfl

theorem uses_cons (scope : Scope) (n : ℕ) (v : Difv) (vars : List Difv) :
    uses scope n (v :: vars) = uses scope n vars +
      if Scope.decode v.scope = some scope ∧ v.id = n + varOtherUbase then 1 else 0 := by
  rw [uses, uses, countP_cons]
  simp only [decide_eq_true_eq]

variable {vars vars' : List Difv}

theorem uses_perm (h : vars.Perm vars') (scope : Scope) (n : ℕ) :
    uses scope n vars = uses scope n vars' := h.countP_eq _

variable {ncpu : ℕ} {vs : Vstate}

theorem Tables.perm (h : Tables ncpu vs vars) (hp : vars.Perm vars') : Tables ncpu vs vars' := by
  obtain ⟨hg, hl, ht⟩ := h
  simp only [uses_perm hp] at hg hl ht
  exact ⟨hg, hl, ht⟩

variable {a : BitVec 64}

theorem Statvar.fits_create (ncpu : ℕ) (scope : Scope) (ha : a ≠ 0)
    (v : Difv) : (Statvar.create ncpu scope a v).Fits ncpu scope := by
  cases scope with
  | global =>
    simp only [Statvar.Fits, Statvar.create, storageSize]
    by_cases hr : v.type.byref = true
    · simp only [if_pos hr]
      exact ⟨trivial, by rw [if_pos (by omega)]; exact ha⟩
    · simp only [if_neg hr]
  | thread | loc => exact ⟨rfl, fun h => ne_of_eq_of_ne (if_pos h) ha⟩

variable {scope : Scope} {v : Difv} {n : ℕ} {alloc : ℕ → BitVec 64} {vs' : Vstate}

theorem Statvar.Fits.refcnt {svar : Statvar} (h : svar.Fits ncpu scope) (c : ℕ) :
    ({ svar with refcnt := c } : Statvar).Fits ncpu scope := h

section

variable {ncpu : ℕ} {scope : Scope} {count : ℕ → ℕ} {tab : List (Option Statvar)}

theorem Statics.install (h : Statics ncpu scope count tab) (ha : a ≠ 0)
    (hid : varOtherUbase ≤ v.id) (hs : Scope.decode v.scope = some scope) :
    Statics ncpu scope (fun n => count n + if v.id = n + varOtherUbase then 1 else 0)
      (installStatic ncpu scope a tab v) := by
  obtain ⟨id, hv⟩ := Nat.exists_eq_add_of_le' hid
  have hsub : v.id - varOtherUbase = id := by omega
  have hgrow := growTable_spec (none : Option Statvar) id (id + 1) tab (by omega)
  rw [installStatic, hsub]
  generalize growTable none id (id + 1) tab = grown at hgrow ⊢
  obtain ⟨hin, c, rfl⟩ := hgrow
  intro n
  have hn := h n
  dsimp only
  by_cases he : n = id
  · subst he
    rw [getElem?_set_self hin, join_append_replicate, if_pos hv]
    cases ht : tab[n]?.join with
    | none =>
      rw [ht] at hn
      have h0 : count n = 0 := hn
      rw [h0]
      exact ⟨rfl, one_pos, hv, hs, (Statvar.fits_create ncpu scope ha v).refcnt _⟩
    | some svar =>
      rw [ht] at hn
      obtain ⟨hr, -, hi, hsc, hf⟩ := hn
      exact ⟨congrArg (· + 1) hr, Nat.succ_pos _, hi, hsc, hf.refcnt _⟩
  · rw [getElem?_set_ne (Ne.symm he), join_append_replicate, if_neg (by omega)]
    exact hn

theorem Statics.release (n : ℕ)
    (h : Statics ncpu scope (fun k => count k + if k = n then 1 else 0) tab) :
    ∃ tab', releaseStatic tab n = some tab' ∧ Statics ncpu scope count tab' := by
  have hn := h n
  simp only [if_pos trivial] at hn
  rw [releaseStatic]
  cases ht : tab[n]? with
  | none =>
    rw [ht] at hn
    exact absurd hn (Nat.succ_ne_zero _)
  | some o =>
    have hin : n < tab.length := (List.getElem?_eq_some_iff.mp ht).1
    have others : ∀ o' k, k ≠ n → EntryOk ncpu scope k (count k) (tab.set n o')[k]?.join := by
      intro o' k hk
      have hk' : EntryOk ncpu scope k (count k + if k = n then 1 else 0) tab[k]?.join := h k
      rw [if_neg hk] at hk'
      rw [getElem?_set_ne (Ne.symm hk)]
      exact hk'
    rw [ht] at hn
    cases o with
    | none => exact absurd hn (Nat.succ_ne_zero _)
    | some svar =>
      obtain ⟨hr, -, hi, hsc, hf⟩ := hn
      dsimp only
      rw [if_neg (by omega)]
      by_cases hlast : 0 < svar.refcnt - 1
      · rw [if_pos hlast]
        refine ⟨_, rfl, fun k => ?_⟩
        by_cases hk : k = n
        · subst hk
          rw [getElem?_set_self hin]
          exact ⟨by simp only [hr]; omega, by omega, hi, hsc, hf.refcnt _⟩
        · exact others _ k hk
      · rw [if_neg hlast]
        have hdata : ¬ (svar.size ≠ 0 ∧ svar.data = 0) := by
          rintro ⟨hsz, hz⟩
          cases scope with
          | global =>
            simp only [Statvar.Fits] at hf
            by_cases hb : svar.var.type.byref = true
            · rw [if_pos hb] at hf
              exact hf.2 hz
            · rw [if_neg hb] at hf
              exact hsz hf
          | thread | loc => exact hf.2 hsz hz
        rw [if_neg hdata]
        refine ⟨_, rfl, fun k => ?_⟩
        by_cases hk : k = n
        · subst hk
          rw [getElem?_set_self hin]
          show count k = 0
          omega
        · exact others _ k hk

end

theorem Threads.install {count : ℕ → ℕ} {tab : List Difv} (h : Threads count tab)
    (hid : varOtherUbase ≤ v.id) (hs : Scope.decode v.scope = some .thread) :
    Threads (fun n => count n + if v.id = n + varOtherUbase then 1 else 0)
      ((growTable .zero (v.id - varOtherUbase) (v.id - varOtherUbase + 1) tab).set
        (v.id - varOtherUbase) v) := by
  obtain ⟨id, hv⟩ := Nat.exists_eq_add_of_le' hid
  have hsub : v.id - varOtherUbase = id := by omega
  have hgrow := growTable_spec Difv.zero id (id + 1) tab (by omega)
  rw [hsub]
  generalize growTable Difv.zero id (id + 1) tab = grown at hgrow ⊢
  obtain ⟨hin, c, rfl⟩ := hgrow
  constructor
  · intro n w hw
    by_cases he : n = id
    · subst he
      rw [getElem?_set_self hin] at hw
      cases hw
      exact .inr ⟨hv, hs⟩
    · rw [getElem?_set_ne (Ne.symm he), getElem?_append] at hw
      split_ifs at hw with hlt
      · exact h.entry n w hw
      · -- A new entry is all zeros.
        obtain ⟨-, rfl⟩ := by simpa only [getElem?_replicate, ite_none_right_eq_some,
          some.injEq] using hw
        exact .inl rfl
  · intro n hn
    by_cases he : n = id
    · subst he
      exact ⟨v, getElem?_set_self hin, hv⟩
    rw [if_neg (by omega)] at hn
    obtain ⟨w, hw, hwid⟩ := h.present n hn
    refine ⟨w, ?_, hwid⟩
    rw [getElem?_set_ne (Ne.symm he), List.getElem?_append_left (List.getElem?_eq_some_iff.mp hw).1]
    exact hw

section

variable {ncpu : ℕ} {vs : Vstate} {vars : List Difv} {v : Difv}

theorem uses_cons_ne (h : Scope.decode v.scope ≠ some scope ∨ v.id < varOtherUbase) :
    uses scope n (v :: vars) = uses scope n vars := by
  have hno : ¬ (Scope.decode v.scope = some scope ∧ v.id = n + varOtherUbase) := by
    rintro ⟨hs, hid⟩
    rcases h with h | h
    · exact h hs
    · omega
  rw [uses_cons, if_neg hno, add_zero]

theorem uses_cons_eq (hs : Scope.decode v.scope = some scope) (n : ℕ) :
    uses scope n (v :: vars) = uses scope n vars + if v.id = n + varOtherUbase then 1 else 0 := by
  rw [uses_cons]
  simp only [hs, true_and]

theorem uses_other {scope : Scope} (hs : Scope.decode v.scope = some scope) (scope' : Scope)
    (hne : scope' ≠ scope) (n : ℕ) : uses scope' n (v :: vars) = uses scope' n vars :=
  uses_cons_ne (.inl fun he => hne (some.inj (he.symm.trans hs)))

theorem Tables.initVar (h : Tables ncpu vs vars) (ha : a ≠ 0) (hs : (Scope.decode v.scope).isSome) :
    ∃ vs', initVar ncpu a vs v = some vs' ∧ Tables ncpu vs' (v :: vars) := by
  rw [Dif.initVar]
  by_cases hb : v.id < varOtherUbase
  · rw [if_pos hb]
    refine ⟨vs, rfl, ?_⟩
    obtain ⟨hg, hl, ht⟩ := h
    constructor <;> simp only [uses_cons_ne (.inr hb)] <;> assumption
  rw [if_neg hb]
  obtain ⟨scope, hsc⟩ := isSome_iff_exists.mp hs
  have hid := not_lt.mp hb
  rw [hsc]
  cases scope with
  | global =>
    refine ⟨_, rfl, ?_, ?_, ?_⟩
    · simp only [uses_cons_eq hsc]
      exact h.globals.install ha hid hsc
    · simp only [uses_other hsc .loc nofun]
      exact h.locals
    · simp only [uses_other hsc .thread nofun]
      exact h.threads
  | thread =>
    refine ⟨_, rfl, ?_, ?_, ?_⟩
    · simp only [uses_other hsc .global nofun]
      exact h.globals
    · simp only [uses_other hsc .loc nofun]
      exact h.locals
    · simp only [uses_cons_eq hsc]
      exact h.threads.install hid hsc
  | loc =>
    refine ⟨_, rfl, ?_, ?_, ?_⟩
    · simp only [uses_other hsc .global nofun]
      exact h.globals
    · simp only [uses_cons_eq hsc]
      exact h.locals.install ha hid hsc
    · simp only [uses_other hsc .thread nofun]
      exact h.threads

theorem Tables.initVars (ha : ∀ i, alloc i ≠ 0) :
    ∀ (tab : List Difv) (i : ℕ) (vs : Vstate) (vars : List Difv), Tables ncpu vs vars →
      (∀ v ∈ tab, (Scope.decode v.scope).isSome) →
      ∃ vs', initVars ncpu alloc i tab vs = some vs' ∧ Tables ncpu vs' (tab ++ vars) := by
  intro tab
  induction tab with
  | nil =>
    intro i vs vars h _
    exact ⟨vs, rfl, h⟩
  | cons v rest ih =>
    intro i vs vars h hs
    obtain ⟨vs1, h1, ht1⟩ := h.initVar (ha i) (hs v (mem_cons_self ..))
    obtain ⟨vs2, h2, ht2⟩ := ih (i + 1) vs1 (v :: vars) ht1 fun w hw => hs w (mem_cons_of_mem _ hw)
    refine ⟨vs2, by rw [Dif.initVars, h1]; exact h2, ht2.perm ?_⟩
    exact perm_middle

theorem Tables.destroyVar (h : Tables ncpu vs (v :: vars)) (hs : (Scope.decode v.scope).isSome) :
    ∃ vs', destroyVar vs v = some vs' ∧ Tables ncpu vs' vars := by
  obtain ⟨scope, hsc⟩ := isSome_iff_exists.mp hs
  obtain ⟨hg, hl, ht⟩ := h
  rw [Dif.destroyVar, hsc]
  -- Reference counts drop for a user-defined static variable only.
  have counted : ∀ n, v.id = n + varOtherUbase → ∀ m,
      uses scope m (v :: vars) = uses scope m vars + if m = n then 1 else 0 := by
    intro n hn m
    rw [uses_cons_eq hsc]
    by_cases hm : m = n
    · rw [if_pos hm, if_pos (hm ▸ hn)]
    · rw [if_neg hm, if_neg (by omega)]
  cases scope with
  | global =>
    simp only [uses_other hsc .loc nofun] at hl
    simp only [uses_other hsc .thread nofun] at ht
    dsimp only
    by_cases hb : v.id < varOtherUbase
    · rw [if_pos hb]
      simp only [uses_cons_ne (.inr hb)] at hg
      exact ⟨vs, rfl, hg, hl, ht⟩
    · rw [if_neg hb]
      simp only [counted (v.id - varOtherUbase) (by omega)] at hg
      obtain ⟨tab', htab, hg'⟩ := Statics.release _ hg
      exact ⟨{ vs with globals := tab' }, by rw [htab]; rfl, hg', hl, ht⟩
  | thread =>
    simp only [uses_other hsc .global nofun] at hg
    simp only [uses_other hsc .loc nofun] at hl
    refine ⟨vs, rfl, hg, hl, ht.entry, fun n hn => ht.present n ?_⟩
    rw [uses_cons]
    omega
  | loc =>
    simp only [uses_other hsc .global nofun] at hg
    simp only [uses_other hsc .thread nofun] at ht
    by_cases hb : v.id < varOtherUbase
    · rw [if_pos hb]
      simp only [uses_cons_ne (.inr hb)] at hl
      exact ⟨vs, rfl, hg, hl, ht⟩
    · rw [if_neg hb]
      simp only [counted (v.id - varOtherUbase) (by omega)] at hl
      obtain ⟨tab', htab, hl'⟩ := Statics.release _ hl
      exact ⟨{ vs with locals := tab' }, by rw [htab]; rfl, hg, hl', ht⟩

theorem Tables.difoDestroy :
    ∀ (tab : List Difv) (vs : Vstate), Tables ncpu vs (tab ++ vars) →
      (∀ v ∈ tab, (Scope.decode v.scope).isSome) →
      ∃ vs', difoDestroy tab vs = some vs' ∧ Tables ncpu vs' vars := by
  intro tab
  induction tab with
  | nil =>
    intro vs h _
    exact ⟨vs, rfl, h⟩
  | cons v rest ih =>
    intro vs h hs
    obtain ⟨vs1, h1, ht1⟩ := Tables.destroyVar h (hs v (mem_cons_self ..))
    obtain ⟨vs2, h2, ht2⟩ := ih vs1 ht1 fun w hw => hs w (mem_cons_of_mem _ hw)
    exact ⟨vs2, by rw [Dif.difoDestroy, h1]; exact h2, ht2⟩

end

/-! ## What the validator says about variables -/

theorem Scope.decode_inj {a b : ℕ} {s : Scope} (ha : Scope.decode a = some s)
    (hb : Scope.decode b = some s) : a = b := by
  unfold Scope.decode at ha hb
  split at ha <;> split at hb <;> cases ha <;> cases hb <;> rfl

section

variable (h : Tables ncpu vs vars)

include h

theorem Tables.existing {e : Difv} (he : vs.existing scope n = some e) :
    e.id = 0 ∨ e.id = n + varOtherUbase ∧ Scope.decode e.scope = some scope := by
  cases scope with
  | global =>
    obtain ⟨svar, hs, rfl⟩ := map_eq_some_iff.mp he
    have hn := h.globals n
    rw [hs] at hn
    exact .inr ⟨hn.2.2.1, hn.2.2.2.1⟩
  | thread => exact h.threads.entry n e he
  | loc =>
    obtain ⟨svar, hs, rfl⟩ := map_eq_some_iff.mp he
    have hn := h.locals n
    rw [hs] at hn
    exact .inr ⟨hn.2.2.1, hn.2.2.2.1⟩

theorem Tables.checkVar (globalMaxsize i : ℕ) (v : Difv) :
    ∃ err, checkVar globalMaxsize vs i v = some err ∧
      (err = [] → (Scope.decode v.scope).isSome) := by
  rw [Dif.checkVar]
  cases hs : Scope.decode v.scope with
  | none => exact ⟨_, rfl, nofun⟩
  | some scope =>
    dsimp only
    split_ifs with _ _ hb
    · exact ⟨_, rfl, nofun⟩
    · exact ⟨_, rfl, nofun⟩
    · exact ⟨_, rfl, fun _ => rfl⟩
    · exact ⟨_, rfl, nofun⟩
    · exact ⟨_, rfl, nofun⟩
    cases he : vs.existing scope (v.id - varOtherUbase) with
    | none => exact ⟨[], rfl, fun _ => rfl⟩
    | some e =>
      rw [checkExisting]
      by_cases h0 : e.id = 0
      · rw [if_pos h0]
        exact ⟨[], rfl, fun _ => rfl⟩
      rw [if_neg h0]
      obtain h0' | ⟨hid, hsc⟩ := h.existing he
      · exact absurd h0' h0
      · have hscope := Scope.decode_inj hsc hs
        rw [if_neg (by omega)]
        exact ⟨_, rfl, fun _ => rfl⟩

theorem Tables.validateVars (globalMaxsize : ℕ) (tab : List Difv) (i : ℕ) : ∃ err,
    validateVars globalMaxsize vs i tab = some err ∧ (err = [] → ∀ v ∈ tab, (Scope.decode
    v.scope).isSome) := by
  induction tab generalizing i with
  | nil =>
    exact ⟨[], rfl, nofun⟩
  | cons v rest ih =>
    obtain ⟨err, hc, hs⟩ := h.checkVar globalMaxsize i v
    rw [Dif.validateVars, hc]
    cases err with
    | nil =>
      obtain ⟨err', hr, hs'⟩ := ih (i + 1)
      refine ⟨err', hr, fun hnil w hw => ?_⟩
      rcases mem_cons.mp hw with rfl | hw
      · exact hs rfl
      · exact hs' hnil w hw
    | cons e err => exact ⟨_, rfl, nofun⟩

theorem Tables.difoValidate (globalMaxsize : ℕ) (kcheckload : Bool) (nregs : ℕ) (dp : Difo) :
    (difoValidate globalMaxsize vs kcheckload nregs dp).isSome := by
  obtain ⟨err, hv, -⟩ := h.validateVars globalMaxsize dp.vartab 0
  rw [Dif.difoValidate]
  split
  · rw [hv]
    rfl
  · rfl

omit h in
theorem Statvar.Same.fits {a b : Statvar} (h : a.Same b)
    (hf : a.Fits ncpu .global) : b.Fits ncpu .global := by
  obtain ⟨h1, -, h3, h4⟩ := h
  simp only [Statvar.Fits] at hf ⊢
  rw [h3, h1]
  by_cases hr : a.var.type.byref = true
  · rw [h4 hr]
    exact hf
  · rw [if_neg hr] at hf ⊢
    exact hf

omit h in
theorem Vstate.Same.join (h : vs.Same vs') (n : ℕ) :
    Option.Rel Statvar.Same vs.globals[n]?.join vs'.globals[n]?.join := by
  obtain ⟨hlen, hget⟩ := forall₂_iff_get.mp h.globals
  by_cases hn : n < vs.globals.length
  · have hn' : n < vs'.globals.length := hlen ▸ hn
    have := hget n hn hn'
    rw [getElem?_eq_getElem hn, getElem?_eq_getElem hn']
    exact this
  · rw [getElem?_eq_none (not_lt.mp hn), getElem?_eq_none (hlen ▸ not_lt.mp hn)]
    exact .none

theorem Tables.same (hs : vs.Same vs') : Tables ncpu vs' vars := by
  refine ⟨fun n => ?_, hs.locals ▸ h.locals, hs.tlocals ▸ h.threads⟩
  have hn := h.globals n
  have hj := hs.join n
  generalize vs.globals[n]?.join = o at hn hj
  generalize vs'.globals[n]?.join = o' at hj ⊢
  cases hj with
  | none => exact hn
  | some hab =>
    obtain ⟨hr, hpos, hid, hsc, hf⟩ := hn
    obtain ⟨h1, h2, h3, h4⟩ := hab
    exact ⟨h2.trans hr, hpos, h3 ▸ hid, h3 ▸ hsc, Statvar.Same.fits ⟨h1, h2, h3, h4⟩ hf⟩

/-- The text of an object names variables of the object's own table only. -/
def Difo.Covered (dp : Difo) : Prop :=
  ∀ instr ∈ dp.buf, ∀ scope id, varAccess instr = some (scope, id) →
    varOtherUbase ≤ id ∧ ∃ v ∈ dp.vartab, v.id = id ∧ Scope.decode v.scope = some scope

theorem Tables.hits (hv : v ∈ vars) (hs : Scope.decode v.scope = some scope)
    (hid : varOtherUbase ≤ v.id) : Hits ncpu vs scope v.id := by
  obtain ⟨n, hn⟩ := Nat.exists_eq_add_of_le' hid
  have hsub : v.id - varOtherUbase = n := by omega
  have hpos : 0 < uses scope n vars := by
    rw [uses, countP_pos_iff]
    exact ⟨v, hv, by simp [hs, hn]⟩
  -- A static variable in use has an entry.
  have static : ∀ tab : List (Option Statvar),
      EntryOk ncpu scope n (uses scope n vars) tab[n]?.join →
      ∃ svar, tab[n]? = some (some svar) ∧ svar.var.id = v.id ∧ svar.Fits ncpu scope := by
    intro tab hok
    cases hj : tab[n]?.join with
    | none =>
      rw [hj] at hok
      exact absurd hok (by show uses scope n vars ≠ 0; omega)
    | some svar =>
      rw [hj] at hok
      exact ⟨svar, join_eq_some_iff.mp hj, hok.2.2.1.trans hn.symm, hok.2.2.2.2⟩
  refine ⟨hid, ?_⟩
  rw [hsub]
  cases scope with
  | global => exact static _ (h.globals n)
  | loc => exact static _ (h.locals n)
  | thread =>
    obtain ⟨w, hw, hwid⟩ := h.threads.present n hpos
    exact ⟨w, hw, hwid.trans hn.symm⟩

end

/-! ## Every history of a consumer -/

/-- The variables and the objects of a consumer: objects are validated and installed, run an
    instruction at a time on any CPU, and destroyed.  An instruction may be taken in any sound state
    of a machine, so the runs of all CPUs are interleaved with each other and with the rest.
    Installing and destroying are atomic, with the growth of a table: the source copies it and
    then changes the pointer and the length.  A history ends where an instruction stops, at a
    store outside the tables, say.  Objects are installed if `ok`. -/
inductive Reachable (X : Type) (globalMaxsize ncpu : ℕ) (ok : Difo → Prop) :
    Vstate → List Difo → Prop
  | init : Reachable X globalMaxsize ncpu ok .empty []
  | install {vs vs' : Vstate} {ds : List Difo} {dp dp' : Difo} {kcheckload : Bool}
      {alloc : ℕ → BitVec 64} (h : Reachable X globalMaxsize ncpu ok vs ds)
      (hval : difoValidate globalMaxsize vs kcheckload dirNregs dp = some (dp', []))
      (hok : ok dp') (halloc : ∀ i, alloc i ≠ 0) (hinit : difoInit ncpu alloc vs dp' = some vs') :
      Reachable X globalMaxsize ncpu ok vs' (dp' :: ds)
  | destroy {vs vs' : Vstate} {ds ds' : List Difo} {dp : Difo}
      (h : Reachable X globalMaxsize ncpu ok vs (ds ++ dp :: ds'))
      (hd : difoDestroy dp.vartab vs = some vs') :
      Reachable X globalMaxsize ncpu ok vs' (ds ++ ds')
  | exec {ds : List Difo} {dp : Difo} {m m' : Machine X} {k : Kernel X}
      (h : Reachable X globalMaxsize ncpu ok m.vstate ds) (hdp : dp ∈ ds) (hm : Sound m)
      (hgo : m.goesOn dp) (hstep : step k dp m = .ok m') :
      Reachable X globalMaxsize ncpu ok m'.vstate ds

structure Consistent (ncpu : ℕ) (ok : Difo → Prop) (vs : Vstate) (ds : List Difo) : Prop where
  tables : Tables ncpu vs (ds.flatMap Difo.vartab)
  scopes : ∀ dp ∈ ds, ∀ v ∈ dp.vartab, (Scope.decode v.scope).isSome
  text : ∀ dp ∈ ds, dp.ValidText
  ok : ∀ dp ∈ ds, ok dp

section

variable {X : Type} {globalMaxsize ncpu : ℕ} {ok : Difo → Prop} {vs : Vstate} {ds : List Difo}
  {dp dp' : Difo} {kcheckload : Bool}

theorem Tables.difoInit (h : Tables ncpu vs vars)
    (hval : Dif.difoValidate globalMaxsize vs kcheckload dirNregs dp = some (dp', []))
    (halloc : ∀ i, alloc i ≠ 0) (hlen : dp'.len ≠ 0) :
    ∃ vs', difoInit ncpu alloc vs dp' = some vs' ∧ Tables ncpu vs' (dp'.vartab ++ vars) ∧
      ∀ v ∈ dp'.vartab, (Scope.decode v.scope).isSome := by
  have hagain := difoValidate_eq_nil.mp (difoValidate_checked hval)
  obtain ⟨err, herr, hsc⟩ := h.validateVars globalMaxsize dp'.vartab 0
  have hscopes := hsc (some.inj (herr.symm.trans hagain.2.2.2.2))
  obtain ⟨vs', hinit, htab⟩ := Tables.initVars halloc dp'.vartab 0 vs _ h hscopes
  exact ⟨vs', by rw [Dif.difoInit, if_neg hlen, hinit], htab, hscopes⟩

theorem Consistent.install (h : Consistent ncpu ok vs ds)
    (hval : difoValidate globalMaxsize vs kcheckload dirNregs dp = some (dp', [])) (hok : ok dp')
    (halloc : ∀ i, alloc i ≠ 0) (hlen : dp'.len ≠ 0) :
    ∃ vs', difoInit ncpu alloc vs dp' = some vs' ∧ Consistent ncpu ok vs' (dp' :: ds) := by
  obtain ⟨vs', hinit, htab, hscopes⟩ := h.tables.difoInit hval halloc hlen
  have hvalid := (difoValidate_eq_nil.mp (difoValidate_checked hval)).2.1
  refine ⟨vs', hinit, htab, ?_, ?_, ?_⟩
  · exact forall_mem_cons.mpr ⟨hscopes, h.scopes⟩
  · exact forall_mem_cons.mpr ⟨hvalid, h.text⟩
  · exact forall_mem_cons.mpr ⟨hok, h.ok⟩

theorem Consistent.destroy {ds' : List Difo} (h : Consistent ncpu ok vs (ds ++ dp :: ds')) :
    ∃ vs', difoDestroy dp.vartab vs = some vs' ∧ Consistent ncpu ok vs' (ds ++ ds') := by
  have hperm : ((ds ++ dp :: ds').flatMap Difo.vartab).Perm
      (dp.vartab ++ (ds ++ ds').flatMap Difo.vartab) :=
    Perm.flatMap_right Difo.vartab perm_middle
  obtain ⟨vs', hd, htab⟩ := Tables.difoDestroy dp.vartab vs (h.tables.perm hperm)
    (h.scopes dp (by simp))
  have sub : ∀ d ∈ ds ++ ds', d ∈ ds ++ dp :: ds' := by
    intro d hd
    rcases mem_append.mp hd with hd | hd
    · exact mem_append_left _ hd
    · exact mem_append_right _ (mem_cons_of_mem _ hd)
  exact ⟨vs', hd, htab, fun d hd => h.scopes d (sub d hd), fun d hd => h.text d (sub d hd),
    fun d hd => h.ok d (sub d hd)⟩

theorem Consistent.exec {m m' : Machine X} {k : Kernel X} (h : Consistent ncpu ok m.vstate ds)
    (hdp : dp ∈ ds) (hm : Sound m) (hgo : m.goesOn dp)
    (hstep : step k dp m = .ok m') : Consistent ncpu ok m'.vstate ds := by
  obtain ⟨instr, -, hends⟩ := step_ends (k := k) (h.text dp hdp) hm hgo
  rw [hstep] at hends
  exact { h with tables := h.tables.same hends.tables }

theorem consistent_empty : Consistent ncpu ok .empty [] := by
  refine ⟨⟨fun n => ?_, fun n => ?_, ⟨fun n v hv => ?_, fun n hn => ?_⟩⟩, nofun, nofun, nofun⟩
  · rfl
  · rfl
  · exact nomatch hv
  · exact absurd hn (lt_irrefl 0)

theorem Reachable.consistent (h : Reachable X globalMaxsize ncpu ok vs ds) :
    Consistent ncpu ok vs ds := by
  induction h with
  | init => exact consistent_empty
  | install h hval hok halloc hinit ih =>
    have hlen : Difo.len _ ≠ 0 := fun h0 => by
      rw [difoInit, if_pos h0] at hinit
      cases hinit
    obtain ⟨vs', hvs', hc⟩ := ih.install hval hok halloc hlen
    cases hvs'.symm.trans hinit
    exact hc
  | destroy h hd ih =>
    obtain ⟨vs', hvs', hc⟩ := ih.destroy
    cases hvs'.symm.trans hd
    exact hc
  | exec h hdp hm hgo hstep ih => exact ih.exec hdp hm hgo hstep

theorem Consistent.hits (h : Consistent ncpu Difo.Covered vs ds) (hdp : dp ∈ ds) {instr : Instr}
    (hi : instr ∈ dp.buf) {id : ℕ}
    (ha : varAccess instr = some (scope, id)) : Hits ncpu vs scope id := by
  obtain ⟨hid, v, hv, rfl, hs⟩ := h.ok dp hdp instr hi scope id ha
  exact h.tables.hits (mem_flatMap.mpr ⟨dp, hdp, hv⟩) hs hid

theorem Consistent.step {m : Machine X} {k : Kernel X} (hk : k.ncpu = ncpu)
    (h : Consistent ncpu Difo.Covered m.vstate ds) (hdp : dp ∈ ds) (hm : Sound m)
    (hgo : m.goesOn dp) {s : Stop} (hs : step k dp m = .error s) : s = .divide := by
  obtain ⟨instr, hi, hends⟩ := step_ends (k := k) (h.text dp hdp) hm hgo
  rw [hs] at hends
  cases s with
  | divide => rfl
  | var scope id why =>
    have hhit := h.hits hdp (mem_of_getElem? hi) hends.1
    rw [← hk] at hhit
    exact absurd hhit hends.2
  | register r | integer i | string i | tuple i => exact hends.elim

/-- **VARIABLES ARE WHERE THEY ARE LOOKED UP**: in every history of a consumer whose objects
    name variables of their own tables only, every look-up of every instruction of an
    installed object finds an initialised entry with its storage, no run of an installed
    object from any machine state stops at a variable, and no `ASSERT` of the functions that
    validate, install and destroy objects fails. -/
theorem variables_in_tables (h : Reachable X globalMaxsize ncpu Difo.Covered vs ds) :
    (∀ dp ∈ ds, ∀ instr ∈ dp.buf, ∀ scope id, varAccess instr = some (scope, id) →
      Hits ncpu vs scope id) ∧ (∀ dp ∈ ds, ∀ k : Kernel X, k.ncpu = ncpu → ∀ env regs tupregs n s,
      emulate k dp n (.start vs env regs tupregs) = .stopped s → s = .divide) ∧
    (∀ dp ∈ ds, (difoDestroy dp.vartab vs).isSome) ∧
    (∀ dp kcheckload nregs, (difoValidate globalMaxsize vs kcheckload nregs dp).isSome) ∧
    (∀ dp dp' kcheckload alloc, dp.len ≠ 0 → (∀ i, alloc i ≠ 0) →
      difoValidate globalMaxsize vs kcheckload dirNregs dp = some (dp', []) →
      (difoInit ncpu alloc vs dp').isSome) := by
  have hc := h.consistent
  refine ⟨fun dp hdp instr hi scope id ha => hc.hits hdp hi ha, ?_, ?_, ?_, ?_⟩
  · intro dp hdp k hk env regs tupregs n s hs
    obtain ⟨m, hvis, hgo, herr⟩ := whileLoop_stopped hs
    -- The invariant of the run: the machine is sound and the tables it has are those above.
    obtain ⟨hm, hcm⟩ := hvis.inv (fun m => Sound m ∧ Consistent ncpu Difo.Covered m.vstate ds)
      (fun m m' ⟨hm, hcm⟩ hgo hstep => by
        obtain ⟨instr, -, hends⟩ := step_ends (k := k) (hcm.text dp hdp) hm hgo
        rw [hstep] at hends
        exact ⟨hends.sound hm, hcm.exec hdp hm hgo hstep⟩)
      ⟨Machine.start_sound vs env regs tupregs, hc⟩
    exact hcm.step hk hdp hm hgo herr
  · intro dp hdp
    obtain ⟨pre, post, rfl⟩ := append_of_mem hdp
    obtain ⟨vs', hvs', -⟩ := hc.destroy
    rw [hvs']
    rfl
  · intro dp kcheckload nregs
    exact hc.tables.difoValidate globalMaxsize kcheckload nregs dp
  · intro dp dp' kcheckload alloc hlen halloc hval
    have hlen' : dp'.len ≠ 0 := by
      obtain ⟨rfl, -⟩ := difoValidate_eq_nil.mp hval
      rwa [dp.len_checked]
    obtain ⟨vs', hvs', -⟩ := hc.tables.difoInit hval halloc hlen'
    rw [hvs']
    rfl

end

/-- `ldgs 0x500, %r1; ret %r1`, with a table of variables. -/
def globalDifo (vartab : List Difv) : Difo where
  buf := [0x29050001, 0x23000001]
  inttab := []
  strtab := 0
  strlen := 0
  vartab := vartab
  rtype := ⟨0, 0, 8⟩
  destructive := false

/-- `ldts 0x100, %r1; ret %r1`: a thread-local variable below the user-defined ones. -/
def belowDifo : Difo := { globalDifo [] with buf := [0x2c010001, 0x23000001] }

/-- An object with an empty table of variables is accepted and installed, and its first
    instruction reads beyond the table of globals, or below the table of thread-locals. -/
theorem unlisted_variable_read :
    difoValidate 16384 .empty false dirNregs (globalDifo []) = some (globalDifo [], []) ∧
    difoInit 1 (fun _ => 8) .empty (globalDifo []) = some .empty ∧
    emulate quietKernel (globalDifo []) 2 (.start .empty .quiet (fun _ => 0) fun _ => ⟨0, 0⟩) =
      .stopped (.var .global 0x500 .outOfTable) ∧
    difoValidate 16384 .empty false dirNregs belowDifo = some (belowDifo, []) ∧
    difoInit 1 (fun _ => 8) .empty belowDifo = some .empty ∧
    emulate quietKernel belowDifo 2 (.start .empty .quiet (fun _ => 0) fun _ => ⟨0, 0⟩) =
      .stopped (.var .thread 0x100 .belowBase) := by
  refine ⟨by decide, by decide, rfl, by decide, by decide, rfl⟩

def globalVar : Difv := ⟨0x500, 1, 0, ⟨0, 0, 8⟩⟩

/-- The same object with the variable in its table. -/
theorem variables_in_tables_global :
    ∃ vs, difoInit 1 (fun _ => 8) .empty (globalDifo [globalVar]) = some vs ∧
      Hits 1 vs .global 0x500 := by
  have hval : difoValidate 16384 .empty false dirNregs (globalDifo [globalVar]) =
      some (globalDifo [globalVar], []) := by decide
  have hcov : (globalDifo [globalVar]).Covered := by
    intro instr hi scope id ha
    have hin : instr = 0x29050001 ∨ instr = 0x23000001 := by simpa [globalDifo] using hi
    rcases hin with rfl | rfl
    · cases (show some (Scope.global, 0x500) = some (scope, id) from ha)
      exact ⟨le_rfl, globalVar, mem_cons_self .., rfl, rfl⟩
    · exact nomatch (show none = some (scope, id) from ha)
  have hreach := Reachable.install (X := Unit) .init hval hcov (fun _ => by decide)
    (show difoInit 1 (fun _ => 8) .empty (globalDifo [globalVar]) =
      some ⟨[some ⟨0, 0, 1, globalVar⟩], [], []⟩ from rfl)
  refine ⟨_, rfl, ?_⟩
  exact (variables_in_tables hreach).1 _ (mem_cons_self ..) 0x29050001
    (mem_cons_self ..) .global 0x500 rfl

/-- An entry counts its references, and is gone with the last. -/
def Counted (count : ℕ → ℕ) (tab : List (Option Statvar)) : Prop :=
  ∀ n, tab[n]?.join.elim 0 Statvar.refcnt = count n ∧ (tab[n]?.join = none ↔ count n = 0)

theorem Statics.counted {scope : Scope} {count : ℕ → ℕ} {tab : List (Option Statvar)}
    (h : Statics ncpu scope count tab) : Counted count tab := by
  intro n
  have hn := h n
  cases hj : tab[n]?.join with
  | none =>
    rw [hj] at hn
    exact ⟨Eq.symm hn, iff_of_true rfl hn⟩
  | some svar =>
    rw [hj] at hn
    exact ⟨hn.1, iff_of_false (Option.some_ne_none _) hn.2.1.ne'⟩

/-- **NO STATIC VARIABLE LEAKS**: in every history, whatever objects are installed, the entries of
    the two tables count the variables of the installed objects. -/
theorem static_variables_counted (h : Reachable X globalMaxsize ncpu ok vs ds) :
    Counted (fun n => uses .global n (ds.flatMap Difo.vartab)) vs.globals ∧
      Counted (fun n => uses .loc n (ds.flatMap Difo.vartab)) vs.locals :=
  ⟨h.consistent.tables.globals.counted, h.consistent.tables.locals.counted⟩

def secondVar : Difv := { globalVar with id := 0x501 }

/-- A second object shares the variable and has one of its own, and is destroyed. -/
theorem static_variables_counted_global :
    Reachable Unit 16384 1 (fun _ => True)
        ⟨[some ⟨0, 0, 2, globalVar⟩, some ⟨0, 0, 1, secondVar⟩], [], []⟩
        [globalDifo [globalVar, secondVar], globalDifo [globalVar]] ∧
      Counted (fun n => uses .global n [globalVar]) [some ⟨0, 0, 1, globalVar⟩, none] := by
  have hval : ∀ vars ∈ [[globalVar], [globalVar, secondVar]], ∀ vs ∈
      [Vstate.empty, ⟨[some ⟨0, 0, 1, globalVar⟩], [], []⟩],
        difoValidate 16384 vs false dirNregs (globalDifo vars) = some (globalDifo vars, []) := by
    decide
  have hone : Reachable Unit 16384 1 (fun _ => True) ⟨[some ⟨0, 0, 1, globalVar⟩], [], []⟩
      [globalDifo [globalVar]] :=
    .install .init (hval _ mem_cons_self _ mem_cons_self) trivial
      (fun _ => (by decide : 8#64 ≠ 0)) rfl
  have htwo : Reachable Unit 16384 1 (fun _ => True)
      ⟨[some ⟨0, 0, 2, globalVar⟩, some ⟨0, 0, 1, secondVar⟩], [], []⟩
      [globalDifo [globalVar, secondVar], globalDifo [globalVar]] :=
    .install hone (hval _ (mem_cons_of_mem _ mem_cons_self) _ (mem_cons_of_mem _ mem_cons_self))
      trivial (fun _ => (by decide : 8#64 ≠ 0)) rfl
  have hgone : Reachable Unit 16384 1 (fun _ => True)
      ⟨[some ⟨0, 0, 1, globalVar⟩, none], [], []⟩ [globalDifo [globalVar]] :=
    Reachable.destroy (show Reachable _ _ _ _ _ ([] ++ _ :: [globalDifo [globalVar]]) from htwo) rfl
  exact ⟨htwo, (static_variables_counted hgone).1⟩

end Sirius.Dtrace.Dif
