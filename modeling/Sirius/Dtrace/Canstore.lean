import Mathlib.Order.CompletePartialOrder
import Sirius.Dtrace.DifEmulate

/-! # Where a DIF program may store

    Behind its hash table the space of the dynamic variables is cut into chunks.  A chunk
    begins with a `dtrace_dynvar_t`, which has room for one key; the other keys of the tuple,
    the data that keys refer to and the data of the variable follow.  `dtrace_canstore` only
    knows of the `dtrace_dynvar_t`. -/

namespace Sirius.Dtrace.Dif

/-- `DTRACE_INRANGE`. -/
def inrange (addr sz base basesz : BitVec 64) : Bool :=
  addr - base < basesz && addr + sz - base ≤ basesz && addr ≤ addr + sz

def sizeofKey : BitVec 64 := 16
def sizeofDynvar : BitVec 64 := 48
def sizeofDynhash : BitVec 64 := 64

/-- `dtrace_dstate_t`, and the tuples of the variables in the chunks, empty for a free one. -/
structure Dstate where
  base : BitVec 64
  size : BitVec 64
  hashsize : BitVec 64
  chunksize : BitVec 64
  tuple : ℕ → List Key

/-- Where `dtrace_dynvar` lets `dtdv_data` point to, from the start of the chunk. -/
def dataOffset (key : List Key) : BitVec 64 :=
  let ksize := (key.map fun k => -(-k.size &&& -8)).sum
  sizeofDynvar + sizeofKey * BitVec.ofNat 64 (key.length - 1) + ksize

/-- The first chunk, behind the hash table. -/
def Dstate.start (ds : Dstate) : BitVec 64 := ds.base + ds.hashsize * sizeofDynhash

/-- `dtrace_canstore`, in the space of the dynamic variables. -/
def canstoreDynvar (addr sz : BitVec 64) (ds : Dstate) : Bool :=
  let chunkoffs := (addr - ds.start) % ds.chunksize
  if addr < ds.start then false
  else if chunkoffs < sizeofDynvar then false
  else if ds.chunksize < chunkoffs + sz then false
  else true

/-- `dtrace_canstore_statvar`. -/
def canstoreStatvar (addr sz : BitVec 64) (svars : List (Option Statvar)) : Bool :=
  svars.any fun
    | none => false
    | some svar => svar.size ≠ 0 && inrange addr sz svar.data (BitVec.ofNat 64 svar.size)

def dtraceCanstore {X : Type} (addr sz : BitVec 64) (env : Env X) (ds : Dstate) (vs : Vstate) :
    Bool :=
  if inrange addr sz env.scratchBase env.scratchSize then true
  else if inrange addr sz ds.base ds.size then canstoreDynvar addr sz ds
  else canstoreStatvar addr sz vs.locals || canstoreStatvar addr sz vs.globals

/-! ## What the guard is for -/

/-- The addresses of an object. -/
def bytes (base : BitVec 64) (size : ℕ) : Set ℕ := Set.Ico base.toNat (base.toNat + size)

/-- Where chunk `i` begins. -/
def Dstate.chunk (ds : Dstate) (i : ℕ) : ℕ := ds.start.toNat + i * ds.chunksize.toNat

variable {X : Type} (addr sz : BitVec 64) (env : Env X) (ds : Dstate) (vs : Vstate)

/-- What a program may change: scratch space, one static variable, or the data of the variable in
    one whole chunk. -/
inductive UserData : Prop
  | scratch (h : bytes addr sz.toNat ⊆ bytes env.scratchBase env.scratchSize.toNat)
  | statvar (svar : Statvar) (hs : some svar ∈ vs.locals ++ vs.globals)
      (h : bytes addr sz.toNat ⊆ bytes svar.data svar.size)
  | dynvar (i : ℕ) (whole : ds.chunk (i + 1) ≤ ds.base.toNat + ds.size.toNat)
      (h : bytes addr sz.toNat ⊆
        Set.Ico (ds.chunk i + (dataOffset (ds.tuple i)).toNat) (ds.chunk (i + 1)))

/-- A store that is admitted does not wrap and changes nothing else. -/
def OnlyUserData : Prop :=
  dtraceCanstore addr sz env ds vs = true →
    addr.toNat + sz.toNat < 2 ^ 64 ∧ UserData addr sz env ds vs

/-- What the allocations promise: nothing reaches beyond the last address, `dtrace_dstate_init`
    leaves room behind the hash table, and nothing else lies in that space. -/
structure Placed : Prop where
  scratch : env.scratchBase.toNat + env.scratchSize.toNat ≤ 2 ^ 64
  arena : ds.base.toNat + ds.size.toNat ≤ 2 ^ 64
  hash : ds.size ≠ 0 → ds.hashsize.toNat * 64 < ds.size.toNat
  statvar : ∀ svar, some svar ∈ vs.locals ++ vs.globals → svar.data.toNat + svar.size ≤ 2 ^ 64 ∧
    Disjoint (bytes ds.base ds.size.toNat) (bytes svar.data svar.size)
  apart : Disjoint (bytes ds.base ds.size.toNat) (bytes env.scratchBase env.scratchSize.toNat)

/-- The range lies in the space of the dynamic variables and ends below the last address. -/
def InArena : Prop :=
  ds.base.toNat ≤ addr.toNat ∧ addr.toNat + sz.toNat ≤ ds.base.toNat + ds.size.toNat ∧
    addr.toNat + sz.toNat < 2 ^ 64

/-- A range in the space of the dynamic variables that is neither in the hash table nor on the
    48 bytes of a `dtrace_dynvar_t` nor across the end of a chunk begins behind the keys and the key
    data of the tuple, in a whole chunk. -/
def BehindTuple : Prop :=
  let offs := addr.toNat - ds.start.toNat
  let i := offs / ds.chunksize.toNat
  sz = 0 ∨ ¬ InArena addr sz ds ∨ addr.toNat < ds.start.toNat ∨ offs % ds.chunksize.toNat < 48 ∨
    ds.chunksize.toNat < offs % ds.chunksize.toNat + sz.toNat ∨
    ds.chunk (i + 1) ≤ ds.base.toNat + ds.size.toNat ∧
      ds.chunk i + (dataOffset (ds.tuple i)).toNat ≤ addr.toNat

variable {addr sz env ds vs}

theorem inrange_spec {base basesz : BitVec 64} (hfit : base.toNat + basesz.toNat ≤ 2 ^ 64)
    (h : inrange addr sz base basesz = true) :
    addr.toNat ∈ bytes base basesz.toNat ∧ addr.toNat + sz.toNat ≤ base.toNat + basesz.toNat ∧
      addr.toNat + sz.toNat < 2 ^ 64 := by
  simp only [inrange, Bool.and_eq_true, decide_eq_true_eq, BitVec.lt_def, BitVec.le_def,
    BitVec.toNat_sub, BitVec.toNat_add] at h
  rw [bytes, Set.mem_Ico]
  omega

section

variable (h : Placed env ds vs)

include h

theorem inArena_of_inrange (hin : inrange addr sz ds.base ds.size = true) : InArena addr sz ds := by
  obtain ⟨⟨hlo, -⟩, hhi, hwrap⟩ := inrange_spec h.arena hin
  exact ⟨hlo, hhi, hwrap⟩

theorem inrange_of_inArena (hsz : sz ≠ 0) (ha : InArena addr sz ds) :
    inrange addr sz ds.base ds.size = true := by
  obtain ⟨hlo, hhi, hwrap⟩ := ha
  have hpos : 0 < sz.toNat := Nat.pos_of_ne_zero fun heq => hsz (BitVec.eq_of_toNat_eq heq)
  have harena := h.arena
  simp only [inrange, Bool.and_eq_true, decide_eq_true_eq, BitVec.lt_def, BitVec.le_def,
    BitVec.toNat_sub, BitVec.toNat_add]
  omega

/-- The three tests of `dtrace_canstore` on a range in the arena, as numbers: no sum wraps. -/
theorem canstoreDynvar_iff (hin : inrange addr sz ds.base ds.size = true) :
    canstoreDynvar addr sz ds = true ↔ ds.start.toNat ≤ addr.toNat ∧
      48 ≤ (addr.toNat - ds.start.toNat) % ds.chunksize.toNat ∧
      (addr.toNat - ds.start.toNat) % ds.chunksize.toNat + sz.toNat ≤ ds.chunksize.toNat := by
  obtain ⟨⟨hlo, hlt⟩, hhi, -⟩ := inrange_spec h.arena hin
  have harena := h.arena
  have hhash := h.hash fun heq => by
    rw [heq] at hlt
    exact absurd hlo (not_le.mpr hlt)
  have hstart : ds.start.toNat = ds.base.toNat + ds.hashsize.toNat * 64 := by
    rw [Dstate.start, BitVec.toNat_add, BitVec.toNat_mul]
    show (_ + _ * 64 % _) % _ = _
    omega
  simp only [canstoreDynvar, BitVec.lt_def]
  by_cases h1 : addr.toNat < ds.start.toNat
  · rw [if_pos h1]
    exact iff_of_false Bool.false_ne_true fun hc => absurd hc.1 (not_le.mpr h1)
  have hmod := Nat.mod_le (addr.toNat - ds.start.toNat) ds.chunksize.toNat
  have hsum : ((addr.toNat - ds.start.toNat) % ds.chunksize.toNat + sz.toNat) % 2 ^ 64 =
      (addr.toNat - ds.start.toNat) % ds.chunksize.toNat + sz.toNat := Nat.mod_eq_of_lt (by omega)
  rw [if_neg h1, BitVec.toNat_add, BitVec.toNat_umod, BitVec.toNat_sub_of_le (not_lt.mp h1), hsum,
    show sizeofDynvar.toNat = 48 from rfl]
  split_ifs with h2 h3
  · exact iff_of_false not_false (by omega)
  · exact iff_of_false not_false (by omega)
  · exact iff_of_true rfl (by omega)

theorem behindTuple_of_onlyUserData (hu : OnlyUserData addr sz env ds vs) :
    BehindTuple addr sz ds := by
  rw [BehindTuple]
  by_contra! hnot
  obtain ⟨hsz, ha, h1, h2, h3, hwhole⟩ := hnot
  have hin := inrange_of_inArena h hsz ha
  obtain ⟨hmem, -⟩ := inrange_spec h.arena hin
  have hfirst : addr.toNat ∈ bytes addr sz.toNat :=
    ⟨le_rfl, Nat.lt_add_of_pos_right (Nat.pos_of_ne_zero fun heq =>
      hsz (BitVec.eq_of_toNat_eq heq))⟩
  have hadmit : dtraceCanstore addr sz env ds vs = true := by
    rw [dtraceCanstore, if_pos hin, (canstoreDynvar_iff h hin).mpr ⟨h1, h2, h3⟩]
    split_ifs <;> rfl
  cases (hu hadmit).2 with
  | scratch hw => exact absurd (hw hfirst) (Set.disjoint_left.mp h.apart hmem)
  | statvar svar hs hw =>
    exact absurd (hw hfirst) (Set.disjoint_left.mp (h.statvar svar hs).2 hmem)
  | dynvar j whole hw =>
    obtain ⟨hj, hj'⟩ := hw hfirst
    have hi : (addr.toNat - ds.start.toNat) / ds.chunksize.toNat = j := by
      rw [Dstate.chunk] at hj hj'
      exact Nat.div_eq_of_lt_le (by omega) (by omega)
    rw [hi] at hwhole
    exact absurd hj (not_le.mpr (hwhole whole))

/-- **STORES TO USER DATA**: what `dtrace_canstore` admits does not wrap and is scratch space,
    a static variable or the data of a dynamic variable, exactly if a range in a chunk, and off its
    `dtrace_dynvar_t`, lies behind the tuple and the chunk is a whole one. -/
theorem canstore_only_user_data : OnlyUserData addr sz env ds vs ↔ BehindTuple addr sz ds := by
  refine ⟨behindTuple_of_onlyUserData h, fun hb hst => ?_⟩
  rw [dtraceCanstore] at hst
  split_ifs at hst with hscratch hin
  · obtain ⟨⟨hlo, -⟩, hhi, hwrap⟩ := inrange_spec h.scratch hscratch
    exact ⟨hwrap, .scratch (Set.Ico_subset_Ico hlo hhi)⟩
  · refine ⟨(inrange_spec h.arena hin).2.2, ?_⟩
    by_cases hsz : sz = 0
    · rw [hsz]
      exact .scratch fun x hx => absurd hx.2 (not_lt.mpr hx.1)
    obtain ⟨h1, h2, h3⟩ := (canstoreDynvar_iff h hin).mp hst
    have ha := inArena_of_inrange h hin
    rcases hb with hb | hb | hb | hb | hb | ⟨whole, hdata⟩ <;> try omega
    · exact absurd hb hsz
    · exact absurd ha hb
    have hdiv := Nat.div_add_mod' (addr.toNat - ds.start.toNat) ds.chunksize.toNat
    refine .dynvar _ whole (Set.Ico_subset_Ico hdata ?_)
    rw [Dstate.chunk, Nat.succ_mul]
    omega
  · rw [canstoreStatvar, canstoreStatvar, ← List.any_append, List.any_eq_true] at hst
    obtain ⟨_ | svar, hs, hin⟩ := hst
    · cases hin
    have hfit := (h.statvar svar hs).1
    have hsize : (BitVec.ofNat 64 svar.size).toNat ≤ svar.size := Nat.mod_le ..
    obtain ⟨⟨hlo, -⟩, hhi, hwrap⟩ := inrange_spec (by omega) (Bool.and_eq_true_iff.mp hin).2
    exact ⟨hwrap, .statvar svar hs (Set.Ico_subset_Ico hlo (by omega))⟩

end

def bareEnv : Env Unit := ⟨0, 0, 0, 0, 0, ()⟩

/-- One bucket and one chunk, with a variable that has two keys. -/
def oneChunk : Dstate := ⟨4096, 320, 1, 256, fun _ => [⟨1, 0⟩, ⟨2, 0⟩]⟩

theorem oneChunk_placed : Placed bareEnv oneChunk ⟨[], [], []⟩ where
  scratch := by decide
  arena := by decide
  hash _ := by decide
  statvar _ hs := by cases hs
  apart := Set.disjoint_left.mpr fun x _ hx => absurd hx.2 (Nat.not_lt_zero x)

/-- **THE SECOND KEY** of a tuple can be overwritten. -/
theorem second_key_stored : ¬ OnlyUserData 4208 8 bareEnv oneChunk ⟨[], [], []⟩ := by
  intro hu
  have hb := behindTuple_of_onlyUserData oneChunk_placed hu
  simp only [BehindTuple, InArena] at hb
  exact absurd hb (by decide)

/-- A store to the data of the variable with two keys, behind 64 bytes of its chunk. -/
theorem canstore_only_user_data_oneChunk :
    dtraceCanstore 4224 8 bareEnv oneChunk ⟨[], [], []⟩ = true ∧
      OnlyUserData 4224 8 bareEnv oneChunk ⟨[], [], []⟩ := by
  refine ⟨by decide, (canstore_only_user_data oneChunk_placed).mpr ?_⟩
  simp only [BehindTuple, InArena]
  decide

end Sirius.Dtrace.Dif
