import Sirius.Zfs.SpaceMap
import Sirius.Lib.BitField

/-! # Space map logs — the on-disk form of a space map

    `space_map_sync` appends the segments of a map to an object as 64-bit entries;
    `space_map_load` replays this log of allocations and frees with `space_map_add` and
    `space_map_remove`, either of which panics when a range is not what it expects.

    * `Replays g ws A`: replaying the words `ws` gives the set `A` in a map of allocated space
      and its complement in a map of free space, and no check fires;
    * `LogHolds g log A`: the log object as a whole stands for `A`;
    * `spaceMapSync_spec`, `spaceMapLoad_spec`: the two functions in these terms. -/

namespace Sirius.Space

open Sirius.Lib Finset List Nat

/-- `SM_ALLOC` and `SM_FREE`. -/
inductive MapType
  | alloc | free
  deriving DecidableEq

def MapType.code : MapType → ℕ
  | .alloc => 0
  | .free => 1

def smRunDecode (x : ℕ) : ℕ := bfDecode x 0 15 + 1
def smRunEncode (x : ℕ) : ℕ := bfEncode (x - 1) 0 15
def smTypeDecode (x : ℕ) : ℕ := bfDecode x 15 1
def smTypeEncode (x : ℕ) : ℕ := bfEncode x 15 1
def smOffsetDecode (x : ℕ) : ℕ := bfDecode x 16 47
def smOffsetEncode (x : ℕ) : ℕ := bfEncode x 16 47
def smDebugDecode (x : ℕ) : ℕ := bfDecode x 63 1
def smDebugEncode (x : ℕ) : ℕ := bfEncode x 63 1
def smDebugActionEncode (x : ℕ) : ℕ := bfEncode x 60 3
def smDebugSyncpassEncode (x : ℕ) : ℕ := bfEncode x 50 10
def smDebugTxgEncode (x : ℕ) : ℕ := bfEncode x 0 50

def smRunMax : ℕ := smRunDecode (2 ^ 64 - 1)

theorem smRunMax_eq : smRunMax = 2 ^ 15 := by decide

/-- A non-debug entry, as `space_map_sync` puts it together. -/
def smEntry (start : ℕ) (maptype : MapType) (runLen : ℕ) : ℕ :=
  smOffsetEncode start ||| smTypeEncode maptype.code ||| smRunEncode runLen

def smDebugEntry (maptype : MapType) (syncpass txg : ℕ) : ℕ :=
  smDebugEncode 1 ||| smDebugActionEncode maptype.code ||| smDebugSyncpassEncode syncpass
    ||| smDebugTxgEncode txg

section Entries

variable {start runLen syncpass txg : ℕ} {maptype : MapType}

theorem smDebugDecode_smEntry : smDebugDecode (smEntry start maptype runLen) = 0 := by
  rw [smDebugDecode, smEntry, bfDecode_or, bfDecode_or, smOffsetEncode, smTypeEncode, smRunEncode,
    bfDecode_bfEncode_above (by decide), bfDecode_bfEncode_above (by decide),
    bfDecode_bfEncode_above (by decide)]
  rfl

theorem smDebugDecode_smDebugEntry : smDebugDecode (smDebugEntry maptype syncpass txg) = 1 := by
  rw [smDebugDecode, smDebugEntry, bfDecode_or, bfDecode_or, bfDecode_or, smDebugEncode,
    smDebugActionEncode, smDebugSyncpassEncode, smDebugTxgEncode, bfDecode_bfEncode (by decide),
    bfDecode_bfEncode_above (by decide), bfDecode_bfEncode_above (by decide),
    bfDecode_bfEncode_above (by decide)]
  rfl

theorem smTypeDecode_smEntry : smTypeDecode (smEntry start maptype runLen) = maptype.code := by
  have hcode : maptype.code < 2 ^ 1 := by cases maptype <;> decide
  rw [smTypeDecode, smEntry, bfDecode_or, bfDecode_or, smOffsetEncode, smTypeEncode, smRunEncode,
    bfDecode_bfEncode_below (by decide), bfDecode_bfEncode hcode,
    bfDecode_bfEncode_above (by decide), zero_or, or_zero]

theorem smOffsetDecode_smEntry (h : start < 2 ^ 47) :
    smOffsetDecode (smEntry start maptype runLen) = start := by
  rw [smOffsetDecode, smEntry, bfDecode_or, bfDecode_or, smOffsetEncode, smTypeEncode, smRunEncode,
    bfDecode_bfEncode h, bfDecode_bfEncode_above (by decide),
    bfDecode_bfEncode_above (by decide), or_zero, or_zero]

theorem smRunDecode_smEntry (hpos : 0 < runLen) (hmax : runLen ≤ smRunMax) :
    smRunDecode (smEntry start maptype runLen) = runLen := by
  have hlt : runLen - 1 < 2 ^ 15 := by exact (sub_one_lt_of_lt hpos).trans_le hmax
  rw [smRunDecode, smEntry, bfDecode_or, bfDecode_or, smOffsetEncode, smTypeEncode, smRunEncode,
    bfDecode_bfEncode_below (by decide), bfDecode_bfEncode_below (by decide),
    bfDecode_bfEncode hlt, Nat.zero_or, Nat.zero_or, Nat.sub_add_cancel hpos]

end Entries

/-- `space_map_obj_t`. -/
structure SpaceMapObj where
  smoObject : ℕ
  smoObjsize : ℕ
  smoAlloc : ℕ
  deriving DecidableEq

/-- A space map object with its contents: word `i` is at byte offset `8 * i`. -/
structure SpaceLog where
  smo : SpaceMapObj
  words : ℕ → ℕ

/-- `dmu_write` of the words `ws` at byte offset `offset`. -/
def dmuWrite (words : ℕ → ℕ) (offset : ℕ) (ws : List ℕ) : ℕ → ℕ :=
  fun i => if offset / 8 ≤ i then ws.getD (i - offset / 8) (words i) else words i

/-- The words of the object up to `smo_objsize`. -/
def SpaceLog.entries (log : SpaceLog) : List ℕ :=
  (List.range (log.smo.smoObjsize / 8)).map log.words

/-- `dmu_write` of a buffer of entries at the end of the object. -/
def SpaceLog.append (log : SpaceLog) (ws : List ℕ) : SpaceLog where
  smo := { log.smo with smoObjsize := log.smo.smoObjsize + 8 * ws.length }
  words := dmuWrite log.words log.smo.smoObjsize ws

theorem SpaceLog.entries_append (log : SpaceLog) (h : 8 ∣ log.smo.smoObjsize) (ws : List ℕ) :
    (log.append ws).entries = log.entries ++ ws := by
  obtain ⟨n, hn⟩ := h
  have hlen : (log.smo.smoObjsize + 8 * ws.length) / 8 = n + ws.length := by
    rw [hn, ← Nat.mul_add, Nat.mul_div_cancel_left _ (by decide)]
  have hn' : log.smo.smoObjsize / 8 = n := by rw [hn, Nat.mul_div_cancel_left _ (by decide)]
  rw [SpaceLog.entries, SpaceLog.entries, SpaceLog.append]
  simp only [hlen, hn']
  rw [List.range_add, List.map_append, List.map_map]
  congr 1
  · refine map_congr_left ?_
    intro i hi
    rw [dmuWrite, hn', if_neg (not_le.mpr (List.mem_range.mp hi))]
  refine ext_getElem (by simp) ?_
  intro i hi hi'
  rw [getElem_map, getElem_range, Function.comp_apply, dmuWrite, hn',
    if_pos (Nat.le_add_right n i), Nat.add_sub_cancel_left, getD_eq_getElem?_getD,
    getElem?_eq_getElem hi', Option.getD_some]

/-- `1 << SPACE_MAP_BLOCKSHIFT`: the log is written and read in blocks of 4K. -/
def spaceMapBlock : ℕ := 2 ^ 12

/-! ## `space_map_sync` -/

/-- The runs of a segment: `while (size)`, at most `SM_RUN_MAX` sectors each. -/
def segRuns (start size : ℕ) : List (ℕ × ℕ) :=
  if size = 0 then []
  else (start, min size smRunMax) :: segRuns (start + min size smRunMax) (size - min size smRunMax)
termination_by size
decreasing_by
  rename_i h
  exact sub_lt (pos_of_ne_zero h) (lt_min (pos_of_ne_zero h) (smRunMax_eq ▸ Nat.two_pow_pos 15))

structure SyncBuf where
  pending : List ℕ
  log : SpaceLog

def SyncBuf.flush (b : SyncBuf) : SyncBuf := ⟨[], b.log.append b.pending⟩

/-- `*entry++ = e`, after a write if the buffer of `cap` entries is full. -/
def SyncBuf.put (cap : ℕ) (b : SyncBuf) (e : ℕ) : SyncBuf :=
  let b := if b.pending.length = cap then b.flush else b
  { b with pending := b.pending ++ [e] }

def segEntries (g : SpaceGeom) (maptype : MapType) (ss : Seg) : List ℕ :=
  (segRuns ((ss.start - g.smStart) >>> g.smShift) (ss.len >>> g.smShift)).map
    fun r => smEntry r.1 maptype r.2

def SyncBuf.finish (b : SyncBuf) : SpaceLog :=
  if b.pending = [] then b.log else b.flush.log

/-- `smo_alloc` after a map with `sm_space` was synced, in 64-bit arithmetic. -/
def syncAlloc (maptype : MapType) (alloc space : ℕ) : ℕ :=
  match maptype with
  | .alloc => (alloc + space) % 2 ^ 64
  | .free => (alloc + 2 ^ 64 - space) % 2 ^ 64

/-- `space_map_sync`: the map, which is emptied, and the log. -/
def spaceMapSync {g : SpaceGeom} (o : DestroyOrder) (sm : SpaceMap g) (maptype : MapType)
    (syncpass txg : ℕ) (log : SpaceLog) : Except SmPanic (SpaceMap g × SpaceLog) :=
  if sm.smSpace = 0 then .ok (sm, log)
  else
    let smo := { log.smo with smoAlloc := syncAlloc maptype log.smo.smoAlloc sm.smSpace }
    let cap := min ((8 + sm.smRoot.segs.length) * 8) spaceMapBlock / 8
    let b := (o.order sm.smRoot.segs).foldl
      (fun b ss => (segEntries g maptype ss).foldl (SyncBuf.put cap) b)
      ⟨[smDebugEntry maptype syncpass txg], ⟨smo, log.words⟩⟩
    let space := (o.order sm.smRoot.segs).foldl (fun space ss => space - ss.len) sm.smSpace
    if space ≠ 0 then .error .spaceNotZero else .ok (spaceMapCreate g, b.finish)

/-- `space_map_truncate`: the object reads as zeros. -/
def spaceMapTruncate (log : SpaceLog) : SpaceLog where
  smo := { log.smo with smoObjsize := 0, smoAlloc := 0 }
  words := fun _ => 0

/-! ## `space_map_load` -/

/-- A space map with its load state: `sm_loaded`, and the allocator's cursors. -/
structure CoreMap (g : SpaceGeom) where
  map : SpaceMap g
  smLoaded : Bool
  smPpd : ℕ → ℕ

/-- One entry of the log is added to the map or removed from it. -/
def loadEntry {g : SpaceGeom} (maptype : MapType) (sm : SpaceMap g) (e : ℕ) :
    Except SmPanic (SpaceMap g) :=
  if smDebugDecode e ≠ 0 then .ok sm
  else (if smTypeDecode e = maptype.code then spaceMapAdd else spaceMapRemove) sm
    ((smOffsetDecode e <<< g.smShift) + g.smStart) (smRunDecode e <<< g.smShift)

def loadBase {g : SpaceGeom} (maptype : MapType) (sm : SpaceMap g) : Except SmPanic (SpaceMap g) :=
  match maptype with
  | .alloc => .ok sm
  | .free => spaceMapAdd sm g.smStart g.smSize

def loadSpace (g : SpaceGeom) (maptype : MapType) (alloc : ℕ) : ℕ :=
  match maptype with
  | .alloc => alloc
  | .free => (g.smSize + 2 ^ 64 - alloc) % 2 ^ 64

/-- Why the loop of `space_map_load` ends early: a failed read, or a panic. -/
inductive LoadStop
  | io (error : ℕ)
  | panic (p : SmPanic)

/-- One iteration: a block of 4096 bytes, or what is left.  `readError` is what
    `dmu_read` returns at an offset. -/
def loadBlock {g : SpaceGeom} (maptype : MapType) (log : SpaceLog) (readError : ℕ → ℕ)
    (sm : SpaceMap g) (i : ℕ) : Except LoadStop (SpaceMap g) :=
  let offset := spaceMapBlock * i
  let size := min (log.smo.smoObjsize - offset) spaceMapBlock
  if size % 8 ≠ 0 then .error (.panic .entryPhase)
  else if readError offset ≠ 0 then .error (.io (readError offset))
  else match ((List.range (size / 8)).map fun k => log.words (offset / 8 + k)).foldlM
      (loadEntry maptype) sm with
    | .ok sm' => .ok sm'
    | .error p => .error (.panic p)

/-- `space_map_load`: the error code and the map. -/
def spaceMapLoad {g : SpaceGeom} (sm : CoreMap g) (maptype : MapType) (log : SpaceLog)
    (readError : ℕ → ℕ) : Except SmPanic (ℕ × CoreMap g) :=
  if sm.smLoaded then .ok (0, sm)
  else if sm.map.smSpace ≠ 0 then .error .spaceNotZero
  else
    match loadBase maptype sm.map with
    | .error p => .error p
    | .ok base =>
      match (List.range ((log.smo.smoObjsize + (spaceMapBlock - 1)) / spaceMapBlock)).foldlM
          (loadBlock maptype log readError) base with
      | .error (.panic p) => .error p
      | .error (.io error) => .ok (error, { sm with map := spaceMapCreate g })
      | .ok loaded =>
        if loaded.smSpace ≠ loadSpace g maptype log.smo.smoAlloc then .error .spaceMismatch
        -- `smop_load` starts with all cursors at zero
        else .ok (0, ⟨loaded, true, fun _ => 0⟩)

/-! ## What a log stands for -/

/-- The set that a map of this type holds when `A` is what is allocated. -/
def view (g : SpaceGeom) (maptype : MapType) (A : Finset ℕ) : Finset ℕ :=
  match maptype with
  | .alloc => A
  | .free => g.whole \ A

/-- What is allocated after ranges covering `S` were allocated or freed. -/
def applied (maptype : MapType) (A S : Finset ℕ) : Finset ℕ :=
  match maptype with
  | .alloc => A ∪ S
  | .free => A \ S

/-- Only unallocated space is allocated, only allocated space is freed. -/
def Admits (maptype : MapType) (A S : Finset ℕ) : Prop :=
  match maptype with
  | .alloc => Disjoint A S
  | .free => S ⊆ A

section Log

variable {g : SpaceGeom} {A S T : Finset ℕ} {ty maptype : MapType} {sm : SpaceMap g} {ws : List ℕ}
  {log : SpaceLog} {off n e k : ℕ}

theorem applied_empty : applied ty A ∅ = A := by
  cases ty with
  | alloc => exact union_empty A
  | free => exact sdiff_empty

theorem applied_applied : applied ty (applied ty A S) T = applied ty A (S ∪ T) := by
  cases ty with
  | alloc => exact union_assoc A S T
  | free => exact sdiff_sdiff_left

theorem applied_subset_whole (hA : A ⊆ g.whole) (hS : S ⊆ g.whole) : applied ty A S ⊆ g.whole := by
  cases ty with
  | alloc => exact union_subset hA hS
  | free => exact sdiff_subset.trans hA

theorem Admits.left (h : Admits ty A (S ∪ T)) : Admits ty A S := by
  cases ty with
  | alloc => exact (disjoint_union_right.mp h).1
  | free => exact subset_union_left.trans h

theorem Admits.right (h : Admits ty A (S ∪ T)) (hST : Disjoint S T) :
    Admits ty (applied ty A S) T := by
  cases ty with
  | alloc => exact disjoint_union_left.mpr ⟨(disjoint_union_right.mp h).2, hST⟩
  | free => exact subset_sdiff.mpr ⟨subset_union_right.trans h, hST.symm⟩

theorem card_applied (h : Admits ty A S) : (applied ty A S).card
    = match ty with
      | .alloc => A.card + S.card
      | .free => A.card - S.card := by
  cases ty with
  | alloc => exact card_union_of_disjoint h
  | free => exact card_sdiff_of_subset h

/-- **ONE ENTRY**: a run that is admitted is replayed without a panic, in a map of either type. -/
theorem loadEntry_spec {r : Seg} (hon : OnMap g r) (hadm : Admits ty A r.points)
    (hsm : sm.points = view g maptype A) (hdebug : smDebugDecode e = 0)
    (htype : smTypeDecode e = ty.code)
    (hoff : (smOffsetDecode e <<< g.smShift) + g.smStart = r.start)
    (hrun : smRunDecode e <<< g.smShift = r.len) :
    ∃ sm', loadEntry maptype sm e = .ok sm'
      ∧ sm'.points = view g maptype (applied ty A r.points) := by
  have hr := hon.points_subset
  rw [loadEntry, if_neg (not_not.mpr hdebug), hoff, hrun, htype]
  cases maptype with
  | alloc =>
    cases ty with
    | alloc =>
      have hins : Insertable sm r := ⟨hon, by rw [hsm]; exact hadm⟩
      obtain ⟨sm', hadd, hsm'⟩ := spaceMapAdd_spec hins
      exact ⟨sm', hadd, by rw [hsm', hsm]; rfl⟩
    | free =>
      have hsub : r.points ⊆ sm.points := by
        rw [hsm]
        exact hadm
      obtain ⟨sm', hrem, hsm'⟩ := spaceMapRemove_spec hon hsub
      exact ⟨sm', hrem, by rw [hsm', hsm]; rfl⟩
  | free =>
    cases ty with
    | alloc =>
      have hsub : r.points ⊆ sm.points := by
        rw [hsm]
        exact subset_sdiff.mpr ⟨hr, hadm.symm⟩
      obtain ⟨sm', hrem, hsm'⟩ := spaceMapRemove_spec hon hsub
      refine ⟨sm', hrem, ?_⟩
      rw [hsm', hsm]
      exact sdiff_sdiff_left
    | free =>
      have hdisj : Disjoint sm.points r.points := by
        rw [hsm]
        exact sdiff_disjoint.mono_right hadm
      obtain ⟨sm', hadd, hsm'⟩ := spaceMapAdd_spec ⟨hon, hdisj⟩
      refine ⟨sm', hadd, ?_⟩
      rw [hsm', hsm]
      ext x
      simp only [view, applied, mem_union, mem_sdiff]
      tauto

/-- Replaying the words gives `A`, in a map of either type, and nothing panics. -/
structure Replays (g : SpaceGeom) (ws : List ℕ) (A : Finset ℕ) : Prop where
  inside : A ⊆ g.whole
  replay : ∀ (maptype : MapType) (sm : SpaceMap g), sm.points = view g maptype ∅ →
    ∃ sm', ws.foldlM (loadEntry maptype) sm = .ok sm' ∧ sm'.points = view g maptype A

theorem Replays.nil (g : SpaceGeom) : Replays g [] ∅ :=
  ⟨empty_subset _, fun _ sm hsm => ⟨sm, rfl, hsm⟩⟩

theorem Replays.snoc (h : Replays g ws A) (hS : S ⊆ g.whole)
    (he : ∀ (maptype : MapType) (sm : SpaceMap g), sm.points = view g maptype A →
      ∃ sm', loadEntry maptype sm e = .ok sm' ∧ sm'.points = view g maptype S) :
    Replays g (ws ++ [e]) S := by
  refine ⟨hS, ?_⟩
  intro maptype sm hsm
  obtain ⟨sm1, hfold, hsm1⟩ := h.replay maptype sm hsm
  obtain ⟨sm2, hload, hsm2⟩ := he maptype sm1 hsm1
  refine ⟨sm2, ?_, hsm2⟩
  rw [foldlM_append, hfold]
  show (([e] : List ℕ).foldlM (loadEntry maptype) sm1) = _
  rw [foldlM_cons, hload]
  rfl

theorem Replays.debug (h : Replays g ws A) (maptype : MapType) (syncpass txg : ℕ) :
    Replays g (ws ++ [smDebugEntry maptype syncpass txg]) A := by
  refine h.snoc h.inside ?_
  intro maptype sm hsm
  refine ⟨sm, ?_, hsm⟩
  rw [loadEntry, if_pos]
  rw [smDebugDecode_smDebugEntry]
  exact one_ne_zero

/-- The range of `n` sectors from sector `off` of the map on. -/
def sectors (g : SpaceGeom) (off n : ℕ) : Seg :=
  ⟨(off <<< g.smShift) + g.smStart, ((off + n) <<< g.smShift) + g.smStart⟩

theorem sectors_len : (sectors g off n).len = n <<< g.smShift := by
  rw [Seg.len, sectors, Nat.add_sub_add_right, shiftLeft_eq, shiftLeft_eq,
    Nat.shiftLeft_eq, ← Nat.sub_mul, Nat.add_sub_cancel_left]

theorem OnMap.eq_sectors {ss : Seg} (h : OnMap g ss) :
    ss = sectors g ((ss.start - g.smStart) >>> g.smShift) (ss.len >>> g.smShift) := by
  obtain ⟨k, hk⟩ := dvd_sub h.start_dvd g.start_dvd
  obtain ⟨n, hn⟩ := h.len_dvd
  have hpos := Nat.two_pow_pos g.smShift
  have hk' : (ss.start - g.smStart) >>> g.smShift = k := by
    rw [Nat.shiftRight_eq_div_pow, hk, Nat.mul_div_cancel_left _ hpos]
  have hn' : ss.len >>> g.smShift = n := by
    rw [Nat.shiftRight_eq_div_pow, hn, Nat.mul_div_cancel_left _ hpos]
  have hstart : (k <<< g.smShift) + g.smStart = ss.start := by
    rw [Nat.shiftLeft_eq, Nat.mul_comm, ← hk, Nat.sub_add_cancel h.lo]
  have hstop : ((k + n) <<< g.smShift) + g.smStart = ss.stop := by
    rw [← h.start_add_len, ← hstart, hn, shiftLeft_eq, shiftLeft_eq, add_mul, mul_comm n]
    exact add_right_comm _ _ _
  rw [hk', hn', sectors, hstart, hstop]

variable (g) in
theorem sector_mono {a b : ℕ} (hab : a ≤ b) :
    (a <<< g.smShift) + g.smStart ≤ (b <<< g.smShift) + g.smStart := by
  rw [shiftLeft_eq, shiftLeft_eq]
  exact Nat.add_le_add_right (Nat.mul_le_mul_right _ hab) _

theorem sectors_onMap (h : OnMap g (sectors g off n)) {j : ℕ} (hk : 0 < k) (hle : j + k ≤ n) :
    OnMap g (sectors g (off + j) k) := by
  have hdvd : ∀ a, 2 ^ g.smShift ∣ (a <<< g.smShift) + g.smStart := by
    intro a
    rw [shiftLeft_eq]
    exact Nat.dvd_add (dvd_mul_left _ _) g.start_dvd
  have hmono := sector_mono g (show off + j + k ≤ off + n by omega)
  refine ⟨?_, le_add_left _ _, hmono.trans h.hi, hdvd _, hdvd _⟩
  refine Nat.add_lt_add_right ?_ _
  rw [shiftLeft_eq, shiftLeft_eq]
  exact Nat.mul_lt_mul_of_pos_right (Nat.lt_add_of_pos_right hk) (Nat.two_pow_pos _)

variable (g off) in
theorem sectors_points_split (hkn : k ≤ n) :
    (sectors g off n).points = (sectors g off k).points ∪ (sectors g (off + k) (n - k)).points
      ∧ Disjoint (sectors g off k).points (sectors g (off + k) (n - k)).points := by
  have hsum : off + k + (n - k) = off + n := by rw [add_assoc, add_sub_of_le hkn]
  constructor
  · rw [sectors, sectors, sectors, hsum]
    exact (Finset.Ico_union_Ico_eq_Ico (sector_mono g (le_add_right off k))
      (sector_mono g (Nat.add_le_add_left hkn off))).symm
  · exact Finset.Ico_disjoint_Ico_consecutive _ _ _

/-- **ONE SEGMENT**: the runs of a segment, one after another, have its effect. -/
theorem Replays.runs (h : Replays g ws A) (hon : 0 < n → OnMap g (sectors g off n))
    (hfit : off + n ≤ 2 ^ 47) (hadm : Admits ty A (sectors g off n).points) :
    Replays g (ws ++ (segRuns off n).map fun r => smEntry r.1 ty r.2)
      (applied ty A (sectors g off n).points) := by
  induction off, n using segRuns.induct generalizing ws A with
  | case1 off =>
    have hempty : (sectors g off 0).points = ∅ := Finset.Ico_self _
    rw [segRuns, if_pos rfl, hempty, applied_empty, map_nil, append_nil]
    exact h
  | case2 off n hn ih =>
    -- the first run, then the rest of the segment
    have hpos : 0 < n := pos_of_ne_zero hn
    have hk : 0 < min n smRunMax := lt_min hpos (smRunMax_eq ▸ Nat.two_pow_pos 15)
    have hkn : min n smRunMax ≤ n := min_le_left _ _
    obtain ⟨hsplit, hdisj⟩ := sectors_points_split g off hkn
    rw [hsplit] at hadm
    have hon1 := sectors_onMap (j := 0) (hon hpos) hk (by omega)
    have hoff : off < 2 ^ 47 := (Nat.lt_add_of_pos_right hpos).trans_le hfit
    have h1 : Replays g (ws ++ [smEntry off ty (min n smRunMax)])
        (applied ty A (sectors g off (min n smRunMax)).points) := by
      refine h.snoc (applied_subset_whole h.inside hon1.points_subset) ?_
      intro maptype sm hsm
      refine loadEntry_spec hon1 hadm.left hsm smDebugDecode_smEntry smTypeDecode_smEntry ?_ ?_
      · rw [smOffsetDecode_smEntry hoff]
        rfl
      · rw [smRunDecode_smEntry hk (min_le_right _ _), sectors_len]
    have hrest := ih h1 (fun hlt => sectors_onMap (hon hpos) hlt (by omega))
      (by rw [add_assoc, add_sub_of_le hkn]; exact hfit) (hadm.right hdisj)
    rw [segRuns, if_neg hn, hsplit, ← applied_applied]
    rw [append_assoc] at hrest
    exact hrest

/-- The offsets of a map, in sectors from its start, fit the 47-bit field. -/
def Fits47 (sm : SpaceMap g) : Prop :=
  ∀ ss ∈ sm.smRoot.segs, (ss.stop - g.smStart) >>> g.smShift ≤ 2 ^ 47

/-- **A WHOLE MAP**: the entries of its segments, in any order, have its effect. -/
theorem Replays.segs {segs : List Seg} (h : Replays g ws A) (hr : Ranges g segs)
    (hfit : ∀ ss ∈ segs, (ss.stop - g.smStart) >>> g.smShift ≤ 2 ^ 47)
    (hadm : Admits ty A (cover segs)) :
    Replays g (ws ++ segs.flatMap (segEntries g ty)) (applied ty A (cover segs)) := by
  induction segs generalizing ws A with
  | nil =>
    rw [flatMap_nil, append_nil, cover_nil, applied_empty]
    exact h
  | cons ss segs ih =>
    obtain ⟨hon, hdisj, hrest⟩ := hr.cons
    have hss := hon.eq_sectors
    have hfit1 : (ss.start - g.smStart) >>> g.smShift + ss.len >>> g.smShift ≤ 2 ^ 47 := by
      have hstop := hfit ss mem_cons_self
      rw [← hon.start_add_len, Nat.add_comm ss.start, Nat.add_sub_assoc hon.lo,
        add_comm] at hstop
      rw [shiftRight_eq_div_pow] at hstop ⊢
      rw [shiftRight_eq_div_pow, ← Nat.add_div_of_dvd_left hon.len_dvd]
      exact hstop
    have h1 := h.runs (fun _ => hss ▸ hon) hfit1 (hss ▸ hadm.left)
    rw [← hss] at h1
    have h2 := ih h1 hrest (fun t ht => hfit t (mem_cons_of_mem _ ht)) (hadm.right hdisj)
    rw [flatMap_cons, cover_cons, ← applied_applied, ← append_assoc]
    exact h2

/-- The log as a whole stands for `A`, and `smo_alloc` is its size. -/
structure LogHolds (g : SpaceGeom) (log : SpaceLog) (A : Finset ℕ) : Prop where
  phase : 8 ∣ log.smo.smoObjsize
  replays : Replays g log.entries A
  alloc_eq : log.smo.smoAlloc = A.card

theorem LogHolds.empty (hsize : log.smo.smoObjsize = 0) (halloc : log.smo.smoAlloc = 0) :
    LogHolds g log ∅ := by
  refine ⟨hsize ▸ dvd_zero 8, ?_, halloc⟩
  rw [SpaceLog.entries, hsize]
  exact Replays.nil g

structure Extends (log log' : SpaceLog) : Prop where
  object : log'.smo.smoObject = log.smo.smoObject
  size_le : log.smo.smoObjsize ≤ log'.smo.smoObjsize
  words_eq : ∀ i < log.smo.smoObjsize / 8, log'.words i = log.words i

theorem Extends.refl (log : SpaceLog) : Extends log log := ⟨rfl, le_rfl, fun _ _ => rfl⟩

theorem Extends.trans {log1 log2 log3 : SpaceLog} (h : Extends log1 log2) (h' : Extends log2 log3) :
    Extends log1 log3 := by
  refine ⟨h'.object.trans h.object, h.size_le.trans h'.size_le, ?_⟩
  intro i hi
  rw [h'.words_eq i (hi.trans_le (Nat.div_le_div_right h.size_le)), h.words_eq i hi]

theorem Extends.append (log : SpaceLog) (ws : List ℕ) : Extends log (log.append ws) := by
  refine ⟨rfl, le_add_right _ _, ?_⟩
  intro i hi
  exact if_neg (not_le.mpr hi)

/-! ## What `space_map_sync` appends -/

/-- The buffer and the object together hold `ws`. -/
structure SyncBuf.Holds (start : SpaceLog) (b : SyncBuf) (ws : List ℕ) : Prop where
  phase : 8 ∣ b.log.smo.smoObjsize
  words : b.log.entries ++ b.pending = ws
  extend : Extends start b.log
  alloc : b.log.smo.smoAlloc = start.smo.smoAlloc

section Buf

variable {start : SpaceLog} {b : SyncBuf}

section

variable (h : SyncBuf.Holds start b ws)

include h

theorem SyncBuf.Holds.flush : SyncBuf.Holds start b.flush ws := by
  refine ⟨Nat.dvd_add h.phase (dvd_mul_right _ _), ?_, h.extend.trans (Extends.append _ _), h.alloc⟩
  show (b.log.append b.pending).entries ++ [] = ws
  rw [append_nil, b.log.entries_append h.phase, h.words]

/-- **FLUSH ANYWHERE**: an entry goes behind all others, whether or not the buffer
    had to be written first. -/
theorem SyncBuf.Holds.put (cap e : ℕ) : SyncBuf.Holds start (SyncBuf.put cap b e) (ws ++ [e]) := by
  have hput : ∀ {b : SyncBuf}, SyncBuf.Holds start b ws →
      SyncBuf.Holds start { b with pending := b.pending ++ [e] } (ws ++ [e]) := by
    intro b hb
    exact { hb with words := by rw [← append_assoc, hb.words] }
  rw [SyncBuf.put]
  split_ifs
  · exact hput h.flush
  · exact hput h

theorem SyncBuf.Holds.putAll (cap : ℕ) (es : List ℕ) :
    SyncBuf.Holds start (es.foldl (SyncBuf.put cap) b) (ws ++ es) := by
  induction es generalizing b ws with
  | nil =>
    rw [append_nil]
    exact h
  | cons e es ih =>
    have hnext := ih (h.put cap e)
    rw [append_assoc] at hnext
    exact hnext

end

variable (g ty) in
theorem SyncBuf.Holds.putSegs (h : SyncBuf.Holds start b ws) (cap : ℕ) (segs : List Seg) :
    SyncBuf.Holds start (segs.foldl (fun b ss => (segEntries g ty ss).foldl (SyncBuf.put cap) b) b)
      (ws ++ segs.flatMap (segEntries g ty)) := by
  induction segs generalizing b ws with
  | nil =>
    rw [flatMap_nil, append_nil]
    exact h
  | cons ss segs ih =>
    have hnext := ih (h.putAll cap (segEntries g ty ss))
    rw [append_assoc] at hnext
    exact hnext

theorem SyncBuf.Holds.finish (h : SyncBuf.Holds start b ws) :
    8 ∣ b.finish.smo.smoObjsize ∧ b.finish.entries = ws ∧ Extends start b.finish
      ∧ b.finish.smo.smoAlloc = start.smo.smoAlloc := by
  rw [SyncBuf.finish]
  split_ifs with hp
  · have hw := h.words
    rw [hp, append_nil] at hw
    exact ⟨h.phase, hw, h.extend, h.alloc⟩
  · have hf := h.flush
    have hw := hf.words
    rw [SyncBuf.flush, append_nil] at hw
    exact ⟨hf.phase, hw, hf.extend, hf.alloc⟩

end Buf

theorem foldl_sub_len (segs : List Seg) (space : ℕ) :
    segs.foldl (fun space ss => space - ss.len) space = space - (segs.map Seg.len).sum := by
  induction segs generalizing space with
  | nil => rfl
  | cons ss segs ih => rw [List.foldl_cons, ih, List.map_cons, List.sum_cons, Nat.sub_sub]

/-- `smo_alloc` follows the size of the allocated set; the 64-bit sum and difference do not wrap. -/
theorem syncAlloc_applied (hA : A ⊆ g.whole) (hadm : Admits ty A sm.points) :
    syncAlloc ty A.card sm.smSpace = (applied ty A sm.points).card := by
  have hlt : (applied ty A sm.points).card < 2 ^ 64 := by
    have hcard := card_le_card (applied_subset_whole hA sm.points_subset : applied ty A _ ⊆ _)
    rw [g.card_whole] at hcard
    exact hcard.trans_lt ((le_add_left _ _).trans_lt g.fits)
  rw [card_applied hadm] at hlt ⊢
  rw [← sm.card_points]
  cases ty with
  | alloc => exact mod_eq_of_lt hlt
  | free =>
    have hsub : sm.points.card ≤ A.card := card_le_card hadm
    rw [syncAlloc, Nat.add_comm, Nat.add_sub_assoc hsub, Nat.add_mod_left]
    exact mod_eq_of_lt hlt

/-- **SYNC**: a map that the log admits is appended, with its effect on the
    allocated set, and emptied. -/
theorem spaceMapSync_spec (o : DestroyOrder) (h : LogHolds g log A) (hfit : Fits47 sm)
    (hadm : Admits ty A sm.points) (syncpass txg : ℕ) :
    ∃ sm' log', spaceMapSync o sm ty syncpass txg log = .ok (sm', log') ∧ sm'.points = ∅
      ∧ LogHolds g log' (applied ty A sm.points) ∧ Extends log log' := by
  by_cases hz : sm.smSpace = 0
  · have hempty := SpaceMap.space_zero_iff.mp hz
    refine ⟨sm, log, if_pos hz, hempty, ?_, Extends.refl log⟩
    rw [hempty, applied_empty]
    exact h
  have hcover : cover (o.order sm.smRoot.segs) = sm.points := cover_perm (o.perm _)
  have hspace : (o.order sm.smRoot.segs).foldl (fun space ss => space - ss.len) sm.smSpace = 0 := by
    rw [foldl_sub_len, ((o.perm _).map Seg.len).sum_eq, sm.space_eq]
    exact Nat.sub_self _
  have hreplays := (h.replays.debug ty syncpass txg).segs (sm.ranges.perm (o.perm _))
    (fun ss hss => hfit ss ((o.perm _).mem_iff.mp hss)) (hcover.symm ▸ hadm)
  rw [hcover] at hreplays
  -- the words in the object and the buffer, whenever the buffer was written
  let smo := { log.smo with smoAlloc := syncAlloc ty log.smo.smoAlloc sm.smSpace }
  have hstart : SyncBuf.Holds ⟨smo, log.words⟩ ⟨[smDebugEntry ty syncpass txg], ⟨smo, log.words⟩⟩
      (log.entries ++ [smDebugEntry ty syncpass txg]) := ⟨h.phase, rfl, Extends.refl _, rfl⟩
  obtain ⟨hphase, hwords, hext, halloc⟩ := (hstart.putSegs g ty
    (min ((8 + sm.smRoot.segs.length) * 8) spaceMapBlock / 8) (o.order sm.smRoot.segs)).finish
  rw [spaceMapSync, if_neg hz]
  refine ⟨_, _, if_neg (not_not.mpr hspace), rfl, ⟨hphase, ?_, ?_⟩, ?_⟩
  · rw [hwords]
    exact hreplays
  · rw [halloc, ← syncAlloc_applied h.replays.inside hadm, ← h.alloc_eq]
  · exact { hext with }

theorem LogHolds.truncate (log : SpaceLog) : LogHolds g (spaceMapTruncate log) ∅ :=
  LogHolds.empty rfl rfl

/-! ## What `space_map_load` rebuilds -/

theorem loadBase_spec (maptype : MapType) (hempty : sm.points = ∅) :
    ∃ base, loadBase maptype sm = .ok base ∧ base.points = view g maptype ∅ := by
  cases maptype with
  | alloc => exact ⟨sm, rfl, hempty⟩
  | free =>
    have hon : OnMap g ⟨g.smStart, g.smStart + g.smSize⟩ :=
      ⟨Nat.lt_add_of_pos_right g.size_pos, le_rfl, le_rfl, g.start_dvd,
        Nat.dvd_add g.start_dvd g.size_dvd⟩
    have hins : Insertable sm ⟨g.smStart, g.smStart + g.smSize⟩ :=
      ⟨hon, by rw [hempty]; exact disjoint_empty_left _⟩
    obtain ⟨base, hadd, hbase⟩ := spaceMapAdd_spec hins
    refine ⟨base, ?_, ?_⟩
    · rw [Seg.len, Nat.add_sub_cancel_left] at hadd
      exact hadd
    · rw [hbase, hempty, view]
      rfl

theorem foldlM_take {α β : Type} {f : β → α → Except SmPanic β} {l : List α} {b b' : β}
    (h : l.foldlM f b = .ok b') (n : ℕ) : ∃ b1, (l.take n).foldlM f b = .ok b1 := by
  rw [← take_append_drop n l, foldlM_append] at h
  cases hpre : (l.take n).foldlM f b with
  | ok b1 => exact ⟨b1, rfl⟩
  | error e =>
    rw [hpre] at h
    cases h

theorem block_entries (h : 8 ∣ log.smo.smoObjsize) (i : ℕ) :
    (List.range (min (log.smo.smoObjsize - spaceMapBlock * i) spaceMapBlock / 8)).map
        (fun k => log.words (spaceMapBlock * i / 8 + k))
      = (log.entries.drop (512 * i)).take 512 := by
  obtain ⟨m, hm⟩ := h
  have hdiv : spaceMapBlock * i / 8 = 512 * i := by rw [spaceMapBlock]; omega
  have hsize : min (log.smo.smoObjsize - spaceMapBlock * i) spaceMapBlock / 8
      = min (m - 512 * i) 512 := by rw [spaceMapBlock]; omega
  have hm' : log.smo.smoObjsize / 8 = m := by rw [hm, Nat.mul_div_cancel_left _ (by decide)]
  rw [hdiv, hsize, SpaceLog.entries, hm']
  refine ext_getElem ?_ ?_
  · simp [min_comm]
  · intro k hk hk'
    simp

/-- **BLOCK BY BLOCK**: reading in blocks replays the entries in order, until a read fails. -/
theorem loadBlocks_spec (h : 8 ∣ log.smo.smoObjsize) (readError : ℕ → ℕ) {base loaded : SpaceMap g}
    (hfold : log.entries.foldlM (loadEntry maptype) base = .ok loaded) (i : ℕ) :
    (∃ sm, (List.range i).foldlM (loadBlock maptype log readError) base = .ok sm
        ∧ (log.entries.take (512 * i)).foldlM (loadEntry maptype) base = .ok sm)
      ∨ ∃ off, readError off ≠ 0
        ∧ (List.range i).foldlM (loadBlock maptype log readError) base
            = .error (.io (readError off)) := by
  induction i with
  | zero => exact .inl ⟨base, rfl, rfl⟩
  | succ i ih =>
    rw [List.range_succ, List.foldlM_append]
    rcases ih with ⟨sm, hblocks, htake⟩ | ⟨off, hoff, hblocks⟩
    · rw [hblocks]
      show (∃ sm', foldlM (loadBlock maptype log readError) sm [i] = .ok sm' ∧ _)
        ∨ ∃ off, _ ∧ foldlM (loadBlock maptype log readError) sm [i] = _
      rw [foldlM_cons]
      have hphase : min (log.smo.smoObjsize - spaceMapBlock * i) spaceMapBlock % 8 = 0 := by
        rw [spaceMapBlock]
        omega
      by_cases hread : readError (spaceMapBlock * i) = 0
      · -- the block is read: its entries are the next 512 of the log
        obtain ⟨sm', hnext⟩ := foldlM_take hfold (512 * (i + 1))
        rw [mul_succ, take_add, foldlM_append, htake] at hnext
        have hnext : ((log.entries.drop (512 * i)).take 512).foldlM (loadEntry maptype) sm
            = .ok sm' := hnext
        refine .inl ⟨sm', ?_, ?_⟩
        · rw [loadBlock, if_neg (not_not.mpr hphase), if_neg (not_not.mpr hread),
            block_entries h, hnext]
          rfl
        · rw [mul_succ, take_add, foldlM_append, htake]
          exact hnext
      · refine .inr ⟨_, hread, ?_⟩
        rw [loadBlock, if_neg (not_not.mpr hphase), if_pos hread]
        rfl
    · refine .inr ⟨off, hoff, ?_⟩
      rw [hblocks]
      rfl

/-- The space that the final `VERIFY` of `space_map_load` expects. -/
theorem loadSpace_eq (h : LogHolds g log A) {loaded : SpaceMap g}
    (hloaded : loaded.points = view g maptype A) :
    loaded.smSpace = loadSpace g maptype log.smo.smoAlloc := by
  rw [← loaded.card_points, hloaded, h.alloc_eq]
  cases maptype with
  | alloc => rfl
  | free =>
    have hle := card_le_card h.replays.inside
    have hlt : g.smSize < 2 ^ 64 := (le_add_left _ _).trans_lt g.fits
    rw [g.card_whole] at hle
    rw [view, card_sdiff_of_subset h.replays.inside, g.card_whole, loadSpace,
      Nat.add_comm, Nat.add_sub_assoc hle, Nat.add_mod_left,
      mod_eq_of_lt ((sub_le _ _).trans_lt hlt)]

/-- **LOAD**: the map is rebuilt from the log, or a read failed and it is left
    empty.  Nothing panics. -/
theorem spaceMapLoad_spec (h : LogHolds g log A) {sm : CoreMap g} (hl : sm.smLoaded = false)
    (hempty : sm.map.points = ∅) (maptype : MapType) (readError : ℕ → ℕ) :
    (∃ loaded : SpaceMap g, spaceMapLoad sm maptype log readError =
      .ok (0, ⟨loaded, true, fun _ => 0⟩)
        ∧ loaded.points = view g maptype A)
      ∨ ∃ off, readError off ≠ 0 ∧ spaceMapLoad sm maptype log readError
          = .ok (readError off, { sm with map := spaceMapCreate g }) := by
  obtain ⟨base, hbase, hpoints⟩ := loadBase_spec maptype hempty
  obtain ⟨loaded, hfold, hloaded⟩ := h.replays.replay maptype base hpoints
  have hz : sm.map.smSpace = 0 := SpaceMap.space_zero_iff.mpr hempty
  rw [spaceMapLoad, if_neg (by rw [hl]; decide), if_neg (not_not.mpr hz), hbase]
  rcases loadBlocks_spec h.phase readError hfold
      ((log.smo.smoObjsize + (spaceMapBlock - 1)) / spaceMapBlock)
    with ⟨sm', hblocks, htake⟩ | ⟨off, hoff, hblocks⟩
  · refine .inl ⟨loaded, ?_, hloaded⟩
    have hall : log.entries.take (512 * ((log.smo.smoObjsize + (spaceMapBlock - 1))
        / spaceMapBlock)) = log.entries := by
      refine take_of_length_le ?_
      rw [SpaceLog.entries, length_map, length_range, spaceMapBlock]
      omega
    rw [hall, hfold] at htake
    cases htake
    simp only [hblocks]
    rw [if_neg (not_not.mpr (loadSpace_eq h hloaded))]
  · refine .inr ⟨off, hoff, ?_⟩
    simp only [hblocks]

/-- One call of `space_map_sync`. -/
structure SyncCall (g : SpaceGeom) where
  order : DestroyOrder
  map : SpaceMap g
  maptype : MapType
  syncpass : ℕ
  txg : ℕ

def syncAll (log : SpaceLog) : List (SyncCall g) → Except SmPanic SpaceLog
  | [] => .ok log
  | c :: calls =>
    match spaceMapSync c.order c.map c.maptype c.syncpass c.txg log with
    | .ok (_, log') => syncAll log' calls
    | .error p => .error p

def allocated (A : Finset ℕ) : List (SyncCall g) → Finset ℕ
  | [] => A
  | c :: calls => allocated (applied c.maptype A c.map.points) calls

/-- Allocations are disjoint from what is allocated, frees are contained in it. -/
def Legal (A : Finset ℕ) : List (SyncCall g) → Prop
  | [] => True
  | c :: calls => Admits c.maptype A c.map.points ∧ Legal (applied c.maptype A c.map.points) calls

theorem syncAll_spec (h : LogHolds g log A) (calls : List (SyncCall g))
    (hfit : ∀ c ∈ calls, Fits47 c.map) (hlegal : Legal A calls) :
    ∃ log', syncAll log calls = .ok log' ∧ LogHolds g log' (allocated A calls) := by
  induction calls generalizing log A with
  | nil => exact ⟨log, rfl, h⟩
  | cons c calls ih =>
    obtain ⟨hadm, hrest⟩ := hlegal
    obtain ⟨sm', log1, hsync, -, hlog1, -⟩ := spaceMapSync_spec c.order h
      (hfit c mem_cons_self) hadm c.syncpass c.txg
    obtain ⟨log', hall, hlog'⟩ := ih hlog1 (fun c hc => hfit c (mem_cons_of_mem _ hc)) hrest
    refine ⟨log', ?_, hlog'⟩
    rw [syncAll, hsync]
    exact hall

/-- **ROUND TRIP**: after any sequence of syncs into a new log, loading it gives what is allocated
    (`SM_ALLOC`) or what is free (`SM_FREE`), with the space that `space_map_load` verifies. -/
theorem space_map_log_round_trip (g : SpaceGeom) (log : SpaceLog) (hsize : log.smo.smoObjsize = 0)
    (halloc : log.smo.smoAlloc = 0) (calls : List (SyncCall g)) (hfit : ∀ c ∈ calls, Fits47 c.map)
    (hlegal : Legal ∅ calls) (sm : CoreMap g) (hl : sm.smLoaded = false)
    (hempty : sm.map.points = ∅) (readError : ℕ → ℕ) (hread : ∀ off, readError off = 0)
    (maptype : MapType) :
    ∃ (log' : SpaceLog) (loaded : SpaceMap g), syncAll log calls = .ok log'
        ∧ spaceMapLoad sm maptype log' readError = .ok (0, ⟨loaded, true, fun _ => 0⟩)
        ∧ loaded.points = view g maptype (allocated ∅ calls)
        ∧ loaded.smSpace = loadSpace g maptype log'.smo.smoAlloc
        ∧ log'.smo.smoAlloc = (allocated ∅ calls).card := by
  obtain ⟨log', hall, hlog'⟩ := syncAll_spec (LogHolds.empty hsize halloc) calls hfit hlegal
  rcases spaceMapLoad_spec hlog' hl hempty maptype readError with
    ⟨loaded, hload, hloaded⟩ | ⟨off, hoff, -⟩
  · exact ⟨log', loaded, hall, hload, hloaded, loadSpace_eq hlog' hloaded, hlog'.alloc_eq⟩
  · exact absurd (hread off) hoff

end Log

/-! A map of 40000 sectors, longer than one run, from which one sector is freed. -/

def demoGeom : SpaceGeom where
  smStart := 2 ^ 30
  smSize := 2 ^ 25
  smShift := 9
  size_pos := by decide
  fits := by decide
  start_dvd := by decide
  size_dvd := by decide

/-- A map with the one segment `[2^30 + 512 * lo, 2^30 + 512 * hi)`. -/
def demoMap (lo hi : ℕ) (hlt : lo < hi) (hhi : hi ≤ 2 ^ 16) : SpaceMap demoGeom where
  smRoot := ⟨[⟨2 ^ 30 + 512 * lo, 2 ^ 30 + 512 * hi⟩], by
    refine separated_cons.mpr ⟨?_, by simp, Separated.nil⟩
    exact Nat.add_lt_add_left (Nat.mul_lt_mul_of_pos_left hlt (by decide)) _⟩
  smSpace := 2 ^ 30 + 512 * hi - (2 ^ 30 + 512 * lo)
  space_eq := rfl
  onMap := by
    intro ss hss
    obtain rfl := List.mem_singleton.mp hss
    refine ⟨?_, le_add_right _ _, ?_, ?_, ?_⟩
    · exact Nat.add_lt_add_left (Nat.mul_lt_mul_of_pos_left hlt (by decide)) _
    · exact Nat.add_le_add_left (Nat.mul_le_mul_left 512 hhi) _
    · exact Nat.dvd_add (by decide) (dvd_mul_right 512 lo)
    · exact Nat.dvd_add (by decide) (dvd_mul_right 512 hi)

theorem demoMap_points (lo hi : ℕ) (hlt : lo < hi) (hhi : hi ≤ 2 ^ 16) :
    (demoMap lo hi hlt hhi).points = Finset.Ico (2 ^ 30 + 512 * lo) (2 ^ 30 + 512 * hi) :=
  union_empty _

def demoCalls : List (SyncCall demoGeom) :=
  [⟨⟨id, fun _ => .refl _⟩, demoMap 0 40000 (by decide) (by decide), .alloc, 1, 4⟩,
    ⟨⟨id, fun _ => .refl _⟩, demoMap 7 8 (by decide) (by decide), .free, 1, 5⟩]

theorem demoCalls_fit : ∀ c ∈ demoCalls, Fits47 c.map := by
  intro c hc ss hss
  rcases mem_cons.mp hc with rfl | hc
  · obtain rfl := List.mem_singleton.mp hss
    decide
  · obtain rfl := List.mem_singleton.mp hc
    obtain rfl := List.mem_singleton.mp hss
    decide

theorem demoCalls_legal : Legal ∅ demoCalls := by
  refine ⟨disjoint_empty_left _, ?_, trivial⟩
  rw [demoMap_points, demoMap_points]
  exact Finset.Ico_subset_Ico (by decide) (by decide)

theorem space_map_log_round_trip_long_run :
    ∃ (log' : SpaceLog) (loaded : SpaceMap demoGeom),
      syncAll ⟨⟨1, 0, 0⟩, fun _ => 0⟩ demoCalls = .ok log'
        ∧ spaceMapLoad ⟨spaceMapCreate demoGeom, false, fun _ => 0⟩ .free log' (fun _ => 0)
            = .ok (0, ⟨loaded, true, fun _ => 0⟩)
        ∧ loaded.points = view demoGeom .free (allocated ∅ demoCalls)
        ∧ loaded.smSpace = loadSpace demoGeom .free log'.smo.smoAlloc
        ∧ log'.smo.smoAlloc = (allocated ∅ demoCalls).card :=
  space_map_log_round_trip demoGeom ⟨⟨1, 0, 0⟩, fun _ => 0⟩ rfl rfl demoCalls demoCalls_fit
    demoCalls_legal ⟨spaceMapCreate demoGeom, false, fun _ => 0⟩ rfl rfl (fun _ => 0)
    (fun _ => rfl) .free

end Sirius.Space
