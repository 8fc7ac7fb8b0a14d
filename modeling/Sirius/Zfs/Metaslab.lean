import Sirius.Zfs.SpaceMapLog
import Mathlib.Data.Nat.Factorization.Basic

/-! # Metaslabs — allocating, freeing and syncing one region of a vdev

    A metaslab's free space is in `ms_map` while that is loaded.  What a txg allocates and
    frees goes to `ms_allocmap[txg & 3]` and `ms_freemap[txg & 3]`, and from there, in
    `metaslab_sync`, to the log on disk; space freed returns to `ms_map` in
    `metaslab_sync_done`.  The slot of the txg before the syncing one serves as `freed_map`
    meanwhile.

    Each function is modelled for one metaslab.  Metaslabs only meet in the choice of the one
    to allocate from, so `metaslab_group_alloc` is the body of its loop for the one that was
    chosen. -/

namespace Sirius.Alloc

open Sirius.Lib Sirius.Space Function List Nat

/-- `TXG_CONCURRENT_STATES`: open, quiescing and syncing. -/
def txgConcurrentStates : ℕ := 3

/-- `txg & TXG_MASK`. -/
def slot (txg : ℕ) : Fin 4 := ⟨txg % 4, mod_lt _ (by decide)⟩

/-- `TXG_CLEAN(txg) & TXG_MASK`, where `TXG_CLEAN(txg)` is `txg - 1` in 64 bits. -/
def cleanSlot (txg : ℕ) : Fin 4 := slot (txg + 3)

/-! ## The state of a metaslab -/

/-- `metaslab_t`, with the contents of its space map object and its membership in
    the four lists of `vdev_ms_list`. -/
structure Metaslab (g : SpaceGeom) where
  msMap : CoreMap g
  msAllocmap : Fin 4 → SpaceMap g
  msFreemap : Fin 4 → SpaceMap g
  -- the allocmaps and freemaps are created when the space becomes available
  msCreated : Bool
  msSmo : SpaceMapObj
  msSmoSyncing : SpaceMapObj
  msWeight : ℕ
  words : ℕ → ℕ
  msTxgNode : Fin 4 → Bool

/-- `vdev_ms_shift` and `vdev_ms_count`, for the weight of a metaslab. -/
structure Vdev where
  vdevMsShift : ℕ
  vdevMsCount : ℕ

section Functions

variable {g : SpaceGeom}

/-- `if (map->sm_space == 0) vdev_dirty(vd, VDD_METASLAB, msp, txg)`. -/
def vdevDirtyIfEmpty (ms : Metaslab g) (map : SpaceMap g) (t : Fin 4) : Metaslab g :=
  { ms with
    msTxgNode := if map.smSpace = 0 then update ms.msTxgNode t true else ms.msTxgNode }

/-- `P2ROUNDUP(x, align)` for a power of two. -/
def p2Roundup (x align : ℕ) : ℕ := (x + align - 1) / align * align

/-- `size & -size`, in 64 bits. -/
def lowBit (size : ℕ) : ℕ := size &&& (2 ^ 64 - size)

/-- The first segment with room for `size` bytes at the alignment. -/
def ffScan (align size : ℕ) : List Seg → Option ℕ
  | [] => none
  | ss :: rest =>
    if p2Roundup ss.start align + size ≤ ss.stop then some (p2Roundup ss.start align)
    else ffScan align size rest

/-- The segments from the cursor on: from a segment that overlaps
    `[cursor, cursor + size)`, or else from the next one after it.  Of several
    overlapping segments `avl_find` returns the one it meets first; `hit` picks it. -/
def ffFrom (segs : List Seg) (cursor size hit : ℕ) : List Seg :=
  let hits := segs.filter fun ss => spaceMapSegCompare ⟨cursor, cursor + size⟩ ss == .eq
  match hits[hit % hits.length]? with
  | some ss => segs.filter fun t => ss.start ≤ t.start
  | none => segs.filter fun t => cursor ≤ t.start

/-- `metaslab_ff_alloc`: from the cursor of this alignment on, then once more from
    the start of the map.  `tree` is the shape of the tree, as far as it matters. -/
def metaslabFfAlloc (sm : CoreMap g) (size : ℕ) (tree : ℕ → ℕ) : Option ℕ × CoreMap g :=
  let align := lowBit size
  let i := align.log2
  let segs := sm.map.smRoot.segs
  match ffScan align size (ffFrom segs (sm.smPpd i) size (tree (sm.smPpd i))) with
  | some offset => (some offset, { sm with smPpd := update sm.smPpd i (offset + size) })
  | none =>
    if sm.smPpd i = 0 then (none, sm)
    else match ffScan align size (ffFrom segs 0 size (tree 0)) with
      | some offset => (some offset, { sm with smPpd := update sm.smPpd i (offset + size) })
      | none => (none, { sm with smPpd := update sm.smPpd i 0 })

/-- `space_map_alloc`, with `metaslab_ff_ops`. -/
def spaceMapAlloc (sm : CoreMap g) (size : ℕ) (tree : ℕ → ℕ) :
    Except SmPanic (Option ℕ × CoreMap g) :=
  if sm.smLoaded = false then .error .noOps
  else match metaslabFfAlloc sm size tree with
    | (none, sm') => .ok (none, sm')
    | (some start, sm') => do
        let map ← spaceMapRemove sm'.map start size
        return (some start, { sm' with map := map })

/-- `space_map_free`; `metaslab_ff_free` leaves the cursors alone. -/
def spaceMapFree (sm : CoreMap g) (start size : ℕ) : Except SmPanic (CoreMap g) := do
  let map ← spaceMapAdd sm.map start size
  if sm.smLoaded = false then .error .noOps
  else return { sm with map := map }

def spaceMapUnload (_ : CoreMap g) : CoreMap g := ⟨spaceMapCreate g, false, fun _ => 0⟩

/-- `METASLAB_WEIGHT_PRIMARY` and `METASLAB_WEIGHT_SECONDARY`. -/
inductive Activation
  | primary | secondary
  deriving DecidableEq

def Activation.weight : Activation → ℕ
  | .primary => 2 ^ 63
  | .secondary => 2 ^ 62

def metaslabActiveMask : ℕ := 2 ^ 63 ||| 2 ^ 62

def metaslabWeight (vd : Vdev) (ms : Metaslab g) : ℕ :=
  let space := g.smSize - ms.msSmo.smoAlloc
  let weight := 2 * space - ((g.smStart >>> vd.vdevMsShift) * space) / vd.vdevMsCount
  let weight := if ms.msSmo.smoObject ≠ 0 then weight * 2 else weight
  weight ||| (ms.msWeight &&& metaslabActiveMask)

/-- `metaslab_activate`: the error code and the metaslab. -/
def metaslabActivate (ms : Metaslab g) (activation : Activation) (readError : ℕ → ℕ) :
    Except SmPanic (ℕ × Metaslab g) :=
  if ms.msWeight &&& metaslabActiveMask = 0 then do
    let (error, sm) ← spaceMapLoad ms.msMap .free ⟨ms.msSmo, ms.words⟩ readError
    if error ≠ 0 then return (error, { ms with msMap := sm, msWeight := 0 })
    else return (0, { ms with msMap := sm, msWeight := ms.msWeight ||| activation.weight })
  else .ok (0, ms)

def metaslabPassivate (ms : Metaslab g) (size : ℕ) : Metaslab g :=
  { ms with msWeight := min ms.msWeight size }

/-- `metaslab_group_alloc`, for the metaslab it has selected. -/
def metaslabGroupAlloc (ms : Metaslab g) (size txg : ℕ) (activation : Activation)
    (readError tree : ℕ → ℕ) : Except SmPanic (Option ℕ × Metaslab g) :=
  if ms.msWeight < size then .ok (none, ms)
  else if ms.msWeight &&& Activation.secondary.weight ≠ 0 ∧ activation = .primary then
    -- `ms_weight & ~METASLAB_ACTIVE_MASK`
    .ok (none, metaslabPassivate ms (ms.msWeight % 2 ^ 62))
  else do
    let (error, ms) ← metaslabActivate ms activation readError
    if error ≠ 0 then return (none, ms)
    else
      let (offset, sm) ← spaceMapAlloc ms.msMap size tree
      let ms := { ms with msMap := sm }
      match offset with
      | none => return (none, metaslabPassivate ms (size - 1))
      | some offset =>
        let ms := vdevDirtyIfEmpty ms (ms.msAllocmap (slot txg)) (slot txg)
        let map ← spaceMapAdd (ms.msAllocmap (slot txg)) offset size
        return (some offset, { ms with msAllocmap := update ms.msAllocmap (slot txg) map })

/-- The check of `metaslab_free_dva` that the range is allocated, if that can be told: it is not
    free in a loaded `ms_map`, or one of the last three txgs allocated it. -/
def freeSanityCheck (ms : Metaslab g) (offset size txg : ℕ) : Except SmPanic Bool :=
  if ms.msMap.smLoaded = false then .ok true
  else do
    let inMap ← spaceMapContains ms.msMap.map offset size
    if !inMap then return true
    else (range txgConcurrentStates).foldlM (fun allocd i => do
      if allocd then return true
      -- `(txg - i) & TXG_MASK` in 64 bits
      else spaceMapContains (ms.msAllocmap (slot (txg + 4 - i))) offset size) false

/-- `metaslab_free_dva` in a pool that is not frozen: from `spa_freeze_txg` on it does nothing. -/
def metaslabFreeDva (ms : Metaslab g) (offset size txg : ℕ) (now : Bool) :
    Except SmPanic (Metaslab g) :=
  if now then do
    let map ← spaceMapRemove (ms.msAllocmap (slot txg)) offset size
    let sm ← spaceMapFree ms.msMap offset size
    return { ms with msAllocmap := update ms.msAllocmap (slot txg) map, msMap := sm }
  else do
    let ms := vdevDirtyIfEmpty ms (ms.msFreemap (slot txg)) (slot txg)
    let map ← spaceMapAdd (ms.msFreemap (slot txg)) offset size
    let allocd ← freeSanityCheck ms offset size txg
    if allocd then return { ms with msFreemap := update ms.msFreemap (slot txg) map }
    else .error .freeingFree

/-- The pure allocmap of the condense branch: everything, minus the in-core map,
    minus what was freed in this txg, minus what later txgs allocated. -/
def condensedAllocmap (ms : Metaslab g) (txg : ℕ) (freedMap : SpaceMap g) :
    Except SmPanic (SpaceMap g) := do
  let allocmap ← spaceMapAdd (spaceMapCreate g) g.smStart g.smSize
  let allocmap ← spaceMapWalk ms.msMap.map spaceMapRemove allocmap
  let allocmap ← spaceMapWalk freedMap spaceMapRemove allocmap
  (range' 1 (txgConcurrentStates - 1)).foldlM
    (fun allocmap t => spaceMapWalk (ms.msAllocmap (slot (txg + t))) spaceMapRemove allocmap)
    allocmap

/-- The log is at least twice the size of the in-core map, in the first pass. -/
def shouldCondense (ms : Metaslab g) (syncpass : ℕ) : Bool :=
  ms.msMap.smLoaded && syncpass == 1
    && decide (2 * 8 * ms.msMap.map.smRoot.segs.length ≤ ms.msSmoSyncing.smoObjsize)

/-- The two maps to append and the log to append them to: those of the txg, or a
    pure allocmap and a truncated log. -/
def syncSource (ms : Metaslab g) (txg syncpass : ℕ) (freedMap : SpaceMap g) (log : SpaceLog) :
    Except SmPanic (SpaceMap g × SpaceMap g × SpaceLog) :=
  if shouldCondense ms syncpass then do
    let allocmap ← condensedAllocmap ms txg freedMap
    return (allocmap, spaceMapCreate g, spaceMapTruncate log)
  else .ok (ms.msAllocmap (slot txg), ms.msFreemap (slot txg), log)

/-- `metaslab_sync`.  `newObject` is what `dmu_object_alloc` returns. -/
def metaslabSync (o : DestroyOrder) (ms : Metaslab g) (txg syncpass newObject : ℕ) :
    Except SmPanic (Metaslab g) := do
  let smo := if ms.msSmoSyncing.smoObject = 0 then { ms.msSmoSyncing with smoObject := newObject }
    else ms.msSmoSyncing
  let freedMap ← spaceMapWalk (ms.msFreemap (slot txg)) spaceMapAdd (ms.msFreemap (cleanSlot txg))
  let (allocmap, freemap, log) ← syncSource ms txg syncpass freedMap ⟨smo, ms.words⟩
  let (allocmap, log) ← spaceMapSync o allocmap .alloc syncpass txg log
  let (freemap, log) ← spaceMapSync o freemap .free syncpass txg log
  return { ms with
    msAllocmap := update ms.msAllocmap (slot txg) allocmap
    msFreemap := update (update ms.msFreemap (cleanSlot txg) freedMap)
      (slot txg) freemap
    msSmoSyncing := log.smo
    words := log.words }

def createMaps (ms : Metaslab g) : Metaslab g :=
  if ms.msCreated then ms
  else { ms with
    msAllocmap := fun _ => spaceMapCreate g
    msFreemap := fun _ => spaceMapCreate g
    msCreated := true }

def evictable (ms : Metaslab g) (txg : ℕ) : Bool :=
  (range' 1 (txgConcurrentStates - 1)).all fun t => (ms.msAllocmap (slot (txg + t))).smSpace == 0

def evictIfIdle (ms : Metaslab g) (txg : ℕ) : Metaslab g :=
  if ms.msMap.smLoaded = true ∧ ms.msWeight &&& metaslabActiveMask = 0 ∧ evictable ms txg = true
  then { ms with msMap := spaceMapUnload ms.msMap } else ms

/-- What was freed returns to the in-core map, if that is loaded. -/
def vacateFreed (o : DestroyOrder) (freedMap : SpaceMap g) (sm : CoreMap g) :
    Except SmPanic (SpaceMap g × CoreMap g) :=
  if sm.smLoaded then spaceMapVacate o freedMap spaceMapFree sm
  else .ok (spaceMapCreate g, sm)

def metaslabSyncDone (o : DestroyOrder) (vd : Vdev) (ms : Metaslab g) (txg : ℕ) :
    Except SmPanic (Metaslab g) := do
  let ms := createMaps ms
  if (ms.msAllocmap (slot txg)).smSpace ≠ 0 then .error .notSynced
  else if (ms.msFreemap (slot txg)).smSpace ≠ 0 then .error .notSynced
  else
    let (freedMap, sm) ← vacateFreed o (ms.msFreemap (cleanSlot txg)) ms.msMap
    let ms := { ms with
      msFreemap := update ms.msFreemap (cleanSlot txg) freedMap
      msSmo := ms.msSmoSyncing
      msMap := sm }
    let ms := evictIfIdle ms txg
    return { ms with msWeight := metaslabWeight vd ms }

/-- `metaslab_init`, before its space is available: only the main map exists. -/
def metaslabInit (smo : SpaceMapObj) (words : ℕ → ℕ) : Metaslab g where
  msMap := ⟨spaceMapCreate g, false, fun _ => 0⟩
  msAllocmap := fun _ => spaceMapCreate g
  msFreemap := fun _ => spaceMapCreate g
  msCreated := false
  msSmo := ⟨0, 0, 0⟩
  msSmoSyncing := smo
  msWeight := 0
  words := words
  msTxgNode := fun _ => false

/-! ## The lists of dirty metaslabs -/

/-- `vdev_sync`, as far as it concerns this metaslab: a dirty metaslab is taken off
    the list, synced, and put on the list of clean ones. -/
def vdevSync (o : DestroyOrder) (ms : Metaslab g) (txg syncpass newObject : ℕ) :
    Except SmPanic (Metaslab g) :=
  if ms.msTxgNode (slot txg) then do
    let ms ← metaslabSync o ms txg syncpass newObject
    return { ms with
      msTxgNode := update (update ms.msTxgNode (slot txg) false) (cleanSlot txg) true }
  else .ok ms

/-- `vdev_sync_done`, in the same way. -/
def vdevSyncDone (o : DestroyOrder) (vd : Vdev) (ms : Metaslab g) (txg : ℕ) :
    Except SmPanic (Metaslab g) :=
  if ms.msTxgNode (cleanSlot txg) then do
    let ms ← metaslabSyncDone o vd ms txg
    return { ms with msTxgNode := update ms.msTxgNode (cleanSlot txg) false }
  else .ok ms

end Functions

/-! ## What the allocator hands out -/

section Allocator

variable {g : SpaceGeom} {size align off k cursor : ℕ} {segs : List Seg} {sm : CoreMap g} {r : Seg}

theorem dvd_lowBit (h : 2 ^ k ∣ size) : 2 ^ k ∣ lowBit size := by
  rw [dvd_iff_mod_eq_zero, lowBit, and_mod_two_pow, mod_eq_zero_of_dvd h, zero_and]

theorem exists_lowBit_eq (hpos : 0 < size) (hlt : size < 2 ^ 64) :
    ∃ k, k < 64 ∧ lowBit size = 2 ^ k ∧ 2 ^ k ∣ size := by
  obtain ⟨k, m, ⟨y, rfl⟩, rfl⟩ := exists_eq_two_pow_mul_odd hpos.ne'
  have hk : k < 64 := by
    refine (Nat.pow_lt_pow_iff_right (a := 2) (by decide)).mp ?_
    exact (Nat.le_mul_of_pos_right _ (succ_pos _)).trans_lt hlt
  have hy : 2 * y < 2 ^ (64 - k) := by
    refine lt_of_mul_lt_mul_left (a := 2 ^ k) ?_ (Nat.zero_le _)
    rw [← Nat.pow_add, Nat.add_sub_of_le hk.le]
    exact (Nat.mul_lt_mul_of_pos_left (lt_succ_self _) (Nat.two_pow_pos k)).trans hlt
  have hneg : 2 ^ 64 - 2 ^ k * (2 * y + 1) = 2 ^ k * (2 ^ (64 - k) - (2 * y + 1)) := by
    rw [Nat.mul_sub, ← Nat.pow_add, Nat.add_sub_of_le hk.le]
  have hbit : ∀ j, ((2 * y + 1).testBit j && !(2 * y).testBit j) = decide (j = 0) := by
    intro j
    cases j with
    | zero => simp
    | succ j =>
      rw [testBit_succ, testBit_succ, show (2 * y + 1) / 2 = 2 * y / 2 by omega, Bool.and_not_self]
      rfl
  refine ⟨k, hk, eq_of_testBit_eq fun i => ?_, dvd_mul_right _ _⟩
  rw [lowBit, hneg, testBit_and, testBit_two_pow_mul, testBit_two_pow_mul, testBit_two_pow,
    testBit_two_pow_sub_succ hy]
  have hi := hbit (i - k)
  by_cases hki : k ≤ i
  · by_cases hlow : i - k < 64 - k
    · simp only [hki, hlow, decide_true, Bool.true_and, hi]
      exact decide_eq_decide.mpr (by omega)
    · simp [hlow, show k ≠ i by omega]
  · simp [hki, show k ≠ i by omega]

theorem lowBit_pos (hpos : 0 < size) (hlt : size < 2 ^ 64) : 0 < lowBit size := by
  obtain ⟨k, -, hk, -⟩ := exists_lowBit_eq hpos hlt
  rw [hk]
  exact Nat.two_pow_pos k

theorem le_p2Roundup (x : ℕ) (h : 0 < align) : x ≤ p2Roundup x align := by
  rw [p2Roundup]
  have hmod := div_add_mod (x + align - 1) align
  have hlt := mod_lt (x + align - 1) h
  rw [mul_comm] at hmod
  omega

theorem ffScan_spec (halign : 0 < align) (h : ffScan align size segs = some off) :
    align ∣ off ∧ ∃ ss ∈ segs, ss.start ≤ off ∧ off + size ≤ ss.stop := by
  induction segs with
  | nil => cases h
  | cons ss segs ih =>
    rw [ffScan] at h
    split_ifs at h with hfit
    · cases h
      exact ⟨dvd_mul_left _ _, ss, mem_cons_self, le_p2Roundup _ halign, hfit⟩
    · obtain ⟨hdvd, t, ht, hlo, hhi⟩ := ih h
      exact ⟨hdvd, t, mem_cons_of_mem _ ht, hlo, hhi⟩

theorem mem_of_mem_ffFrom {hit : ℕ} {ss : Seg} (h : ss ∈ ffFrom segs cursor size hit) :
    ss ∈ segs := by
  rw [ffFrom] at h
  split at h <;> exact mem_of_mem_filter h

theorem ffScan_ffFrom {hit : ℕ} (hpos : 0 < size) (hlt : size < 2 ^ 64)
    (hdvd : 2 ^ g.smShift ∣ size)
    (h : ffScan (lowBit size) size (ffFrom sm.map.smRoot.segs cursor size hit) = some off) :
    OnMap g ⟨off, off + size⟩ ∧ Finset.Ico off (off + size) ⊆ sm.map.points := by
  obtain ⟨halign, ss, hss, hlo, hhi⟩ := ffScan_spec (lowBit_pos hpos hlt) h
  have hmem := mem_of_mem_ffFrom hss
  have hon := sm.map.onMap ss hmem
  have hoff : 2 ^ g.smShift ∣ off := (dvd_lowBit hdvd).trans halign
  constructor
  · exact ⟨Nat.lt_add_of_pos_right hpos, hon.lo.trans hlo, hhi.trans hon.hi, hoff,
      dvd_add hoff hdvd⟩
  · exact (Finset.Ico_subset_Ico hlo hhi).trans (points_subset_cover hmem)

theorem metaslabFfAlloc_spec (sm : CoreMap g) (hpos : 0 < size) (hlt : size < 2 ^ 64)
    (hdvd : 2 ^ g.smShift ∣ size) (tree : ℕ → ℕ) :
    (metaslabFfAlloc sm size tree).2.map = sm.map
      ∧ (metaslabFfAlloc sm size tree).2.smLoaded = sm.smLoaded
      ∧ ∀ off, (metaslabFfAlloc sm size tree).1 = some off →
        OnMap g ⟨off, off + size⟩ ∧ Finset.Ico off (off + size) ⊆ sm.map.points := by
  rw [metaslabFfAlloc]
  split
  · rename_i offset hscan
    refine ⟨rfl, rfl, ?_⟩
    intro off hoff
    cases hoff
    exact ffScan_ffFrom hpos hlt hdvd hscan
  split_ifs
  · exact ⟨rfl, rfl, nofun⟩
  split
  · rename_i offset hscan
    refine ⟨rfl, rfl, ?_⟩
    intro off hoff
    cases hoff
    exact ffScan_ffFrom hpos hlt hdvd hscan
  · exact ⟨rfl, rfl, nofun⟩

/-- **ALLOCATE**: a loaded map hands out a free range of whole sectors and takes it
    out of the map, or hands out nothing and stays as it is. -/
theorem spaceMapAlloc_spec (hl : sm.smLoaded = true) (hpos : 0 < size) (hlt : size < 2 ^ 64)
    (hdvd : 2 ^ g.smShift ∣ size) (tree : ℕ → ℕ) :
    ∃ r sm', spaceMapAlloc sm size tree = .ok (r, sm') ∧ sm'.smLoaded = true
      ∧ (r = none → sm'.map.points = sm.map.points)
      ∧ ∀ off, r = some off → OnMap g ⟨off, off + size⟩
        ∧ Finset.Ico off (off + size) ⊆ sm.map.points
        ∧ sm'.map.points = sm.map.points \ Finset.Ico off (off + size) := by
  obtain ⟨hmap, hloaded, hoff⟩ := metaslabFfAlloc_spec sm hpos hlt hdvd tree
  rw [spaceMapAlloc, if_neg (by rw [hl]; decide)]
  cases hff : metaslabFfAlloc sm size tree with
  | mk r sm1 =>
    rw [hff] at hmap hloaded hoff
    cases r with
    | none =>
      refine ⟨none, sm1, rfl, hloaded.trans hl, ?_, fun _ hr => by cases hr⟩
      intro _
      rw [← hmap]
    | some off =>
      obtain ⟨hon, hsub⟩ := hoff off rfl
      rw [← hmap] at hsub
      obtain ⟨map, hrem, hpoints⟩ := spaceMapRemove_spec hon hsub
      rw [Seg.len, Nat.add_sub_cancel_left] at hrem
      refine ⟨some off, { sm1 with map := map }, ?_, hloaded.trans hl, fun hr => (by cases hr), ?_⟩
      · simp only [hrem]
        rfl
      · intro off' heq
        cases heq
        exact ⟨hon, hmap ▸ hsub, hpoints.trans (by rw [← hmap]; rfl)⟩

theorem freeSanityCheck_spec (ms : Metaslab g) (hon : OnMap g r)
    (hdisj : ms.msMap.smLoaded = true → Disjoint ms.msMap.map.points r.points) (txg : ℕ) :
    freeSanityCheck ms r.start r.len txg = .ok true := by
  rw [freeSanityCheck]
  split_ifs with hl
  · rfl
  · rw [spaceMapContains_of_disjoint hon (hdisj (Bool.eq_true_of_not_eq_false hl))]
    rfl

theorem spaceMapFree_spec (hl : sm.smLoaded = true) (h : Insertable sm.map r) :
    ∃ sm', spaceMapFree sm r.start r.len = .ok sm' ∧ sm'.smLoaded = true
      ∧ sm'.map.points = sm.map.points ∪ r.points := by
  obtain ⟨map, hadd, hpoints⟩ := spaceMapAdd_spec h
  refine ⟨{ sm with map := map }, ?_, hl, hpoints⟩
  rw [spaceMapFree, hadd]
  show (if sm.smLoaded = false then _ else _) = _
  rw [if_neg (by rw [hl]; decide)]
  rfl

theorem walkFree_spec (h : Ranges g segs) (sm : CoreMap g) (hl : sm.smLoaded = true)
    (hdisj : Disjoint sm.map.points (cover segs)) :
    ∃ sm', walkSegs spaceMapFree sm segs = .ok sm' ∧ sm'.smLoaded = true
      ∧ sm'.map.points = sm.map.points ∪ cover segs := by
  induction segs generalizing sm with
  | nil => exact ⟨sm, rfl, hl, by rw [cover_nil, Finset.union_empty]⟩
  | cons ss segs ih =>
    obtain ⟨hon, hrest, hsegs⟩ := h.cons
    rw [cover_cons, Finset.disjoint_union_right] at hdisj
    obtain ⟨sm1, hfree, hl1, hsm1⟩ := spaceMapFree_spec hl ⟨hon, hdisj.1⟩
    have hdisj1 : Disjoint sm1.map.points (cover segs) := by
      rw [hsm1]
      exact Finset.disjoint_union_left.mpr ⟨hdisj.2, hrest⟩
    obtain ⟨sm', hwalk, hl', hsm'⟩ := ih hsegs sm1 hl1 hdisj1
    refine ⟨sm', ?_, hl', ?_⟩
    · rw [walkSegs_cons spaceMapFree hfree, hwalk]
    · rw [hsm', hsm1, cover_cons, Finset.union_assoc]

end Allocator

section Weights

variable {g : SpaceGeom} {w a : ℕ}

theorem and_activeMask_of_lt (h : w < 2 ^ 62) : w &&& metaslabActiveMask = 0 := by
  refine eq_of_testBit_eq fun i => ?_
  rw [testBit_and, zero_testBit]
  by_cases hi : i < 62
  · have hmask : metaslabActiveMask.testBit i = false := by
      rw [metaslabActiveMask, testBit_or, testBit_two_pow_of_ne (by omega),
        testBit_two_pow_of_ne (by omega)]
      rfl
    rw [hmask, Bool.and_false]
  · have hw : w.testBit i = false :=
      testBit_lt_two_pow (h.trans_le (Nat.pow_le_pow_right (by decide) (not_lt.mp hi)))
    rw [hw, Bool.false_and]

theorem metaslabWeight_active (hsmall : g.smSize < 2 ^ 60) (vd : Vdev) (ms : Metaslab g) :
    metaslabWeight vd ms &&& metaslabActiveMask = ms.msWeight &&& metaslabActiveMask := by
  have hbase : ∀ w, w ≤ 4 * g.smSize →
      (w ||| (ms.msWeight &&& metaslabActiveMask)) &&& metaslabActiveMask
        = ms.msWeight &&& metaslabActiveMask := by
    intro w hw
    rw [Nat.and_or_distrib_right, and_activeMask_of_lt (by omega), Nat.zero_or, Nat.and_assoc,
      Nat.and_self]
  refine hbase _ ?_
  generalize g.smStart >>> vd.vdevMsShift * (g.smSize - ms.msSmo.smoAlloc) / vd.vdevMsCount = q
  split_ifs <;> omega

end Weights

end Sirius.Alloc
