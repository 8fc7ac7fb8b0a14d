import Sirius.Zfs.Metaslab

/-! # The ledger of a metaslab — what each byte is waiting for

    Two abstract views of a metaslab under concurrent txgs.

    * `Status` is what the callers know of a byte: it is free, allocated since some txg, or
      freed in some txg that is not done.  It moves only with what callers do, and with the
      end of a txg.
    * `Phase` refines it by where the allocator has recorded the byte.  Every byte is in ONE
      phase, so that the maps are disjoint by construction.

    `Tracks` ties the phases to the maps, the log on disk and the dirty lists.  That the
    operations keep it is shown pointwise: one byte, one phase. -/

namespace Sirius.Alloc

open Sirius.Lib Sirius.Space

inductive Status
  | free
  | live (born : ℕ)
  | freed (txg : ℕ)
  deriving DecidableEq

/-- A metaslab, the last synced txg, and the status of every byte. -/
structure SlabRun (g : SpaceGeom) where
  ms : Metaslab g
  synced : ℕ
  status : ℕ → Status

/-- What can happen to a metaslab.  The errors of `dmu_read`, the shape of the
    trees, the sync pass and the new object number come from outside. -/
inductive Op
  | load (activation : Activation) (readError : ℕ → ℕ)
  | alloc (size txg : ℕ) (activation : Activation) (readError tree : ℕ → ℕ)
  | free (offset size txg : ℕ)
  | freeNow (offset size txg : ℕ)
  | sync (o : DestroyOrder) (syncpass newObject : ℕ)
  | syncDone (o : DestroyOrder)

section Runs

variable {g : SpaceGeom}

def mark (status : ℕ → Status) (offset size : ℕ) (st : Status) : ℕ → Status :=
  fun x => if offset ≤ x ∧ x < offset + size then st else status x

/-- One operation: the offset handed out, if any, and the next state. -/
def step (vd : Vdev) (s : SlabRun g) : Op → Except SmPanic (Option ℕ × SlabRun g)
  | .load activation readError => do
      let (_, ms) ← metaslabActivate s.ms activation readError
      return (none, { s with ms := ms })
  | .alloc size txg activation readError tree => do
      let (offset, ms) ← metaslabGroupAlloc s.ms size txg activation readError tree
      match offset with
      | none => return (none, { s with ms := ms })
      | some offset =>
        return (some offset, { s with ms := ms, status := mark s.status offset size (.live txg) })
  | .free offset size txg => do
      let ms ← metaslabFreeDva s.ms offset size txg false
      return (none, { s with ms := ms, status := mark s.status offset size (.freed txg) })
  | .freeNow offset size txg => do
      let ms ← metaslabFreeDva s.ms offset size txg true
      return (none, { s with ms := ms, status := mark s.status offset size .free })
  | .sync o syncpass newObject => do
      let ms ← vdevSync o s.ms (s.synced + 1) syncpass newObject
      return (none, { s with ms := ms })
  | .syncDone o => do
      let ms ← vdevSyncDone o vd s.ms (s.synced + 1)
      return (none, ⟨ms, s.synced + 1,
        fun x => if s.status x = .freed (s.synced + 1) then .free else s.status x⟩)

/-- At most `TXG_CONCURRENT_STATES` txgs are open, quiescing or syncing. -/
def SlabRun.Active (s : SlabRun g) (txg : ℕ) : Prop :=
  s.synced < txg ∧ txg ≤ s.synced + txgConcurrentStates

/-- The range of a free, at once or not: whole sectors that are allocated, by a txg
    no later than the one that frees them. -/
def Freeable (s : SlabRun g) (offset size txg : ℕ) : Prop :=
  s.Active txg ∧ OnMap g ⟨offset, offset + size⟩
    ∧ ∀ x ∈ Finset.Ico offset (offset + size), ∃ born ≤ txg, s.status x = .live born

/-- What the callers promise.  Sizes are whole sectors, only allocated ranges are
    freed, and a txg is done when the metaslab is not dirty in it any more. -/
def Allowed (s : SlabRun g) : Op → Prop
  | .load _ _ => True
  | .alloc size txg _ _ _ => s.Active txg ∧ 0 < size ∧ size < 2 ^ 62 ∧ 2 ^ g.smShift ∣ size
  | .free offset size txg | .freeNow offset size txg => Freeable s offset size txg
  | .sync _ _ newObject => newObject ≠ 0
  | .syncDone _ => s.ms.msTxgNode (slot (s.synced + 1)) = false

/-- A range freed at once is still in the allocmap of the txg.  `metaslab_alloc` does
    so when it fails half way, and `space_map_remove` verifies it. -/
def Staged (s : SlabRun g) : Op → Prop
  | .freeNow offset size txg =>
    Finset.Ico offset (offset + size) ⊆ (s.ms.msAllocmap (slot txg)).points
  | _ => True

/-- A metaslab whose space has just become available, with any log written
    before.  A metaslab of a new vdev is on the clean list of its first txg. -/
structure Start (vd : Vdev) (s : SlabRun g) : Prop where
  made : ∃ (o : DestroyOrder) (smo : SpaceMapObj) (words : ℕ → ℕ) (txg : ℕ) (ms : Metaslab g)
      (listed : Bool) (A : Finset ℕ), metaslabSyncDone o vd (metaslabInit smo words) txg = .ok ms
      ∧ s.ms = { ms with msTxgNode := Function.update ms.msTxgNode (slot s.synced) listed }
      ∧ LogHolds g ⟨smo, words⟩ A
      ∧ (∀ x ∈ A, ∃ born ≤ s.synced, s.status x = .live born)
      ∧ ∀ x ∉ A, s.status x = .free

inductive Reachable (vd : Vdev) : SlabRun g → Prop
  | start {s : SlabRun g} (h : Start vd s) : Reachable vd s
  | step {s s' : SlabRun g} {op : Op} {r : Option ℕ} (h : Reachable vd s) (hop : Allowed s op)
      (hs : step vd s op = .ok (r, s')) : Reachable vd s'

/-- What `vdev_metaslab_set_size` promises about a metaslab: its sectors fit the
    log's 47-bit field and its weight stays below the activation bits. -/
structure SlabGeom (g : SpaceGeom) : Prop where
  sectors : g.smSize >>> g.smShift ≤ 2 ^ 47
  small : g.smSize < 2 ^ 60

/-- Where the allocator has recorded a byte: nowhere; in the allocmap of a txg; on
    disk; in an allocmap and a freemap; on disk and in a freemap; in the freed map. -/
inductive Phase
  | free
  | fresh (born : ℕ)
  | held (born : ℕ)
  | doomed (born txg : ℕ)
  | dying (txg : ℕ)
  | clean
  deriving DecidableEq

namespace Phase

/-- The status of a byte in a phase, while `synced + 1` is syncing. -/
def status (synced : ℕ) : Phase → Status
  | .free => .free
  | .fresh born | .held born => .live born
  | .doomed _ txg | .dying txg => .freed txg
  | .clean => .freed (synced + 1)

/-- In `ms_map`, when it is loaded. -/
def isFree : Phase → Bool
  | .free => true
  | _ => false

/-- In the allocmap of `t`. -/
def inAlloc (t : ℕ) : Phase → Bool
  | .fresh born | .doomed born _ => born == t
  | _ => false

/-- In the freemap of `t`. -/
def inFree (t : ℕ) : Phase → Bool
  | .doomed _ txg | .dying txg => txg == t
  | _ => false

def isClean : Phase → Bool
  | .clean => true
  | _ => false

def onDisk : Phase → Bool
  | .held _ | .dying _ => true
  | _ => false

def Within (synced : ℕ) : Phase → Prop
  | .fresh born => synced < born ∧ born ≤ synced + txgConcurrentStates
  | .doomed born txg => synced < born ∧ born ≤ txg ∧ txg ≤ synced + txgConcurrentStates
  | .dying txg => synced < txg ∧ txg ≤ synced + txgConcurrentStates
  | _ => True

/-- The byte is freed in txg `t`. -/
def freeAt (t : ℕ) : Phase → Phase
  | .fresh born => .doomed born t
  | .held _ => .dying t
  | p => p

/-- The maps of txg `t` are written. -/
def syncAt (t : ℕ) : Phase → Phase
  | .fresh born => if born = t then .held born else .fresh born
  | .doomed born txg =>
    if born = t then (if txg = t then .clean else .dying txg) else .doomed born txg
  | .dying txg => if txg = t then .clean else .dying txg
  | p => p

def doneAt : Phase → Phase
  | .clean => .free
  | p => p

end Phase

/-- The bytes of the metaslab in a phase with property `P`. -/
def phaseSet (g : SpaceGeom) (ph : ℕ → Phase) (P : Phase → Bool) : Finset ℕ :=
  g.whole.filter fun x => P (ph x)

theorem mem_phaseSet {ph : ℕ → Phase} {P : Phase → Bool} {x : ℕ} :
    x ∈ phaseSet g ph P ↔ x ∈ g.whole ∧ P (ph x) = true := Finset.mem_filter

/-- **THE INVARIANT**: the maps, the log and the lists record the phases. -/
structure Tracks (s : SlabRun g) (ph : ℕ → Phase) : Prop where
  status : ∀ x, s.status x = (ph x).status s.synced
  outside : ∀ x ∉ g.whole, ph x = .free
  window : ∀ x, (ph x).Within s.synced
  alloc : ∀ t, s.Active t → (s.ms.msAllocmap (slot t)).points = phaseSet g ph (Phase.inAlloc t)
  free : ∀ t, s.Active t → (s.ms.msFreemap (slot t)).points = phaseSet g ph (Phase.inFree t)
  allocClean : (s.ms.msAllocmap (slot s.synced)).points = ∅
  freed : (s.ms.msFreemap (slot s.synced)).points = phaseSet g ph Phase.isClean
  disk : LogHolds g ⟨s.ms.msSmoSyncing, s.ms.words⟩ (phaseSet g ph Phase.onDisk)
  loaded : s.ms.msMap.smLoaded = true → s.ms.msMap.map.points = phaseSet g ph Phase.isFree
  -- the map can be loaded again from what was on disk when the last txg was done
  unloaded : s.ms.msMap.smLoaded = false → s.ms.msMap.map.points = ∅
    ∧ (∀ x t, (ph x).inAlloc t = false)
    ∧ s.ms.msSmo.smoObjsize ≤ s.ms.msSmoSyncing.smoObjsize
    ∧ LogHolds g ⟨s.ms.msSmo, s.ms.words⟩ (phaseSet g ph fun p => p.onDisk || p.isClean)
  dirty : ∀ t, s.Active t → s.ms.msTxgNode (slot t) = false →
    (s.ms.msAllocmap (slot t)).points = ∅ ∧ (s.ms.msFreemap (slot t)).points = ∅
  listed : s.ms.msTxgNode (slot s.synced) = false → (s.ms.msFreemap (slot s.synced)).points = ∅
  active : s.ms.msWeight &&& metaslabActiveMask ≠ 0 → s.ms.msMap.smLoaded = true
  created : s.ms.msCreated = true

end Runs

end Sirius.Alloc
