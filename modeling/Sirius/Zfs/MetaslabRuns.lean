import Sirius.Zfs.MetaslabSync

/-! # Metaslab safety — no range is handed out twice

    The invariant `Tracks` holds in every reachable state.  It follows that what
    `space_map_alloc` hands out is free in the callers' sense, whatever txgs are
    open and whether the map was kept, condensed or evicted; and that the log on
    disk stands for the right set after every `metaslab_sync`. -/

namespace Sirius.Alloc

open Sirius.Lib Sirius.Space

section Runs

variable {g : SpaceGeom} {s s' : SlabRun g} {ph : ℕ → Phase} {vd : Vdev} {op : Op}

def madeSlab (vd : Vdev) (smo : SpaceMapObj) (words : ℕ → ℕ) (txg : ℕ) : Metaslab g :=
  { metaslabInit smo words with
    msCreated := true
    msFreemap := Function.update (fun _ => spaceMapCreate g) (cleanSlot txg) (spaceMapCreate g)
    msSmo := smo
    msWeight := metaslabWeight vd { (metaslabInit smo words : Metaslab g) with msSmo := smo } }

theorem metaslabSyncDone_init (o : DestroyOrder) (vd : Vdev) (smo : SpaceMapObj) (words : ℕ → ℕ)
    (txg : ℕ) :
    metaslabSyncDone o vd (metaslabInit smo words : Metaslab g) txg =
      .ok (madeSlab vd smo words txg) :=
  rfl

theorem madeSlab_freemap (vd : Vdev) (smo : SpaceMapObj) (words : ℕ → ℕ) (txg : ℕ) (i : Fin 4) :
    ((madeSlab vd smo words txg : Metaslab g).msFreemap i).points = ∅ := by
  rw [madeSlab]
  dsimp only
  by_cases hi : i = cleanSlot txg
  · rw [hi, Function.update_self]
    rfl
  · rw [Function.update_of_ne hi]
    rfl

def heldPhase : Status → Phase
  | .live born => .held born
  | _ => .free

theorem heldPhase_cases (st : Status) :
    heldPhase st = .free ∨ ∃ born, heldPhase st = .held born := by
  cases st with
  | live born => exact .inr ⟨born, rfl⟩
  | _ => exact .inl rfl

theorem Start.tracks (hg : SlabGeom g) (h : Start vd s) : ∃ ph, Tracks s ph := by
  obtain ⟨o, smo, words, txg, ms, listed, A, hdone, hms, hlog, hlive, hfree⟩ := h.made
  rw [metaslabSyncDone_init] at hdone
  cases hdone
  let ph : ℕ → Phase := fun x => heldPhase (s.status x)
  have hmem : ∀ x ∈ A, ∃ born, s.status x = .live born ∧ ph x = .held born := by
    intro x hx
    obtain ⟨born, -, hst⟩ := hlive x hx
    exact ⟨born, hst, congrArg heldPhase hst⟩
  have hnot : ∀ x, x ∉ A → s.status x = .free ∧ ph x = .free :=
    fun x hx => ⟨hfree x hx, congrArg heldPhase (hfree x hx)⟩
  have hcases : ∀ x, ph x = .free ∨ ∃ born, ph x = .held born := fun x => heldPhase_cases _
  -- every byte is free or on disk, so the maps are all empty
  have hnone : ∀ P : Phase → Bool, P .free = false → (∀ born, P (.held born) = false) →
      phaseSet g ph P = ∅ := by
    intro P hf hh
    refine phaseSet_eq_empty ?_
    intro x
    rcases hcases x with hp | ⟨born, hp⟩
    · rw [hp, hf]
    · rw [hp, hh]
  have hdisk : ∀ P : Phase → Bool, P .free = false → (∀ born, P (.held born) = true) →
      phaseSet g ph P = A := by
    intro P hf hh
    ext x
    rw [mem_phaseSet]
    by_cases hx : x ∈ A
    · obtain ⟨born, -, hp⟩ := hmem x hx
      rw [hp, hh]
      exact ⟨fun _ => hx, fun _ => ⟨hlog.replays.inside hx, rfl⟩⟩
    · rw [(hnot x hx).2, hf]
      exact ⟨(fun hf => nomatch hf.2), fun hx' => absurd hx' hx⟩
  have hfreemap : ∀ i, (s.ms.msFreemap i).points = ∅ := by
    intro i
    rw [hms]
    exact madeSlab_freemap vd smo words txg i
  have hallocmap : ∀ i, (s.ms.msAllocmap i).points = ∅ := by
    intro i
    rw [hms]
    rfl
  refine ⟨ph, ?_⟩
  refine
    { status := ?_
      outside := ?_
      window := ?_
      alloc := fun t _ => (hallocmap _).trans (hnone _ rfl fun _ => rfl).symm
      free := fun t _ => (hfreemap _).trans (hnone _ rfl fun _ => rfl).symm
      allocClean := hallocmap _
      freed := (hfreemap _).trans (hnone _ rfl fun _ => rfl).symm
      disk := ?_
      loaded := ?_
      unloaded := ?_
      dirty := fun t _ _ => ⟨hallocmap _, hfreemap _⟩
      listed := fun _ => hfreemap _
      active := ?_
      created := by rw [hms]; rfl }
  · intro x
    by_cases hx : x ∈ A
    · obtain ⟨born, hst, hp⟩ := hmem x hx
      rw [hst, hp]
      rfl
    · rw [(hnot x hx).1, (hnot x hx).2]
      rfl
  · intro x hx
    exact (hnot x fun hA => hx (hlog.replays.inside hA)).2
  · intro x
    rcases hcases x with hp | ⟨born, hp⟩
    · rw [hp]
      trivial
    · rw [hp]
      trivial
  · rw [hdisk _ rfl fun _ => rfl, hms]
    exact hlog
  · intro hl
    rw [hms] at hl
    cases hl
  · intro _
    rw [hdisk _ rfl fun _ => rfl, hms]
    refine ⟨rfl, ?_, le_rfl, hlog⟩
    intro x t
    rcases hcases x with hp | ⟨born, hp⟩
    · rw [hp]
      rfl
    · rw [hp]
      rfl
  · intro hw
    rw [hms, madeSlab] at hw
    rw [metaslabWeight_active hg.small] at hw
    exact absurd (Nat.zero_and _) hw

/-- **PROGRESS AND PRESERVATION**: an allowed operation does not panic and keeps the
    invariant, if a range it frees at once is still staged. -/
theorem step_spec (hg : SlabGeom g) (h : Tracks s ph) (hop : Allowed s op) (hst : Staged s op)
    (vd : Vdev) : ∃ r s', step vd s op = .ok (r, s') ∧ ∃ ph', Tracks s' ph' := by
  cases op with
  | load activation readError =>
    obtain ⟨err, ms, hact, htr, -⟩ := metaslabActivate_spec h activation readError
    exact ⟨none, _, by rw [step, hact]; rfl, ph, htr⟩
  | alloc size txg activation readError tree =>
    obtain ⟨hact, hpos, hlt, hdvd⟩ := hop
    obtain ⟨r, ms, halloc, hnone, hsome⟩ :=
      metaslabGroupAlloc_spec h hact hpos hlt hdvd activation readError tree
    cases r with
    | none => exact ⟨none, _, by rw [step, halloc]; rfl, ph, hnone rfl⟩
    | some off => exact ⟨some off, _, by rw [step, halloc]; rfl, _, (hsome off rfl).2⟩
  | free off size txg =>
    obtain ⟨hact, hon, hlive⟩ := hop
    obtain ⟨ms, hfree, htr⟩ := metaslabFreeDva_spec h hact hon hlive
    exact ⟨none, _, by rw [step, hfree]; rfl, _, htr⟩
  | freeNow off size txg =>
    obtain ⟨hact, hon, hlive⟩ := hop
    obtain ⟨ms, hfree, htr⟩ := metaslabFreeDva_now_spec h hact hon hlive hst
    exact ⟨none, _, by rw [step, hfree]; rfl, _, htr⟩
  | sync o syncpass newObject =>
    obtain ⟨ms, ph', hsync, htr⟩ := vdevSync_spec hg h o syncpass newObject
    exact ⟨none, _, by rw [step, hsync]; rfl, ph', htr⟩
  | syncDone o =>
    obtain ⟨ms, hdone, hms⟩ := vdevSyncDone_spec h hop hg o vd
    exact ⟨none, _, by rw [step, hdone]; rfl, _, h.done hop hms⟩

/-- A range freed at once was staged, or `space_map_remove` would have panicked. -/
theorem staged_of_step {r : Option ℕ} (hs : step vd s op = .ok (r, s')) : Staged s op := by
  cases op with
  | freeNow off size txg =>
    rw [step, metaslabFreeDva] at hs
    cases hrem : spaceMapRemove (s.ms.msAllocmap (slot txg)) off size with
    | error e =>
      rw [hrem] at hs
      cases hs
    | ok map => exact subset_of_spaceMapRemove hrem
  | _ => trivial

theorem Reachable.tracks (hg : SlabGeom g) (h : Reachable vd s) : ∃ ph, Tracks s ph := by
  induction h with
  | start h => exact h.tracks hg
  | step h hop hs ih =>
    obtain ⟨ph, htr⟩ := ih
    obtain ⟨r', s'', hs', htr'⟩ := step_spec hg htr hop (staged_of_step hs) vd
    rw [hs] at hs'
    cases hs'
    exact htr'

/-! A metaslab of 2^16 sectors on a new vdev, with an empty log. -/

theorem demoGeom_slab : SlabGeom demoGeom := ⟨by decide, by decide⟩

/-- Nothing is allocated yet, and the metaslab is on the clean list of txg 4. -/
def demoSlab : SlabRun demoGeom where
  ms := { madeSlab ⟨25, 200⟩ ⟨0, 0, 0⟩ (fun _ => 0) 4 with
    msTxgNode := Function.update (fun _ => false) (slot 4) true }
  synced := 4
  status := fun _ => .free

theorem demoSlab_reachable : Reachable ⟨25, 200⟩ demoSlab := by
  refine .start ⟨⟨⟨id, fun _ => .refl _⟩, ⟨0, 0, 0⟩, fun _ => 0, 4, _, true, ∅,
    metaslabSyncDone_init _ _ _ _ _, rfl, LogHolds.empty rfl rfl, ?_, fun _ _ => rfl⟩⟩
  intro x hx
  cases hx

/-- The state an operation leads to. -/
def SlabRun.after (vd : Vdev) (s : SlabRun g) (op : Op) : SlabRun g :=
  match step vd s op with
  | .ok (_, s') => s'
  | .error _ => s

theorem Reachable.after (h : Reachable vd s) (op : Op) (hop : Allowed s op) :
    Reachable vd (s.after vd op) := by
  rw [SlabRun.after]
  cases hs : Alloc.step vd s op with
  | ok p => exact h.step hop hs
  | error e => exact h

theorem step_eq_after {r : Option ℕ} (h : ((step vd s op).map Prod.fst).toOption = some r) :
    step vd s op = .ok (r, s.after vd op) := by
  rw [SlabRun.after]
  cases hs : step vd s op with
  | ok p =>
    rw [hs] at h
    cases h
    rfl
  | error e =>
    rw [hs] at h
    cases h

def demoOrder : DestroyOrder := ⟨id, List.Perm.refl⟩

def demoAlloc (size txg : ℕ) : Op := .alloc size txg .primary (fun _ => 0) fun _ => 0

/-- The metaslab is loaded, and one sector and then two are allocated in txg 5 and written out. -/
def demoSynced : SlabRun demoGeom :=
  [.load .primary fun _ => 0, demoAlloc 512 5, demoAlloc 1024 5, .sync demoOrder 1 7].foldl
    (SlabRun.after ⟨25, 200⟩) demoSlab

theorem demoSynced_reachable : Reachable ⟨25, 200⟩ demoSynced := by
  have halloc : ∀ s : SlabRun demoGeom, s.synced = 4 → ∀ size, 512 ≤ size → size < 2 ^ 62 →
      512 ∣ size → Allowed s (demoAlloc size 5) := by
    intro s hs size hle hlt hdvd
    exact ⟨⟨by omega, by rw [hs]; decide⟩, by omega, hlt, hdvd⟩
  have h1 := demoSlab_reachable.after (.load .primary fun _ => 0) trivial
  have h2 := h1.after _ (halloc _ (by decide +kernel) 512 (by decide) (by decide) (by decide))
  have h3 := h2.after _ (halloc _ (by decide +kernel) 1024 (by decide) (by decide) (by decide))
  exact h3.after (.sync demoOrder 1 7) (by decide : 7 ≠ 0)

def demoDone : SlabRun demoGeom := demoSynced.after ⟨25, 200⟩ (.syncDone demoOrder)

theorem demoDone_reachable : Reachable ⟨25, 200⟩ demoDone := by
  have hclean : demoSynced.ms.msTxgNode (slot (demoSynced.synced + 1)) = false := by decide +kernel
  exact demoSynced_reachable.after _ hclean

/-- The first sector is freed in txg 6. -/
def demoFreed : SlabRun demoGeom := demoDone.after ⟨25, 200⟩ (.free (2 ^ 30) 512 6)

theorem demoFreed_reachable : Reachable ⟨25, 200⟩ demoFreed := by
  have hsynced : demoDone.synced = 5 := by decide +kernel
  have hlive : ∀ x ∈ Finset.Ico (2 ^ 30) (2 ^ 30 + 512), demoDone.status x = .live 5 := by
    decide +kernel
  refine demoDone_reachable.after _ ⟨⟨?_, ?_⟩, by decide,
    fun x hx => ⟨5, by decide, hlive x hx⟩⟩
  · rw [hsynced]
    decide
  · rw [hsynced]
    decide

theorem demoFreed_allows : Allowed demoFreed (demoAlloc 512 6) := by
  have hsynced : demoFreed.synced = 5 := by decide +kernel
  refine ⟨⟨?_, ?_⟩, by decide, by decide, by decide⟩
  · rw [hsynced]
    decide
  · rw [hsynced]
    decide

/-- And another sector is allocated. -/
def demoReused : SlabRun demoGeom := demoFreed.after ⟨25, 200⟩ (demoAlloc 512 6)

theorem demoReused_reachable : Reachable ⟨25, 200⟩ demoReused :=
  demoFreed_reachable.after _ demoFreed_allows

/-! ## No range is handed out twice -/

theorem slot_cases (s : SlabRun g) (i : Fin 4) :
    i = slot s.synced ∨ ∃ t, s.Active t ∧ i = slot t := by
  rcases Nat.lt_trichotomy (s.synced % 4) i.val with hlt | heq | hgt
  · refine .inr ⟨s.synced + (i.val - s.synced % 4), ⟨by omega, ?_⟩, Fin.ext ?_⟩
    · rw [txgConcurrentStates]
      omega
    · show i.val = (s.synced + (i.val - s.synced % 4)) % 4
      omega
  · exact .inl (Fin.ext heq.symm)
  · refine .inr ⟨s.synced + (4 + i.val - s.synced % 4), ⟨by omega, ?_⟩, Fin.ext ?_⟩
    · rw [txgConcurrentStates]
      omega
    · show i.val = (s.synced + (4 + i.val - s.synced % 4)) % 4
      omega

theorem Tracks.free_alone (h : Tracks s ph) (hl : s.ms.msMap.smLoaded = true) {x : ℕ}
    (hx : x ∈ s.ms.msMap.map.points) :
    s.status x = .free ∧ ∀ i, x ∉ (s.ms.msAllocmap i).points ∧ x ∉ (s.ms.msFreemap i).points := by
  have hp := h.eq_free hl hx
  have hnot : ∀ P : Phase → Bool, P .free = false → x ∉ phaseSet g ph P := by
    intro P hP hmem
    have hin := (mem_phaseSet.mp hmem).2
    rw [hp, hP] at hin
    cases hin
  constructor
  · rw [h.status x, hp]
    rfl
  intro i
  rcases slot_cases s i with rfl | ⟨t, hact, rfl⟩
  · rw [h.allocClean, h.freed]
    exact ⟨Finset.notMem_empty x, hnot _ rfl⟩
  · rw [h.alloc t hact, h.free t hact]
    exact ⟨hnot _ rfl, hnot _ rfl⟩

/-- **NO OVERLAP**: in every run, an allocation only gets bytes that are neither
    allocated nor freed in a txg that is not done.  The loaded map holds no byte
    that is live, in a freemap or in the freed map.  And no operation panics,
    except that a range freed at once must still be in the allocmap. -/
theorem metaslab_never_overlaps (hg : SlabGeom g) (h : Reachable vd s) :
    (∀ (size txg : ℕ) (activation : Activation) (readError tree : ℕ → ℕ) (off : ℕ) (s' : SlabRun g),
      Allowed s (.alloc size txg activation readError tree) →
      step vd s (.alloc size txg activation readError tree) = .ok (some off, s') →
        ∀ x ∈ Finset.Ico off (off + size), s.status x = .free)
    ∧ (s.ms.msMap.smLoaded = true → ∀ x ∈ s.ms.msMap.map.points, s.status x = .free
          ∧ ∀ i, x ∉ (s.ms.msAllocmap i).points ∧ x ∉ (s.ms.msFreemap i).points)
    ∧ ∀ op, Allowed s op → ((∃ r s', step vd s op = .ok (r, s')) ↔ Staged s op) := by
  obtain ⟨ph, htr⟩ := h.tracks hg
  refine ⟨?_, fun hl x hx => htr.free_alone hl hx, ?_⟩
  · rintro size txg activation readError tree off s' ⟨hact, hpos, hlt, hdvd⟩ hs x hx
    obtain ⟨r, ms, halloc, -, hsome⟩ :=
      metaslabGroupAlloc_spec htr hact hpos hlt hdvd activation readError tree
    rw [step, halloc] at hs
    cases r with
    | none => cases hs
    | some off' =>
      cases hs
      rw [htr.status x, (hsome off rfl).1 x hx]
      rfl
  · intro op hop
    constructor
    · rintro ⟨r, s', hs⟩
      exact staged_of_step hs
    · intro hst
      obtain ⟨r, s', hs, -⟩ := step_spec hg htr hop hst vd
      exact ⟨r, s', hs⟩

/-- The next sector handed out is not the one that was just freed. -/
theorem metaslab_never_overlaps_new_vdev :
    Reachable ⟨25, 200⟩ demoFreed ∧ demoFreed.status (2 ^ 30) = .freed 6 ∧
      step ⟨25, 200⟩ demoFreed (demoAlloc 512 6) = .ok (some (2 ^ 30 + 512), demoReused) ∧
      ∀ x ∈ Finset.Ico (2 ^ 30 + 512) (2 ^ 30 + 512 + 512), demoFreed.status x = .free := by
  have hstep : step ⟨25, 200⟩ demoFreed (demoAlloc 512 6)
      = .ok (some (2 ^ 30 + 512), demoReused) := step_eq_after (by decide +kernel)
  exact ⟨demoFreed_reachable, by decide +kernel, hstep, (metaslab_never_overlaps demoGeom_slab
    demoFreed_reachable).1 512 6 .primary (fun _ => 0) (fun _ => 0) _ _ demoFreed_allows hstep⟩

/-- `space_map_load` of the log with `SM_FREE` gives everything but `A`. -/
def LoadsFree (g : SpaceGeom) (log : SpaceLog) (A : Finset ℕ) : Prop :=
  ∃ loaded : SpaceMap g, spaceMapLoad ⟨spaceMapCreate g, false, fun _ => 0⟩ .free log (fun _ => 0)
        = .ok (0, ⟨loaded, true, fun _ => 0⟩)
      ∧ loaded.points = g.whole \ A

theorem loadsFree_of_logHolds {log : SpaceLog} {A : Finset ℕ} (h : LogHolds g log A) :
    LoadsFree g log A := by
  have hnew : (⟨spaceMapCreate g, false, fun _ => 0⟩ : CoreMap g).smLoaded = false := rfl
  rcases spaceMapLoad_spec h hnew rfl .free (fun _ => 0) with
    ⟨loaded, hload, hpoints⟩ | ⟨-, hoff, -⟩
  · exact ⟨loaded, hload, hpoints⟩
  · exact absurd rfl hoff

/-- **THE LOG**: in every reachable state, syncing turns a log of `A` into a log of `A` plus the
    allocations of the txg minus its frees, appending or condensing, and `smo_alloc` is its size.
    Nothing panics. -/
theorem metaslab_sync_commits (hg : SlabGeom g) (h : Reachable vd s) :
    ∃ A ⊆ g.whole, LoadsFree g ⟨s.ms.msSmoSyncing, s.ms.words⟩ A
      ∧ s.ms.msSmoSyncing.smoAlloc = A.card
      ∧ ∀ (o : DestroyOrder) (syncpass newObject : ℕ),
        ∃ ms, metaslabSync o s.ms (s.synced + 1) syncpass newObject = .ok ms
          ∧ LoadsFree g ⟨ms.msSmoSyncing, ms.words⟩
            ((A ∪ (s.ms.msAllocmap (slot (s.synced + 1))).points)
              \ (s.ms.msFreemap (slot (s.synced + 1))).points)
          ∧ ms.msSmoSyncing.smoAlloc = ((A ∪ (s.ms.msAllocmap (slot (s.synced + 1))).points)
              \ (s.ms.msFreemap (slot (s.synced + 1))).points).card := by
  obtain ⟨ph, htr⟩ := h.tracks hg
  have hact := active_succ s
  refine ⟨phaseSet g ph Phase.onDisk, phaseSet_subset, loadsFree_of_logHolds htr.disk,
    htr.disk.alloc_eq, ?_⟩
  intro o syncpass newObject
  obtain ⟨allocmap, freemap, freedMap, log, hsync, -, -, -, hlog, -⟩ :=
    metaslabSync_spec hg htr o syncpass newObject
  have hset : (phaseSet g ph Phase.onDisk ∪ (s.ms.msAllocmap (slot (s.synced + 1))).points)
      \ (s.ms.msFreemap (slot (s.synced + 1))).points = phaseSet g ph (committed s.synced) := by
    rw [htr.alloc _ hact, htr.free _ hact, phaseSet_union, phaseSet_sdiff]
    rfl
  rw [hset]
  exact ⟨_, hsync, loadsFree_of_logHolds hlog, hlog.alloc_eq⟩

/-- The first pass of txg 6 condenses the log and the second appends to it: both add the sector that
    was allocated and drop the one that was freed. -/
theorem metaslab_sync_commits_new_vdev :
    shouldCondense demoReused.ms 1 = true ∧ shouldCondense demoReused.ms 2 = false ∧
    ∃ A ⊆ demoGeom.whole, LoadsFree demoGeom ⟨demoReused.ms.msSmoSyncing, demoReused.ms.words⟩ A
      ∧ A.card = 1536
      ∧ ∀ (o : DestroyOrder) (syncpass newObject : ℕ),
        ∃ ms, metaslabSync o demoReused.ms 6 syncpass newObject = .ok ms
          ∧ LoadsFree demoGeom ⟨ms.msSmoSyncing, ms.words⟩
            ((A ∪ Finset.Ico (2 ^ 30 + 512) (2 ^ 30 + 1024))
              \ Finset.Ico (2 ^ 30) (2 ^ 30 + 512)) := by
  obtain ⟨A, hsub, hload, hcard, hsync⟩ := metaslab_sync_commits demoGeom_slab demoReused_reachable
  have hsynced : demoReused.synced = 5 := by decide +kernel
  have hspace : demoReused.ms.msSmoSyncing.smoAlloc = 1536 := by decide +kernel
  have halloc : (demoReused.ms.msAllocmap (slot 6)).smRoot.segs
      = [⟨2 ^ 30 + 512, 2 ^ 30 + 1024⟩] := by
    decide +kernel
  have hfree : (demoReused.ms.msFreemap (slot 6)).smRoot.segs = [⟨2 ^ 30, 2 ^ 30 + 512⟩] := by
    decide +kernel
  refine ⟨by decide +kernel, by decide +kernel, A, hsub, hload, hcard.symm.trans hspace, ?_⟩
  intro o syncpass newObject
  obtain ⟨ms, hms, hload', -⟩ := hsync o syncpass newObject
  rw [hsynced] at hms hload'
  rw [SpaceMap.points, SegSet.points, halloc, SpaceMap.points, SegSet.points, hfree, cover_cons,
    cover_cons, cover_nil, Finset.union_empty, Finset.union_empty] at hload'
  exact ⟨ms, hms, hload'⟩

/-- **NOTHING LEAKS**: in every reachable state a byte that is missing in the loaded map is in the
    log on disk, waits in an allocmap, or was freed in the txg that was done last. -/
theorem metaslab_leaks_nothing (hg : SlabGeom g) (h : Reachable vd s) :
    ∃ A, LoadsFree g ⟨s.ms.msSmoSyncing, s.ms.words⟩ A ∧ (s.ms.msMap.smLoaded = true →
      ∀ x ∈ g.whole, x ∈ s.ms.msMap.map.points ↔ x ∉ A ∧ (∀ i, x ∉ (s.ms.msAllocmap i).points)
        ∧ x ∉ (s.ms.msFreemap (slot s.synced)).points) := by
  obtain ⟨ph, htr⟩ := h.tracks hg
  refine ⟨_, loadsFree_of_logHolds htr.disk, fun hl x hx => ?_⟩
  have halloc : (∀ i, x ∉ (s.ms.msAllocmap i).points) ↔
      ∀ t, s.Active t → (ph x).inAlloc t = false := by
    constructor
    · intro hnot t hact
      simpa [htr.alloc t hact, mem_phaseSet, hx] using hnot (slot t)
    · intro hnot i
      rcases slot_cases s i with rfl | ⟨t, hact, rfl⟩
      · simp [htr.allocClean]
      · rw [htr.alloc t hact, mem_phaseSet, hnot t hact]
        simp
  rw [htr.loaded hl, htr.freed, halloc]
  simp only [mem_phaseSet, hx, true_and]
  -- a fresh or doomed byte is in the allocmap of the txg it was born in
  have hw := htr.window x
  cases hp : ph x <;> rw [hp] at hw <;> simp [Phase.Within, SlabRun.Active] at hw ⊢ <;> grind

/-- The run above, with the sector freed in txg 6 still on disk. -/
theorem metaslab_leaks_nothing_new_vdev :
    ∃ A, LoadsFree demoGeom ⟨demoReused.ms.msSmoSyncing, demoReused.ms.words⟩ A ∧
      ∀ x ∈ demoGeom.whole, x ∈ demoReused.ms.msMap.map.points ↔
        x ∉ A ∧ (∀ i, x ∉ (demoReused.ms.msAllocmap i).points)
          ∧ x ∉ (demoReused.ms.msFreemap (slot 5)).points := by
  obtain ⟨A, hA, hmain⟩ := metaslab_leaks_nothing demoGeom_slab demoReused_reachable
  have hsynced : demoReused.synced = 5 := by decide +kernel
  have hloaded : demoReused.ms.msMap.smLoaded = true := by decide +kernel
  have hmain := hmain hloaded
  rw [hsynced] at hmain
  exact ⟨A, hA, hmain⟩

end Runs

end Sirius.Alloc
