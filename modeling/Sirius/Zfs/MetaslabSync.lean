import Sirius.Zfs.MetaslabAlloc

/-! # Syncing a metaslab — the phases of every byte

    `metaslab_sync` moves every byte through `Phase.syncAt` and leaves a log that
    stands for what is then allocated on disk, whether it appended the maps of
    the txg or condensed.  `metaslab_sync_done` moves every byte through
    `Phase.doneAt`, whether or not it evicts the map. -/

namespace Sirius.Alloc

open Sirius.Lib Sirius.Space Function Finset

section Steps

variable {g : SpaceGeom} {s : SlabRun g} {ph : ℕ → Phase} {t txg : ℕ}

/-! ## One byte through a sync -/

namespace Phase

variable {p : Phase} {t' : ℕ}

attribute [simp] syncAt inAlloc inFree isFree isClean onDisk

theorem syncAt_elim {motive : Phase → Phase → Prop} (fresh : motive (.fresh t) (.held t))
    (both : motive (.doomed t t) .clean) (later : ∀ f ≠ t, motive (.doomed t f) (.dying f))
    (dying : motive (.dying t) .clean)
    (other : ∀ p, p.inAlloc t = false → p ≠ .dying t → motive p p) (p : Phase) :
    motive p (p.syncAt t) := by
  cases p with
  | fresh born =>
    rcases eq_or_ne born t with rfl | hb
    · simpa using fresh
    · simpa [hb] using other (.fresh born) (beq_false_of_ne hb) (by simp)
  | doomed born txg =>
    rcases eq_or_ne born t with rfl | hb
    · rcases eq_or_ne txg born with rfl | hf
      · simpa using both
      · simpa [hf] using later txg hf
    · simpa [hb] using other (.doomed born txg) (beq_false_of_ne hb) (by simp)
  | dying txg =>
    rcases eq_or_ne txg t with rfl | hf
    · simpa using dying
    · simpa [hf] using other (.dying txg) rfl (by simpa using hf)
  | _ => exact other _ rfl (by simp)

theorem inAlloc_syncAt_self (t : ℕ) (p : Phase) : (p.syncAt t).inAlloc t = false :=
  syncAt_elim (motive := fun _ q => q.inAlloc t = false) rfl rfl (fun _ _ => rfl) rfl
    (fun _ hno _ => hno) p

theorem inAlloc_syncAt_of_ne (hne : t' ≠ t) : (p.syncAt t).inAlloc t' = p.inAlloc t' := by
  have hno : (t == t') = false := beq_false_of_ne hne.symm
  exact syncAt_elim (motive := fun p q => q.inAlloc t' = p.inAlloc t') hno.symm hno.symm
    (fun _ _ => hno.symm) rfl (fun _ _ _ => rfl) p

theorem inFree_syncAt_of_ne (hne : t' ≠ t) : (p.syncAt t).inFree t' = p.inFree t' := by
  have hno : (t == t') = false := beq_false_of_ne hne.symm
  exact syncAt_elim (motive := fun p q => q.inFree t' = p.inFree t') rfl hno.symm
    (fun _ _ => rfl) hno.symm (fun _ _ _ => rfl) p

theorem isFree_syncAt (t : ℕ) (p : Phase) : (p.syncAt t).isFree = p.isFree :=
  syncAt_elim (motive := fun p q => q.isFree = p.isFree) rfl rfl (fun _ _ => rfl) rfl
    (fun _ _ _ => rfl) p

variable {synced : ℕ}

theorem Within.born_eq {born : ℕ} (h : (doomed born (synced + 1)).Within synced) :
    born = synced + 1 := le_antisymm h.2.1 h.1

theorem Within.inFree_eq_false (h : p.Within synced) (hno : p.inAlloc (synced + 1) = false)
    (hd : p ≠ .dying (synced + 1)) : p.inFree (synced + 1) = false := by
  cases p with
  | doomed born txg =>
    refine beq_false_of_ne ?_
    rintro rfl
    rw [h.born_eq] at hno
    exact absurd hno (by simp [inAlloc])
  | dying txg =>
    refine beq_false_of_ne ?_
    rintro rfl
    exact hd rfl
  | _ => rfl

section

variable (hw : p.Within synced)

include hw

theorem onDisk_syncAt :
    (p.syncAt (synced + 1)).onDisk
      = ((p.onDisk || p.inAlloc (synced + 1)) && !p.inFree (synced + 1)) := by
  refine syncAt_elim (motive := fun p q => p.Within synced → q.onDisk
    = ((p.onDisk || p.inAlloc (synced + 1)) && !p.inFree (synced + 1))) ?_ ?_ ?_ ?_ ?_ p hw
  · simp
  · simp
  · intro f hf _
    simp [hf]
  · simp
  · intro p hno hd hw
    rw [hno, hw.inFree_eq_false hno hd, Bool.or_false, Bool.not_false, Bool.and_true]

theorem isClean_syncAt :
    (p.syncAt (synced + 1)).isClean = (p.isClean || p.inFree (synced + 1)) := by
  refine syncAt_elim (motive := fun p q => p.Within synced → q.isClean
    = (p.isClean || p.inFree (synced + 1))) ?_ ?_ ?_ ?_ ?_ p hw
  · simp
  · simp
  · intro f hf _
    simp [hf]
  · simp
  · intro p hno hd hw
    rw [hw.inFree_eq_false hno hd, Bool.or_false]

theorem inFree_syncAt_self : (p.syncAt (synced + 1)).inFree (synced + 1) = false :=
  syncAt_elim (motive := fun p q => p.Within synced → q.inFree (synced + 1) = false)
    (fun _ => rfl) (fun _ => rfl) (fun _ hf _ => beq_false_of_ne hf) (fun _ => rfl)
    (fun _ hno hd hw => hw.inFree_eq_false hno hd) p hw

theorem Within.syncAt : (p.syncAt (synced + 1)).Within synced :=
  syncAt_elim (motive := fun p q => p.Within synced → q.Within synced) (fun _ => trivial)
    (fun _ => trivial) (fun _ _ hw => ⟨hw.1.trans_le hw.2.1, hw.2.2⟩) (fun _ => trivial)
    (fun _ _ _ => id) p hw

end

theorem status_syncAt (synced : ℕ) (p : Phase) :
    (p.syncAt (synced + 1)).status synced = p.status synced :=
  syncAt_elim (motive := fun p q => q.status synced = p.status synced) rfl rfl (fun _ _ => rfl) rfl
    (fun _ _ _ => rfl) p

end Phase

/-! ## `metaslab_sync` -/

/-- What is allocated on disk once the maps of the syncing txg are written. -/
def committed (synced : ℕ) (p : Phase) : Bool :=
  (p.onDisk || p.inAlloc (synced + 1)) && !p.inFree (synced + 1)

theorem active_succ (s : SlabRun g) : s.Active (s.synced + 1) :=
  ⟨Nat.lt_succ_self _, Nat.add_le_add_left (by decide) _⟩

theorem Tracks.freedMap (h : Tracks s ph) :
    ∃ freedMap, spaceMapWalk (s.ms.msFreemap (slot (s.synced + 1))) spaceMapAdd
        (s.ms.msFreemap (cleanSlot (s.synced + 1))) = .ok freedMap
      ∧ freedMap.points = phaseSet g ph fun p => p.isClean || p.inFree (s.synced + 1) := by
  rw [cleanSlot_succ]
  have hF : cover (s.ms.msFreemap (slot (s.synced + 1))).smRoot.segs = _ := h.free _ (active_succ s)
  have hdisj : Disjoint (s.ms.msFreemap (slot s.synced)).points
      (cover (s.ms.msFreemap (slot (s.synced + 1))).smRoot.segs) := by
    rw [h.freed, hF]
    exact phaseSet_disjoint fun x => by cases ph x <;> simp
  obtain ⟨freedMap, hwalk, hpoints⟩ :=
    walkAdd_spec (s.ms.msFreemap (slot (s.synced + 1))).ranges _ hdisj
  refine ⟨freedMap, hwalk, ?_⟩
  rw [hpoints, h.freed, hF, phaseSet_union]

theorem walkRemove_phases {sm dest : SpaceMap g} {P Q : Phase → Bool}
    (hsm : sm.points = phaseSet g ph P) (hdest : dest.points = phaseSet g ph Q)
    (hsub : ∀ x, P (ph x) = true → Q (ph x) = true) :
    ∃ dest', spaceMapWalk sm spaceMapRemove dest = .ok dest'
      ∧ dest'.points = phaseSet g ph fun p => Q p && !P p := by
  have hcover : cover sm.smRoot.segs = phaseSet g ph P := hsm
  have hle : cover sm.smRoot.segs ⊆ dest.points := by
    rw [hcover, hdest]
    intro x hx
    obtain ⟨hwhole, hP⟩ := mem_phaseSet.mp hx
    exact mem_phaseSet.mpr ⟨hwhole, hsub x hP⟩
  obtain ⟨dest', hwalk, hpoints⟩ := walkRemove_spec sm.ranges dest hle
  refine ⟨dest', hwalk, ?_⟩
  rw [hpoints, hcover, hdest, phaseSet_sdiff]

variable {p : Phase} {synced : ℕ}

theorem Phase.of_inAlloc (h : p.inAlloc t = true) : p = .fresh t ∨ ∃ f, p = .doomed t f := by
  cases p with
  | fresh born => exact .inl (congrArg _ (beq_iff_eq.mp h))
  | doomed born f => exact .inr ⟨f, by rw [beq_iff_eq.mp h]⟩
  | _ => cases h

theorem Phase.Within.of_later (hw : p.Within synced) (ht : synced + 1 < t)
    (h : p.inAlloc t = true) :
    p.isFree = false ∧ p.isClean = false ∧ p.inFree (synced + 1) = false := by
  rcases of_inAlloc h with rfl | ⟨f, rfl⟩
  · exact ⟨rfl, rfl, rfl⟩
  · exact ⟨rfl, rfl, beq_false_of_ne (ne_of_gt (ht.trans_le hw.2.1))⟩

theorem Phase.inAlloc_unique (h : p.inAlloc t = true) {u : ℕ} (hne : u ≠ t) :
    p.inAlloc u = false := by
  rcases of_inAlloc h with rfl | ⟨f, rfl⟩ <;> exact beq_false_of_ne hne.symm

theorem Phase.condensed_eq (h : p.Within synced) :
    ((((true && !p.isFree) && !(p.isClean || p.inFree (synced + 1)))
      && !p.inAlloc (synced + 2)) && !p.inAlloc (synced + 3)) = committed synced p := by
  have hlast : ∀ born, synced < born → born ≤ synced + txgConcurrentStates →
      ¬ born = synced + 1 → ¬ born = synced + 2 → born = synced + 3 := by
    intro born hlo hhi h1 h2
    rw [txgConcurrentStates] at hhi
    omega
  cases p with
  | fresh born =>
    by_cases h1 : born = synced + 1
    · simp [committed, h1]
    · by_cases h2 : born = synced + 2
      · simp [committed, h2]
      · have h3 := hlast born h.1 h.2 h1 h2
        simp [committed, h3]
  | doomed born txg =>
    by_cases h1 : born = synced + 1
    · simp [committed, h1, beq_eq_decide]
    · by_cases h2 : born = synced + 2
      · simp [committed, h2]
      · have h3 := hlast born h.1 (h.2.1.trans h.2.2) h1 h2
        simp [committed, h3]
  | free | held born | clean => rfl
  | dying txg => simp [committed, onDisk]

variable {freedMap : SpaceMap g} {ms : Metaslab g}

/-- **CONDENSE**: everything minus the in-core map, minus what was freed, minus what
    later txgs allocated, is what is allocated on disk; no removal panics. -/
theorem condensedAllocmap_spec (h : Tracks s ph) (hl : s.ms.msMap.smLoaded = true)
    (hfreed : freedMap.points = phaseSet g ph fun p => p.isClean || p.inFree (s.synced + 1)) :
    ∃ allocmap, condensedAllocmap s.ms (s.synced + 1) freedMap = .ok allocmap
      ∧ allocmap.points = phaseSet g ph (committed s.synced) := by
  have hact2 : s.Active (s.synced + 2) := ⟨by omega, Nat.add_le_add_left (by decide) _⟩
  have hact3 : s.Active (s.synced + 3) := ⟨by omega, le_rfl⟩
  have hwhole : g.whole = phaseSet g ph fun _ => true := by
    ext x
    rw [mem_phaseSet]
    exact ⟨fun hx => ⟨hx, rfl⟩, fun hx => hx.1⟩
  have hnew : (spaceMapCreate g).points = ∅ := rfl
  obtain ⟨m0, hadd, hm0⟩ := loadBase_spec .free hnew
  rw [view, sdiff_empty, hwhole] at hm0
  obtain ⟨m1, hwalk1, hm1⟩ := walkRemove_phases (h.loaded hl) hm0 fun _ _ => rfl
  obtain ⟨m2, hwalk2, hm2⟩ := walkRemove_phases hfreed hm1 fun x => by cases ph x <;> simp
  obtain ⟨m3, hwalk3, hm3⟩ := walkRemove_phases (h.alloc _ hact2) hm2 (by
    intro x hx
    obtain ⟨h1, h2, h3⟩ := (h.window x).of_later (by omega) hx
    rw [h1, h2, h3]
    rfl)
  obtain ⟨m4, hwalk4, hm4⟩ := walkRemove_phases (h.alloc _ hact3) hm3 (by
    intro x hx
    obtain ⟨h1, h2, h3⟩ := (h.window x).of_later (by omega) hx
    rw [h1, h2, h3, Phase.inAlloc_unique hx (by omega)]
    rfl)
  refine ⟨m4, ?_, ?_⟩
  · have hrange : List.range' 1 (txgConcurrentStates - 1) = [1, 2] := rfl
    rw [condensedAllocmap, hrange]
    rw [loadBase] at hadd
    simp only [hadd, hwalk1, hwalk2, bind, Except.bind, List.foldlM_cons]
    simp only [hwalk3, hwalk4]
    rfl
  · rw [hm4]
    exact phaseSet_congr fun x => Phase.condensed_eq (h.window x)

/-- **THE MAPS TO WRITE**: either branch starts from a log and two maps that give
    what is to be committed. -/
theorem syncSource_spec (h : Tracks s ph)
    (hfreed : freedMap.points = phaseSet g ph fun p => p.isClean || p.inFree (s.synced + 1))
    {log : SpaceLog} (hlog : LogHolds g log (phaseSet g ph Phase.onDisk)) (syncpass : ℕ) :
    ∃ allocmap freemap log1 D, syncSource s.ms (s.synced + 1) syncpass freedMap log
        = .ok (allocmap, freemap, log1)
      ∧ LogHolds g log1 D ∧ Admits .alloc D allocmap.points
      ∧ Admits .free (applied .alloc D allocmap.points) freemap.points
      ∧ applied .free (applied .alloc D allocmap.points) freemap.points
          = phaseSet g ph (committed s.synced)
      ∧ (s.ms.msMap.smLoaded = false → log1 = log) := by
  have hact := active_succ s
  by_cases hc : shouldCondense s.ms syncpass = true
  · -- a truncated log and a pure allocmap
    have hl : s.ms.msMap.smLoaded = true := by
      rw [shouldCondense, Bool.and_eq_true, Bool.and_eq_true] at hc
      exact hc.1.1
    obtain ⟨allocmap, hcond, hpoints⟩ := condensedAllocmap_spec h hl hfreed
    refine ⟨allocmap, spaceMapCreate g, spaceMapTruncate log, ∅, ?_, LogHolds.truncate log,
      disjoint_empty_left _, empty_subset _, ?_, fun hf => absurd (hl.symm.trans hf) (by decide)⟩
    · rw [syncSource, if_pos hc, hcond]
      rfl
    · rw [points_spaceMapCreate, applied_empty, applied, empty_union, hpoints]
  · -- the maps of the txg, appended
    have hA := h.alloc _ hact
    have hF := h.free _ hact
    refine ⟨_, _, log, _, if_neg hc, hlog, ?_, ?_, ?_, fun _ => rfl⟩
    · rw [hA]
      exact phaseSet_disjoint fun x => by cases ph x <;> simp
    · rw [hA, hF, applied, phaseSet_union]
      intro x hx
      obtain ⟨hwhole, hin⟩ := mem_phaseSet.mp hx
      refine mem_phaseSet.mpr ⟨hwhole, ?_⟩
      have hw := h.window x
      cases hp : ph x with
      | dying txg => rfl
      | doomed born txg =>
        rw [hp] at hin hw
        have htxg : txg = s.synced + 1 := beq_iff_eq.mp hin
        subst htxg
        exact beq_iff_eq.mpr hw.born_eq
      | _ =>
        rw [hp] at hin
        cases hin
    · rw [hA, hF, applied, applied, phaseSet_union, phaseSet_sdiff]
      rfl

/-- **SYNC**: both maps of the txg are emptied, what it frees waits in the freed
    map, and the log stands for what was on disk, plus what the txg allocated,
    minus what it freed.  An unloaded metaslab's log is only appended to. -/
theorem metaslabSync_spec (hg : SlabGeom g) (h : Tracks s ph) (o : DestroyOrder)
    (syncpass newObject : ℕ) :
    ∃ (allocmap freemap freedMap : SpaceMap g) (log : SpaceLog),
      metaslabSync o s.ms (s.synced + 1) syncpass newObject = .ok { s.ms with
          msAllocmap := update s.ms.msAllocmap (slot (s.synced + 1)) allocmap
          msFreemap := update
            (update s.ms.msFreemap (cleanSlot (s.synced + 1)) freedMap)
            (slot (s.synced + 1)) freemap
          msSmoSyncing := log.smo
          words := log.words }
        ∧ allocmap.points = ∅ ∧ freemap.points = ∅
        ∧ (freedMap.points = phaseSet g ph fun p => p.isClean || p.inFree (s.synced + 1))
        ∧ LogHolds g log (phaseSet g ph (committed s.synced))
        ∧ (s.ms.msMap.smLoaded = false → s.ms.msSmoSyncing.smoObjsize ≤ log.smo.smoObjsize
          ∧ ∀ i < s.ms.msSmoSyncing.smoObjsize / 8, log.words i = s.ms.words i) := by
  obtain ⟨freedMap, hwalk, hfreed⟩ := h.freedMap
  let smo := if s.ms.msSmoSyncing.smoObject = 0
    then { s.ms.msSmoSyncing with smoObject := newObject } else s.ms.msSmoSyncing
  have hsize : smo.smoObjsize = s.ms.msSmoSyncing.smoObjsize := by
    show (if _ then _ else _ : SpaceMapObj).smoObjsize = _
    split_ifs <;> rfl
  have halloc : smo.smoAlloc = s.ms.msSmoSyncing.smoAlloc := by
    show (if _ then _ else _ : SpaceMapObj).smoAlloc = _
    split_ifs <;> rfl
  have hlog : LogHolds g ⟨smo, s.ms.words⟩ (phaseSet g ph Phase.onDisk) := by
    refine ⟨hsize ▸ h.disk.phase, ?_, halloc.trans h.disk.alloc_eq⟩
    rw [SpaceLog.entries, hsize]
    exact h.disk.replays
  obtain ⟨m1, m2, log1, D, hsource, hlog1, hadm1, hadm2, heq, hsame⟩ :=
    syncSource_spec h hfreed hlog syncpass
  obtain ⟨allocmap, log2, hsync1, hallocmap, hlog2, hext1⟩ :=
    spaceMapSync_spec o hlog1 (hg.fits m1) hadm1 syncpass (s.synced + 1)
  obtain ⟨freemap, log3, hsync2, hfreemap, hlog3, hext2⟩ :=
    spaceMapSync_spec o hlog2 (hg.fits m2) hadm2 syncpass (s.synced + 1)
  refine ⟨allocmap, freemap, freedMap, log3, ?_, hallocmap, hfreemap, hfreed, heq ▸ hlog3, ?_⟩
  · rw [metaslabSync]
    simp only [bind, Except.bind, hwalk]
    rw [show syncSource s.ms (s.synced + 1) syncpass freedMap ⟨_, s.ms.words⟩ = _ from hsource]
    simp only [hsync1, hsync2]
    rfl
  · intro hl
    have hext := hext1.trans hext2
    rw [hsame hl] at hext
    exact ⟨hsize ▸ hext.size_le, hsize ▸ hext.words_eq⟩

theorem phaseSet_eq_empty {P : Phase → Bool} (h : ∀ x, P (ph x) = false) : phaseSet g ph P = ∅ := by
  refine eq_empty_of_forall_notMem ?_
  intro x hx
  have hP := (mem_phaseSet.mp hx).2
  rw [h x] at hP
  cases hP

theorem Phase.held_syncAt (hno : p.inAlloc t = false) :
    ((p.syncAt t).onDisk || (p.syncAt t).isClean) = (p.onDisk || p.isClean) := by
  refine syncAt_elim (motive := fun p q => p.inAlloc t = false →
    (q.onDisk || q.isClean) = (p.onDisk || p.isClean)) ?_ ?_ ?_ ?_ ?_ p hno
  all_goals simp

theorem vdevSync_spec (hg : SlabGeom g) (h : Tracks s ph) (o : DestroyOrder)
    (syncpass newObject : ℕ) :
    ∃ ms ph', vdevSync o s.ms (s.synced + 1) syncpass newObject = .ok ms
      ∧ Tracks { s with ms := ms } ph' := by
  by_cases hd : s.ms.msTxgNode (slot (s.synced + 1)) = true
  swap
  · exact ⟨s.ms, ph, if_neg hd, h⟩
  have hact := active_succ s
  obtain ⟨allocmap, freemap, freedMap, log, hsync, hA, hF, hfreed, hlog, hext⟩ :=
    metaslabSync_spec hg h o syncpass newObject
  refine ⟨_, fun x => (ph x).syncAt (s.synced + 1), by rw [vdevSync, if_pos hd, hsync]; rfl, ?_⟩
  rw [cleanSlot_succ]
  refine { h with
      status := fun x => (h.status x).trans (Phase.status_syncAt _ _).symm
      outside := ?_
      window := fun x => (h.window x).syncAt
      alloc := ?_
      free := ?_
      allocClean := ?_
      freed := ?_
      disk := ?_
      loaded := ?_
      unloaded := ?_
      dirty := ?_
      listed := ?_ }
  · intro x hx
    rw [h.outside x hx]
    rfl
  · intro t ht
    dsimp only
    by_cases hne : t = s.synced + 1
    · subst hne
      rw [update_self, hA, phaseSet_eq_empty fun x => Phase.inAlloc_syncAt_self _ _]
    · rw [update_of_ne (ht.slot_ne hact hne), h.alloc t ht]
      exact (phaseSet_comp fun x => Phase.inAlloc_syncAt_of_ne hne).symm
  · intro t ht
    dsimp only
    by_cases hne : t = s.synced + 1
    · subst hne
      rw [update_self, hF, phaseSet_eq_empty fun x => Phase.inFree_syncAt_self (h.window x)]
    · rw [update_of_ne (ht.slot_ne hact hne), update_of_ne ht.slot_ne_synced, h.free t ht]
      exact (phaseSet_comp fun x => Phase.inFree_syncAt_of_ne hne).symm
  · dsimp only
    rw [update_of_ne hact.slot_ne_synced.symm]
    exact h.allocClean
  · dsimp only
    rw [update_of_ne hact.slot_ne_synced.symm, update_self, hfreed]
    exact (phaseSet_comp fun x => Phase.isClean_syncAt (h.window x)).symm
  · rw [phaseSet_comp (Q := committed s.synced) fun x => Phase.onDisk_syncAt (h.window x)]
    exact hlog
  · intro hl
    rw [phaseSet_comp fun x => Phase.isFree_syncAt _ _]
    exact h.loaded hl
  · intro hl
    obtain ⟨hempty, hno, hle, hold⟩ := h.unloaded hl
    obtain ⟨hsize, hwords⟩ := hext hl
    refine ⟨hempty, ?_, hle.trans hsize, ?_⟩
    · intro x t
      by_cases hne : t = s.synced + 1
      · subst hne
        exact Phase.inAlloc_syncAt_self _ _
      · rw [Phase.inAlloc_syncAt_of_ne hne]
        exact hno x t
    · rw [phaseSet_comp (Q := fun p => p.onDisk || p.isClean) fun x => Phase.held_syncAt (hno x _)]
      exact logHolds_words hold fun i hi => hwords i (hi.trans_le (Nat.div_le_div_right hle))
  · intro t ht hz
    dsimp only at hz ⊢
    by_cases hne : t = s.synced + 1
    · subst hne
      rw [update_self, update_self]
      exact ⟨hA, hF⟩
    · have hslot := ht.slot_ne hact hne
      rw [update_of_ne ht.slot_ne_synced, update_of_ne hslot] at hz
      rw [update_of_ne hslot, update_of_ne hslot, update_of_ne ht.slot_ne_synced]
      exact h.dirty t ht hz
  · intro hz
    dsimp only at hz
    rw [update_self] at hz
    cases hz

/-! ## `metaslab_sync_done` -/

theorem Tracks.drained (h : Tracks s ph) (hd : s.ms.msTxgNode (slot (s.synced + 1)) = false)
    (x : ℕ) : (ph x).inAlloc (s.synced + 1) = false ∧ (ph x).inFree (s.synced + 1) = false := by
  have hact := active_succ s
  obtain ⟨hA, hF⟩ := h.dirty _ hact hd
  rw [h.alloc _ hact] at hA
  rw [h.free _ hact] at hF
  by_cases hx : x ∈ g.whole
  · constructor
    · refine Bool.eq_false_of_not_eq_true fun hin => ?_
      exact notMem_empty x (hA ▸ mem_phaseSet.mpr ⟨hx, hin⟩)
    · refine Bool.eq_false_of_not_eq_true fun hin => ?_
      exact notMem_empty x (hF ▸ mem_phaseSet.mpr ⟨hx, hin⟩)
  · rw [h.outside x hx]
    exact ⟨rfl, rfl⟩

namespace Phase

variable {p : Phase} {synced : ℕ}

theorem Within.doneAt (h : p.Within synced) (hA : p.inAlloc (synced + 1) = false)
    (hF : p.inFree (synced + 1) = false) : p.doneAt.Within (synced + 1) := by
  have hnext : ∀ {t : ℕ}, synced < t → (t == synced + 1) = false → synced + 1 < t := by
    intro t hlt hne
    exact lt_of_le_of_ne hlt (Ne.symm (ne_of_beq_false hne))
  cases p with
  | fresh born => exact ⟨hnext h.1 hA, h.2.trans (add_le_add_right (Nat.le_succ _) _)⟩
  | doomed born txg =>
    exact ⟨hnext h.1 hA, h.2.1, h.2.2.trans (add_le_add_right (Nat.le_succ _) _)⟩
  | dying txg => exact ⟨hnext h.1 hF, h.2.trans (add_le_add_right (Nat.le_succ _) _)⟩
  | _ => trivial

theorem status_doneAt (hF : p.inFree (synced + 1) = false) :
    p.doneAt.status (synced + 1)
      = if p.status synced = .freed (synced + 1) then .free else p.status synced := by
  cases p with
  | doomed born txg | dying txg =>
    rw [if_neg]
    · rfl
    · intro heq
      exact ne_of_beq_false hF (Status.freed.inj heq)
  | clean => exact (if_pos rfl).symm
  | _ => rfl

theorem inAlloc_doneAt (t : ℕ) (p : Phase) : p.doneAt.inAlloc t = p.inAlloc t := by cases p <;> rfl

theorem inFree_doneAt (t : ℕ) (p : Phase) : p.doneAt.inFree t = p.inFree t := by cases p <;> rfl

theorem onDisk_doneAt (p : Phase) : p.doneAt.onDisk = p.onDisk := by cases p <;> rfl

theorem isClean_doneAt (p : Phase) : p.doneAt.isClean = false := by cases p <;> rfl

theorem isFree_doneAt (p : Phase) : p.doneAt.isFree = (p.isFree || p.isClean) := by cases p <;> rfl

theorem Within.none_at (h : p.Within synced) (ht : synced + txgConcurrentStates < t) :
    p.inAlloc t = false ∧ p.inFree t = false := by
  cases p with
  | fresh born => exact ⟨beq_false_of_ne (ne_of_lt (h.2.trans_lt ht)), rfl⟩
  | doomed born txg =>
    exact ⟨beq_false_of_ne (ne_of_lt ((h.2.1.trans h.2.2).trans_lt ht)),
      beq_false_of_ne (ne_of_lt (h.2.2.trans_lt ht))⟩
  | dying txg => exact ⟨rfl, beq_false_of_ne (ne_of_lt (h.2.trans_lt ht))⟩
  | _ => exact ⟨rfl, rfl⟩

end Phase

/-- The state of a metaslab after the syncing txg is done, as far as the invariant needs it. -/
structure Done (s : SlabRun g) (ph : ℕ → Phase) (ms : Metaslab g) : Prop where
  alloc : ms.msAllocmap = s.ms.msAllocmap
  free : ∀ i, i ≠ slot s.synced → ms.msFreemap i = s.ms.msFreemap i
  freed : (ms.msFreemap (slot s.synced)).points = ∅
  node : ∀ i, i ≠ slot s.synced → ms.msTxgNode i = s.ms.msTxgNode i
  disk : LogHolds g ⟨ms.msSmoSyncing, ms.words⟩ (phaseSet g ph Phase.onDisk)
  loaded : ms.msMap.smLoaded = true →
    ms.msMap.map.points = phaseSet g ph fun p => p.isFree || p.isClean
  unloaded : ms.msMap.smLoaded = false → ms.msMap.map.points = ∅
    ∧ (∀ x t, (ph x).inAlloc t = false)
    ∧ ms.msSmo.smoObjsize ≤ ms.msSmoSyncing.smoObjsize
    ∧ LogHolds g ⟨ms.msSmo, ms.words⟩ (phaseSet g ph Phase.onDisk)
  active : ms.msWeight &&& metaslabActiveMask ≠ 0 → ms.msMap.smLoaded = true
  created : ms.msCreated = true

section

variable (h : Tracks s ph) (hd : s.ms.msTxgNode (slot (s.synced + 1)) = false)

include h hd

theorem Tracks.done (hms : Done s ph ms) :
    Tracks ⟨ms, s.synced + 1,
      fun x => if s.status x = .freed (s.synced + 1) then .free else s.status x⟩
      fun x => (ph x).doneAt := by
  have hdrained := h.drained hd
  obtain ⟨hA1, hF1⟩ := h.dirty _ (active_succ s) hd
  -- a txg of the new window is one of the old, or takes over the slot of the freed map
  have hcases : ∀ t, s.synced + 1 < t ∧ t ≤ s.synced + 1 + txgConcurrentStates →
      (s.Active t ∧ slot t ≠ slot s.synced) ∨ (s.synced + txgConcurrentStates < t
        ∧ slot t = slot s.synced) := by
    rintro t ⟨hlo, hhi⟩
    by_cases hold : t ≤ s.synced + txgConcurrentStates
    · have hact : s.Active t := ⟨(Nat.lt_succ_self _).trans hlo, hold⟩
      exact .inl ⟨hact, hact.slot_ne_synced⟩
    · refine .inr ⟨not_le.mp hold, Fin.ext ?_⟩
      show t % 4 = s.synced % 4
      rw [txgConcurrentStates] at hhi hold
      omega
  have hne : slot (s.synced + 1) ≠ slot s.synced := (active_succ s).slot_ne_synced
  refine { hms with
      status := ?_
      outside := ?_
      window := fun x => (h.window x).doneAt (hdrained x).1 (hdrained x).2
      alloc := ?_
      free := ?_
      allocClean := ?_
      freed := ?_
      disk := ?_
      loaded := ?_
      unloaded := ?_
      dirty := ?_
      listed := ?_ }
  · intro x
    dsimp only
    rw [h.status x]
    exact (Phase.status_doneAt (hdrained x).2).symm
  · intro x hx
    rw [h.outside x hx]
    rfl
  · intro t ht
    rw [phaseSet_comp fun x => Phase.inAlloc_doneAt t _, hms.alloc]
    rcases hcases t ht with ⟨hact, -⟩ | ⟨hlate, hslot⟩
    · exact h.alloc t hact
    · rw [hslot, h.allocClean, phaseSet_eq_empty fun x => ((h.window x).none_at hlate).1]
  · intro t ht
    rw [phaseSet_comp fun x => Phase.inFree_doneAt t _]
    rcases hcases t ht with ⟨hact, hslot⟩ | ⟨hlate, hslot⟩
    · rw [hms.free _ hslot]
      exact h.free t hact
    · rw [hslot, hms.freed, phaseSet_eq_empty fun x => ((h.window x).none_at hlate).2]
  · rw [hms.alloc]
    exact hA1
  · rw [hms.free _ hne, hF1, phaseSet_eq_empty fun x => Phase.isClean_doneAt _]
  · rw [phaseSet_comp fun x => Phase.onDisk_doneAt _]
    exact hms.disk
  · intro hl
    exact (hms.loaded hl).trans (phaseSet_comp fun x => Phase.isFree_doneAt _).symm
  · intro hl
    obtain ⟨hempty, hno, hle, hlog⟩ := hms.unloaded hl
    refine ⟨hempty, ?_, hle, ?_⟩
    · intro x t
      rw [Phase.inAlloc_doneAt]
      exact hno x t
    · rw [phaseSet_comp (Q := Phase.onDisk) fun x => by
        rw [Phase.onDisk_doneAt, Phase.isClean_doneAt, Bool.or_false]]
      exact hlog
  · intro t ht hz
    rw [hms.alloc]
    rcases hcases t ht with ⟨hact, hslot⟩ | ⟨hlate, hslot⟩
    · rw [hms.node _ hslot] at hz
      rw [hms.free _ hslot]
      exact h.dirty t hact hz
    · rw [hslot]
      exact ⟨h.allocClean, hms.freed⟩
  · intro _
    rw [hms.free _ hne]
    exact hF1

omit h hd in
theorem vacateFreed_spec (o : DestroyOrder) {sm : CoreMap g}
    (hdisj : sm.smLoaded = true → Disjoint sm.map.points freedMap.points) :
    ∃ sm', vacateFreed o freedMap sm = .ok (spaceMapCreate g, sm')
      ∧ sm'.smLoaded = sm.smLoaded
      ∧ (sm.smLoaded = true → sm'.map.points = sm.map.points ∪ freedMap.points)
      ∧ (sm.smLoaded = false → sm' = sm) := by
  by_cases hl : sm.smLoaded = true
  · have hcover : cover (o.order freedMap.smRoot.segs) = freedMap.points := cover_perm (o.perm _)
    obtain ⟨sm', hwalk, hl', hpoints⟩ := walkFree_spec (freedMap.ranges.perm (o.perm _)) sm hl
      (by rw [hcover]; exact hdisj hl)
    refine ⟨sm', ?_, hl'.trans hl.symm, fun _ => ?_, fun hf => absurd (hl.symm.trans hf)
      (by decide)⟩
    · rw [vacateFreed, if_pos hl, spaceMapVacate, hwalk]
    · rw [hpoints, hcover]
  · exact ⟨sm, if_neg hl, rfl, fun hf => absurd hf hl, fun _ => rfl⟩

theorem Tracks.no_alloc_of_evictable (hms : ms.msAllocmap = s.ms.msAllocmap)
    (hev : evictable ms (s.synced + 1) = true) : ∀ x t, (ph x).inAlloc t = false := by
  have hrange : List.range' 1 (txgConcurrentStates - 1) = [1, 2] := rfl
  rw [evictable, hrange, List.all_eq_true] at hev
  have hlater : ∀ k, k = 1 ∨ k = 2 → phaseSet g ph (Phase.inAlloc (s.synced + 1 + k)) = ∅ := by
    intro k hk
    have hact : s.Active (s.synced + 1 + k) := by
      refine ⟨by omega, ?_⟩
      rw [txgConcurrentStates]
      omega
    rw [← h.alloc _ hact, ← SpaceMap.space_zero_iff, ← hms]
    exact beq_iff_eq.mp (hev k (by simpa using hk))
  intro x t
  refine Bool.eq_false_of_not_eq_true fun hin => ?_
  have hx : x ∈ g.whole := by
    by_contra hx
    rw [h.outside x hx] at hin
    cases hin
  have hw := h.window x
  have hbounds : s.synced < t ∧ t ≤ s.synced + txgConcurrentStates := by
    rcases Phase.of_inAlloc hin with hp | ⟨f, hp⟩
    · rw [hp] at hw
      exact hw
    · rw [hp] at hw
      exact ⟨hw.1, hw.2.1.trans hw.2.2⟩
  have hwhich : t = s.synced + 1 ∨ t = s.synced + 1 + 1 ∨ t = s.synced + 1 + 2 := by
    have hhi := hbounds.2
    rw [txgConcurrentStates] at hhi
    omega
  rcases hwhich with rfl | rfl | rfl
  · rw [(h.drained hd x).1] at hin
    cases hin
  · exact notMem_empty x (hlater 1 (.inl rfl) ▸ mem_phaseSet.mpr ⟨hx, hin⟩)
  · exact notMem_empty x (hlater 2 (.inr rfl) ▸ mem_phaseSet.mpr ⟨hx, hin⟩)

/-- **SYNC DONE**: what the txg freed is free, the log of the txg is the one to load
    from, and an idle metaslab may be evicted. -/
theorem metaslabSyncDone_spec (hg : SlabGeom g) (o : DestroyOrder) (vd : Vdev) (b : Bool) :
    ∃ ms, metaslabSyncDone o vd s.ms (s.synced + 1) = .ok ms
      ∧ Done s ph { ms with msTxgNode := update ms.msTxgNode (slot s.synced) b } := by
  set s' := s.synced + 1
  obtain ⟨hA, hF⟩ := h.dirty _ (active_succ s) hd
  have hdisj : s.ms.msMap.smLoaded = true →
      Disjoint s.ms.msMap.map.points (s.ms.msFreemap (slot s.synced)).points := by
    intro hl
    rw [h.loaded hl, h.freed]
    exact phaseSet_disjoint fun x => by cases ph x <;> simp
  obtain ⟨sm, hvacate, hsml, hpoints, hsame⟩ := vacateFreed_spec o hdisj
  let ms1 : Metaslab g := { s.ms with
    msFreemap := update s.ms.msFreemap (slot s.synced) (spaceMapCreate g)
    msSmo := s.ms.msSmoSyncing
    msMap := sm }
  have hloaded : sm.smLoaded = true →
      sm.map.points = phaseSet g ph fun p => p.isFree || p.isClean := by
    intro hl
    rw [hpoints (hsml ▸ hl), h.loaded (hsml ▸ hl), h.freed, phaseSet_union]
  have hcase : metaslabSyncDone o vd s.ms s' = .ok { evictIfIdle ms1 s' with
      msWeight := metaslabWeight vd (evictIfIdle ms1 s') } := by
    rw [metaslabSyncDone, createMaps, if_pos h.created,
      if_neg (not_not.mpr (SpaceMap.space_zero_iff.mpr hA)),
      if_neg (not_not.mpr (SpaceMap.space_zero_iff.mpr hF)), cleanSlot_succ]
    simp only [hvacate]
    rfl
  refine ⟨_, hcase, ?_⟩
  have hdone : ∀ (m : CoreMap g) (weight : ℕ), (m.smLoaded = true →
        m.map.points = phaseSet g ph fun p => p.isFree || p.isClean) →
      (m.smLoaded = false → m.map.points = ∅ ∧ ∀ x t, (ph x).inAlloc t = false) →
      (weight &&& metaslabActiveMask ≠ 0 → m.smLoaded = true) → Done s ph { ms1 with
        msMap := m, msWeight := weight, msTxgNode := update ms1.msTxgNode (slot s.synced) b } :=
    fun m weight hm hun hw =>
      { h with
        alloc := rfl
        free := fun i hi => update_of_ne hi ..
        freed := by
          dsimp only [ms1]
          rw [update_self]
          rfl
        node := fun i hi => update_of_ne hi ..
        loaded := hm
        unloaded := fun hl => ⟨(hun hl).1, (hun hl).2, le_rfl, h.disk⟩
        active := hw }
  by_cases hev : ms1.msMap.smLoaded = true ∧ ms1.msWeight &&& metaslabActiveMask = 0
      ∧ evictable ms1 s' = true
  · -- evicted: the log just committed has everything
    have hms2 : evictIfIdle ms1 s' = { ms1 with msMap := spaceMapUnload ms1.msMap } :=
      if_pos hev
    rw [hms2]
    refine hdone _ _ nofun (fun _ => ⟨rfl, h.no_alloc_of_evictable hd rfl hev.2.2⟩) fun hw => ?_
    rw [metaslabWeight_active hg.small] at hw
    exact absurd hev.2.1 hw
  · have hms2 : evictIfIdle ms1 s' = ms1 := if_neg hev
    rw [hms2]
    refine hdone _ _ hloaded (fun hl => ?_) fun hw => ?_
    · have hl' : s.ms.msMap.smLoaded = false := hsml ▸ hl
      obtain ⟨hempty, hno, -, -⟩ := h.unloaded hl'
      exact ⟨(congrArg (fun m => m.map.points) (hsame hl')).trans hempty, hno⟩
    · rw [metaslabWeight_active hg.small] at hw
      exact hsml.trans (h.active hw)

/-- **SYNC DONE STEP**, also for a metaslab that was not synced in the txg. -/
theorem vdevSyncDone_spec (hg : SlabGeom g) (o : DestroyOrder) (vd : Vdev) :
    ∃ ms, vdevSyncDone o vd s.ms (s.synced + 1) = .ok ms ∧ Done s ph ms := by
  by_cases hl : s.ms.msTxgNode (slot s.synced) = true
  · obtain ⟨ms, hdone, hms⟩ := metaslabSyncDone_spec h hd hg o vd false
    refine ⟨_, ?_, hms⟩
    rw [vdevSyncDone, cleanSlot_succ, if_pos hl, hdone]
    rfl
  · -- nothing was freed in this txg
    have hclean := h.listed (Bool.eq_false_of_not_eq_true hl)
    have hfreed := h.freed
    rw [hclean] at hfreed
    have hor : ∀ P : Phase → Bool, phaseSet g ph (fun p => P p || p.isClean) = phaseSet g ph P := by
      intro P
      rw [← phaseSet_union, ← hfreed, union_empty]
    refine ⟨s.ms, ?_, ?_⟩
    · rw [vdevSyncDone, cleanSlot_succ, if_neg hl]
    exact { h with
        alloc := rfl
        free := fun _ _ => rfl
        freed := hclean
        node := fun _ _ => rfl
        loaded := fun hload => (h.loaded hload).trans (hor _).symm
        unloaded := fun hload => by
          obtain ⟨hempty, hno, hle, hlog⟩ := h.unloaded hload
          rw [hor] at hlog
          exact ⟨hempty, hno, hle, hlog⟩ }

end

end Steps

end Sirius.Alloc
