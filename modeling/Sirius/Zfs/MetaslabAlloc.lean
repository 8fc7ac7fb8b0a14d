import Sirius.Zfs.MetaslabLedger

/-! # Allocating and freeing — the phases of one range

    Loading the map, allocating a range and freeing one keep `Tracks`, with the
    phases of the bytes of the range moving as the operation says, and none of
    them panics. -/

namespace Sirius.Alloc

open Sirius.Lib Sirius.Space Function Finset

section Sets

variable {g : SpaceGeom} {ph : ℕ → Phase} {P Q : Phase → Bool} {r : Finset ℕ} {q : Phase → Phase}

/-! ## Sets of bytes in a phase -/

theorem phaseSet_subset : phaseSet g ph P ⊆ g.whole := filter_subset _ _

theorem phaseSet_congr (h : ∀ x, P (ph x) = Q (ph x)) : phaseSet g ph P = phaseSet g ph Q := by
  ext x
  rw [mem_phaseSet, mem_phaseSet, h x]

theorem phaseSet_disjoint (h : ∀ x, P (ph x) = true → Q (ph x) = false) :
    Disjoint (phaseSet g ph P) (phaseSet g ph Q) := by
  rw [disjoint_left]
  intro x hx hx'
  have hP := (mem_phaseSet.mp hx).2
  have hQ := (mem_phaseSet.mp hx').2
  rw [h x hP] at hQ
  cases hQ

theorem phaseSet_union : phaseSet g ph P ∪ phaseSet g ph Q = phaseSet g ph fun p => P p || Q p := by
  ext x
  simp only [mem_union, mem_phaseSet, Bool.or_eq_true]
  tauto

theorem phaseSet_sdiff : phaseSet g ph P \ phaseSet g ph Q =
    phaseSet g ph fun p => P p && !Q p := by
  ext x
  simp only [mem_sdiff, mem_phaseSet, Bool.and_eq_true, Bool.not_eq_true', ← Bool.not_eq_true]
  tauto

theorem whole_sdiff_phaseSet : g.whole \ phaseSet g ph P = phaseSet g ph fun p => !P p := by
  ext x
  simp only [mem_sdiff, mem_phaseSet, Bool.not_eq_true', ← Bool.not_eq_true]
  tauto

theorem phaseSet_comp (h : ∀ x, P (q (ph x)) = Q (ph x)) :
    phaseSet g (fun x => q (ph x)) P = phaseSet g ph Q := by
  ext x
  rw [mem_phaseSet, mem_phaseSet, h x]

def setPhase (ph : ℕ → Phase) (r : Finset ℕ) (q : Phase → Phase) : ℕ → Phase :=
  fun x => if x ∈ r then q (ph x) else ph x

theorem setPhase_of_mem {x : ℕ} (h : x ∈ r) : setPhase ph r q x = q (ph x) := if_pos h

theorem setPhase_of_not_mem {x : ℕ} (h : x ∉ r) : setPhase ph r q x = ph x := if_neg h

theorem phaseSet_setPhase_same (h : ∀ x ∈ r, P (q (ph x)) = P (ph x)) :
    phaseSet g (setPhase ph r q) P = phaseSet g ph P := by
  ext x
  rw [mem_phaseSet, mem_phaseSet]
  by_cases hx : x ∈ r
  · rw [setPhase_of_mem hx, h x hx]
  · rw [setPhase_of_not_mem hx]

theorem phaseSet_setPhase_of {a : Phase} (ha : ∀ x ∈ r, ph x = a) (h : P (q a) = P a) :
    phaseSet g (setPhase ph r q) P = phaseSet g ph P :=
  phaseSet_setPhase_same fun x hx => by rw [ha x hx, h]

theorem phaseSet_setPhase_add (hr : r ⊆ g.whole) (h : ∀ x ∈ r, P (q (ph x)) = true) :
    phaseSet g (setPhase ph r q) P = phaseSet g ph P ∪ r := by
  ext x
  rw [mem_union, mem_phaseSet, mem_phaseSet]
  by_cases hx : x ∈ r
  · rw [setPhase_of_mem hx, h x hx]
    exact ⟨fun _ => .inr hx, fun _ => ⟨hr hx, rfl⟩⟩
  · rw [setPhase_of_not_mem hx]
    exact ⟨.inl, fun hor => hor.resolve_right hx⟩

theorem phaseSet_setPhase_remove (h : ∀ x ∈ r, P (q (ph x)) = false) :
    phaseSet g (setPhase ph r q) P = phaseSet g ph P \ r := by
  ext x
  rw [mem_sdiff, mem_phaseSet, mem_phaseSet]
  by_cases hx : x ∈ r
  · rw [setPhase_of_mem hx, h x hx]
    exact ⟨(fun hf => nomatch hf.2), fun hf => absurd hx hf.2⟩
  · rw [setPhase_of_not_mem hx]
    exact ⟨fun hP => ⟨hP, hx⟩, fun hP => hP.1⟩

end Sets

theorem slot_inj {s t t' : ℕ} (h : slot t = slot t') (hlo : s ≤ t) (hhi : t ≤ s + 3) (hlo' : s ≤ t')
    (hhi' : t' ≤ s + 3) : t = t' := by
  have hmod : t % 4 = t' % 4 := congrArg Fin.val h
  omega

theorem cleanSlot_succ (s : ℕ) : cleanSlot (s + 1) = slot s := by
  refine Fin.ext ?_
  show (s + 1 + 3) % 4 = s % 4
  omega

section Steps

variable {g : SpaceGeom} {s : SlabRun g} {ph : ℕ → Phase} {vd : Vdev} {t txg size : ℕ}

theorem SlabRun.Active.slot_ne_synced (h : s.Active t) : slot t ≠ slot s.synced := by
  intro heq
  have hlt := h.1
  rw [slot_inj heq hlt.le h.2 le_rfl (Nat.le_add_right _ _)] at hlt
  exact Nat.lt_irrefl _ hlt

theorem SlabRun.Active.slot_ne (h : s.Active t) (h' : s.Active txg) (hne : t ≠ txg) :
    slot t ≠ slot txg := fun heq => hne (slot_inj heq h.1.le h.2 h'.1.le h'.2)

theorem SlabGeom.fits (h : SlabGeom g) (sm : SpaceMap g) : Fits47 sm := by
  intro ss hss
  refine le_trans ?_ h.sectors
  rw [Nat.shiftRight_eq_div_pow, Nat.shiftRight_eq_div_pow]
  exact Nat.div_le_div_right (Nat.sub_le_iff_le_add'.mpr (sm.onMap ss hss).hi)

theorem logHolds_words {smo : SpaceMapObj} {words words' : ℕ → ℕ} {A : Finset ℕ}
    (h : LogHolds g ⟨smo, words⟩ A) (hw : ∀ i < smo.smoObjsize / 8, words' i = words i) :
    LogHolds g ⟨smo, words'⟩ A := by
  refine { h with replays := ?_ }
  have hentries : SpaceLog.entries ⟨smo, words'⟩ = SpaceLog.entries ⟨smo, words⟩ :=
    List.map_congr_left fun i hi => hw i (List.mem_range.mp hi)
  rw [hentries]
  exact h.replays

theorem Tracks.setWeight (h : Tracks s ph) {w : ℕ}
    (hw : w &&& metaslabActiveMask ≠ 0 → s.ms.msMap.smLoaded = true) :
    Tracks { s with ms := { s.ms with msWeight := w } } ph :=
  { h with active := hw }

theorem Tracks.setMap (h : Tracks s ph) (sm : CoreMap g) (hl : sm.smLoaded = true)
    (hpoints : sm.map.points = phaseSet g ph Phase.isFree) :
    Tracks { s with ms := { s.ms with msMap := sm } } ph :=
  { h with
    loaded := fun _ => hpoints
    unloaded := fun hf => absurd (hl.symm.trans hf) (by decide)
    active := fun _ => hl }

theorem Tracks.free_of_unloaded (h : Tracks s ph) (hl : s.ms.msMap.smLoaded = false) :
    view g .free (phaseSet g ph fun p => p.onDisk || p.isClean) = phaseSet g ph Phase.isFree := by
  obtain ⟨-, hno, -, -⟩ := h.unloaded hl
  rw [view, whole_sdiff_phaseSet]
  refine phaseSet_congr ?_
  intro x
  cases hx : ph x with
  | fresh born | doomed born txg =>
    have hf := hno x born
    rw [hx] at hf
    simp [Phase.inAlloc] at hf
  | free | held born | dying txg | clean => rfl

/-- **ACTIVATE**: the map is loaded from the log of the last finished txg, unless a read fails. -/
theorem metaslabActivate_spec (h : Tracks s ph) (activation : Activation) (readError : ℕ → ℕ) :
    ∃ err ms, metaslabActivate s.ms activation readError = .ok (err, ms)
      ∧ Tracks { s with ms := ms } ph ∧ (err = 0 → ms.msMap.smLoaded = true) := by
  by_cases hw : s.ms.msWeight &&& metaslabActiveMask = 0
  · rw [metaslabActivate, if_pos hw]
    cases hl : s.ms.msMap.smLoaded with
    | true =>
      have hload : spaceMapLoad s.ms.msMap .free ⟨s.ms.msSmo, s.ms.words⟩ readError
          = .ok (0, s.ms.msMap) := by
        rw [spaceMapLoad, if_pos hl]
      rw [hload]
      exact ⟨0, _, rfl, h.setWeight fun _ => hl, fun _ => hl⟩
    | false =>
      obtain ⟨hempty, -, -, hlog⟩ := h.unloaded hl
      rcases spaceMapLoad_spec hlog hl hempty .free readError with
        ⟨loaded, hload, hpoints⟩ | ⟨off, hoff, hload⟩
      · rw [hload]
        rw [h.free_of_unloaded hl] at hpoints
        refine ⟨0, _, rfl, ?_, fun _ => rfl⟩
        exact (h.setMap ⟨loaded, true, fun _ => 0⟩ rfl hpoints).setWeight fun _ => rfl
      · rw [hload]
        refine ⟨readError off, _, if_pos hoff, ?_, fun hz => absurd hz hoff⟩
        exact { h with
          loaded := fun hf => absurd (hl.symm.trans hf) (by decide)
          unloaded := fun _ => ⟨rfl, (h.unloaded hl).2⟩
          active := fun hf => absurd (Nat.zero_and _) hf }
  · rw [metaslabActivate, if_neg hw]
    exact ⟨0, s.ms, rfl, h, fun _ => h.active hw⟩

/-! ## Allocating and freeing a range -/

section Ranges

variable {off size : ℕ} {status : ℕ → Status} {st : Status} {node : Fin 4 → Bool} {map : SpaceMap g}

theorem mark_of_mem {x : ℕ} (h : x ∈ Ico off (off + size)) : mark status off size st x = st :=
  if_pos (mem_Ico.mp h)

theorem mark_of_not_mem {x : ℕ}
    (h : x ∉ Ico off (off + size)) : mark status off size st x = status x :=
  if_neg fun hx => h (mem_Ico.mpr hx)

section

variable (h : Tracks s ph)

include h

theorem Tracks.eq_free (hl : s.ms.msMap.smLoaded = true) {x : ℕ}
    (hx : x ∈ s.ms.msMap.map.points) : ph x = .free := by
  rw [h.loaded hl] at hx
  have hfree := (mem_phaseSet.mp hx).2
  cases hp : ph x with
  | free => rfl
  | _ =>
    rw [hp] at hfree
    cases hfree

theorem Tracks.eq_live {x born : ℕ} (hx : s.status x = .live born) :
    ph x = .fresh born ∨ ph x = .held born := by
  rw [h.status x] at hx
  cases hp : ph x with
  | fresh b =>
    rw [hp] at hx
    cases hx
    exact .inl rfl
  | held b =>
    rw [hp] at hx
    cases hx
    exact .inr rfl
  | _ =>
    rw [hp] at hx
    cases hx

theorem Tracks.marked (hwhole : Ico off (off + size) ⊆ g.whole) (st : Status) (q : Phase → Phase)
    (hq : ∀ x ∈ Ico off (off + size),
      (q (ph x)).status s.synced = st ∧ (q (ph x)).Within s.synced) :
    (∀ x, mark s.status off size st x
        = (setPhase ph (Ico off (off + size)) q x).status s.synced)
      ∧ (∀ x ∉ g.whole, setPhase ph (Ico off (off + size)) q x = .free)
      ∧ ∀ x, (setPhase ph (Ico off (off + size)) q x).Within s.synced := by
  refine ⟨fun x => ?_, fun x hx => ?_, fun x => ?_⟩
  · by_cases hx : x ∈ Ico off (off + size)
    · rw [mark_of_mem hx, setPhase_of_mem hx, (hq x hx).1]
    · rw [mark_of_not_mem hx, setPhase_of_not_mem hx]
      exact h.status x
  · rw [setPhase_of_not_mem fun hr => hx (hwhole hr)]
    exact h.outside x hx
  · by_cases hx : x ∈ Ico off (off + size)
    · rw [setPhase_of_mem hx]
      exact (hq x hx).2
    · rw [setPhase_of_not_mem hx]
      exact h.window x

def Relisted (s : SlabRun g) (txg : ℕ) (node : Fin 4 → Bool) : Prop :=
  node (slot txg) = true ∧ ∀ i, node i = false → s.ms.msTxgNode i = false

omit h in
theorem Relisted.slot_ne {i : Fin 4} (hnode : Relisted s txg node)
    (hi : node i = false) : i ≠ slot txg := by
  rintro rfl
  exact nomatch hi.symm.trans hnode.1

variable (hact : s.Active txg) (hon : OnMap g ⟨off, off + size⟩)

include hact hon

/-- A range that was free is allocated, or the other way round. -/
theorem Tracks.relabel {a b : Phase} (ha : ∀ x ∈ Ico off (off + size), ph x = a)
    (hab : a = .free ∧ b = .fresh txg ∨ a = .fresh txg ∧ b = .free)
    {sm : CoreMap g} (hsml : sm.smLoaded = true)
    (hsm : sm.map.points = phaseSet g (setPhase ph (Ico off (off + size)) fun _ => b) Phase.isFree)
    (hmap : map.points =
      phaseSet g (setPhase ph (Ico off (off + size)) fun _ => b) (Phase.inAlloc txg))
    (hnode : ∀ i, node i = false → s.ms.msTxgNode i = false)
    (hdirty : node (slot txg) = false → map.points = ∅) :
    Tracks ⟨{ s.ms with
          msMap := sm
          msAllocmap := update s.ms.msAllocmap (slot txg) map
          msTxgNode := node },
        s.synced, mark s.status off size (b.status s.synced)⟩
      (setPhase ph (Ico off (off + size)) fun _ => b) := by
  -- no other set tells the two phases apart
  have hsame : ∀ P : Phase → Bool, P (.fresh txg) = P .free →
      phaseSet g (setPhase ph (Ico off (off + size)) fun _ => b) P = phaseSet g ph P := by
    intro P hP
    refine phaseSet_setPhase_of ha ?_
    rcases hab with ⟨rfl, rfl⟩ | ⟨rfl, rfl⟩
    · exact hP
    · exact hP.symm
  have hb : b.Within s.synced := by
    rcases hab with ⟨-, rfl⟩ | ⟨-, rfl⟩
    · exact hact
    · trivial
  obtain ⟨hstatus, houtside, hwindow⟩ :=
    h.marked hon.points_subset _ (fun _ => b) fun _ _ => ⟨rfl, hb⟩
  refine { h with
      status := hstatus
      outside := houtside
      window := hwindow
      alloc := ?_
      free := ?_
      allocClean := ?_
      freed := ?_
      disk := ?_
      loaded := fun _ => hsm
      unloaded := fun hf => absurd (hsml.symm.trans hf) (by decide)
      dirty := ?_
      listed := fun hz => h.listed (hnode _ hz)
      active := fun _ => hsml }
  · intro t ht
    dsimp only
    by_cases hne : t = txg
    · subst hne
      rw [update_self]
      exact hmap
    · rw [update_of_ne (ht.slot_ne hact hne), hsame _ (beq_false_of_ne (Ne.symm hne))]
      exact h.alloc t ht
  · intro t ht
    rw [hsame _ rfl]
    exact h.free t ht
  · show (update s.ms.msAllocmap (slot txg) map (slot s.synced)).points = ∅
    rw [update_of_ne hact.slot_ne_synced.symm]
    exact h.allocClean
  · rw [hsame _ rfl]
    exact h.freed
  · rw [hsame _ rfl]
    exact h.disk
  · intro t ht hz
    dsimp only at hz ⊢
    by_cases hne : t = txg
    · subst hne
      rw [update_self]
      exact ⟨hdirty hz, (h.dirty t ht (hnode _ hz)).2⟩
    · rw [update_of_ne (ht.slot_ne hact hne)]
      exact h.dirty t ht (hnode _ hz)

theorem Tracks.freeRange
    (hlive : ∀ x ∈ Ico off (off + size), ∃ born ≤ txg, s.status x = .live born)
    (hmap : map.points = (s.ms.msFreemap (slot txg)).points ∪ Ico off (off + size))
    (hnode : Relisted s txg node) :
    Tracks ⟨{ s.ms with
          msFreemap := update s.ms.msFreemap (slot txg) map
          msTxgNode := node },
        s.synced, mark s.status off size (.freed txg)⟩
      (setPhase ph (Ico off (off + size)) (Phase.freeAt txg)) := by
  have hphase : ∀ x ∈ Ico off (off + size),
      ∃ born ≤ txg, ph x = .fresh born ∨ ph x = .held born := by
    intro x hx
    obtain ⟨born, hle, hst⟩ := hlive x hx
    exact ⟨born, hle, h.eq_live hst⟩
  -- all sets but the freemap of `txg` stay as they are
  have hsame : ∀ P : Phase → Bool, (∀ born, P (.doomed born txg) = P (.fresh born)
      ∧ P (.dying txg) = P (.held born)) →
      phaseSet g (setPhase ph (Ico off (off + size)) (Phase.freeAt txg)) P
        = phaseSet g ph P := by
    intro P hP
    refine phaseSet_setPhase_same ?_
    intro x hx
    obtain ⟨born, -, hp | hp⟩ := hphase x hx
    · rw [hp]
      exact (hP born).1
    · rw [hp]
      exact (hP born).2
  have hwhole : Ico off (off + size) ⊆ g.whole := hon.points_subset
  obtain ⟨hstatus, houtside, hwindow⟩ :=
      h.marked hwhole (.freed txg) (Phase.freeAt txg) fun x hx => by
    have hw := h.window x
    obtain ⟨born, hle, hp | hp⟩ := hphase x hx
    · rw [hp] at hw ⊢
      exact ⟨rfl, hw.1, hle, hact.2⟩
    · rw [hp]
      exact ⟨rfl, hact⟩
  refine { h with
      status := hstatus
      outside := houtside
      window := hwindow
      alloc := ?_
      free := ?_
      freed := ?_
      disk := ?_
      loaded := ?_
      unloaded := ?_
      dirty := ?_
      listed := ?_ }
  · intro t ht
    rw [hsame _ fun born => ⟨rfl, rfl⟩]
    exact h.alloc t ht
  · intro t ht
    dsimp only
    by_cases hne : t = txg
    · subst hne
      rw [update_self, hmap, h.free t ht, phaseSet_setPhase_add hwhole]
      intro x hx
      obtain ⟨born, -, hp | hp⟩ := hphase x hx
      · rw [hp]
        exact beq_self_eq_true t
      · rw [hp]
        exact beq_self_eq_true t
    · rw [update_of_ne (ht.slot_ne hact hne), hsame]
      · exact h.free t ht
      · intro born
        exact ⟨beq_false_of_ne (Ne.symm hne), beq_false_of_ne (Ne.symm hne)⟩
  · show (update s.ms.msFreemap (slot txg) map (slot s.synced)).points = _
    rw [update_of_ne hact.slot_ne_synced.symm, hsame _ fun born => ⟨rfl, rfl⟩]
    exact h.freed
  · rw [hsame _ fun born => ⟨rfl, rfl⟩]
    exact h.disk
  · intro hl
    rw [hsame _ fun born => ⟨rfl, rfl⟩]
    exact h.loaded hl
  · intro hl
    obtain ⟨hempty, hno, hle, hlog⟩ := h.unloaded hl
    refine ⟨hempty, ?_, hle, ?_⟩
    · intro x t
      by_cases hx : x ∈ Ico off (off + size)
      · rw [setPhase_of_mem hx]
        have hf := hno x t
        obtain ⟨born, -, hp | hp⟩ := hphase x hx
        · rw [hp] at hf ⊢
          exact hf
        · rw [hp]
          rfl
      · rw [setPhase_of_not_mem hx]
        exact hno x t
    · rw [hsame _ fun born => ⟨rfl, rfl⟩]
      exact hlog
  · intro t ht hz
    dsimp only at hz ⊢
    rw [update_of_ne (hnode.slot_ne hz)]
    exact h.dirty t ht (hnode.2 _ hz)
  · intro hz
    show (update s.ms.msFreemap (slot txg) map (slot s.synced)).points = ∅
    rw [update_of_ne hact.slot_ne_synced.symm]
    exact h.listed (hnode.2 _ hz)

end

end Ranges

section

variable (h : Tracks s ph)

include h

theorem Tracks.relisted (hact : s.Active txg) {m : SpaceMap g}
    (hm : m = s.ms.msAllocmap (slot txg) ∨ m = s.ms.msFreemap (slot txg)) :
    Relisted s txg (vdevDirtyIfEmpty s.ms m (slot txg)).msTxgNode := by
  rw [vdevDirtyIfEmpty]
  dsimp only
  split_ifs with hz
  · refine ⟨update_self .., ?_⟩
    intro i hi
    by_cases hne : i = slot txg
    · subst hne
      rw [update_self] at hi
      cases hi
    · rwa [update_of_ne hne] at hi
  · refine ⟨?_, fun _ hi => hi⟩
    by_contra hf
    obtain ⟨hA, hF⟩ := h.dirty txg hact (Bool.eq_false_of_not_eq_true hf)
    rcases hm with rfl | rfl
    · exact hz (SpaceMap.space_zero_iff.mpr hA)
    · exact hz (SpaceMap.space_zero_iff.mpr hF)

theorem Tracks.passivate (hsize : size < 2 ^ 62) :
    Tracks { s with ms := metaslabPassivate s.ms size } ph :=
  h.setWeight fun hw => absurd (and_activeMask_of_lt ((min_le_right _ _).trans_lt hsize)) hw

/-- **GROUP ALLOC**: nothing panics; a range that is handed out was free, and is
    allocated in `txg` now. -/
theorem metaslabGroupAlloc_spec (hact : s.Active txg) (hpos : 0 < size)
    (hlt : size < 2 ^ 62) (hdvd : 2 ^ g.smShift ∣ size) (activation : Activation)
    (readError tree : ℕ → ℕ) :
    ∃ r ms, metaslabGroupAlloc s.ms size txg activation readError tree = .ok (r, ms)
      ∧ (r = none → Tracks { s with ms := ms } ph)
      ∧ ∀ off, r = some off → (∀ x ∈ Ico off (off + size), ph x = .free)
          ∧ Tracks ⟨ms, s.synced, mark s.status off size (.live txg)⟩
            (setPhase ph (Ico off (off + size)) fun _ => .fresh txg) := by
  by_cases hw : s.ms.msWeight < size
  · exact ⟨none, s.ms, if_pos hw, fun _ => h, fun _ hr => by cases hr⟩
  by_cases hsec : s.ms.msWeight &&& Activation.secondary.weight ≠ 0 ∧ activation = .primary
  · refine ⟨none, metaslabPassivate s.ms (s.ms.msWeight % 2 ^ 62), ?_, fun _ => ?_,
      fun _ hr => by cases hr⟩
    · rw [metaslabGroupAlloc, if_neg hw, if_pos hsec]
    · exact h.passivate (Nat.mod_lt _ (by decide))
  obtain ⟨err, ms1, hact1, h1, hloaded⟩ := metaslabActivate_spec h activation readError
  rw [metaslabGroupAlloc, if_neg hw, if_neg hsec, hact1]
  by_cases herr : err = 0
  · obtain ⟨r, sm, halloc, hsml, hnone, hsome⟩ :=
      spaceMapAlloc_spec (hloaded herr) hpos (hlt.trans (by decide)) hdvd tree
    cases r with
    | none =>
      refine ⟨none, metaslabPassivate { ms1 with msMap := sm } (size - 1), ?_, fun _ => ?_,
        fun _ hr => by cases hr⟩
      · simp only [bind, Except.bind, herr, halloc]
        rfl
      · have h2 := h1.setMap sm hsml ((hnone rfl).trans (h1.loaded (hloaded herr)))
        exact h2.passivate ((Nat.sub_le _ _).trans_lt hlt)
    | some off =>
      obtain ⟨hon, hsub, hsm⟩ := hsome off rfl
      have hwhole : Ico off (off + size) ⊆ g.whole := hon.points_subset
      have hfree : ∀ x ∈ Ico off (off + size), ph x = .free :=
        fun x hx => h1.eq_free (hloaded herr) (hsub hx)
      have hclear : Insertable (ms1.msAllocmap (slot txg)) ⟨off, off + size⟩ := by
        refine ⟨hon, ?_⟩
        rw [disjoint_right]
        intro x hx hA
        have hin := (mem_phaseSet.mp (h1.alloc txg hact ▸ hA)).2
        rw [hfree x hx] at hin
        cases hin
      obtain ⟨map, hadd, hmap⟩ := spaceMapAdd_spec hclear
      rw [Seg.len, Nat.add_sub_cancel_left] at hadd
      refine ⟨some off, { ms1 with
          msMap := sm
          msAllocmap := update ms1.msAllocmap (slot txg) map
          msTxgNode := (vdevDirtyIfEmpty ms1 (ms1.msAllocmap (slot txg)) (slot txg)).msTxgNode },
        ?_, fun hr => (by cases hr), ?_⟩
      · simp only [bind, Except.bind, herr, halloc, vdevDirtyIfEmpty, hadd]
        rfl
      intro off' heq
      cases heq
      have hnode := h1.relisted hact (.inl rfl)
      refine ⟨hfree, h1.relabel hact hon hfree (.inl ⟨rfl, rfl⟩) hsml ?_ ?_ hnode.2
        fun hz => absurd (hz.symm.trans hnode.1) (by decide)⟩
      · rw [phaseSet_setPhase_remove fun _ _ => rfl, ← h1.loaded (hloaded herr)]
        exact hsm
      · rw [phaseSet_setPhase_add hwhole fun _ _ => beq_self_eq_true txg, ← h1.alloc txg hact]
        exact hmap
  · refine ⟨none, ms1, ?_, fun _ => h1, fun _ hr => by cases hr⟩
    simp only [bind, Except.bind, ne_eq, herr]
    rfl

omit h in
theorem disjoint_phaseSet {P : Phase → Bool} {r : Finset ℕ} (h : ∀ x ∈ r, P (ph x) = false) :
    Disjoint (phaseSet g ph P) r := by
  rw [disjoint_right]
  intro x hx hP
  have hP := (mem_phaseSet.mp hP).2
  rw [h x hx] at hP
  cases hP

variable (hact : s.Active txg) {off : ℕ} (hon : OnMap g ⟨off, off + size⟩)
  (hlive : ∀ x ∈ Ico off (off + size), ∃ born ≤ txg, s.status x = .live born)

include hact hon hlive

/-- **DEFERRED FREE**: an allocated range goes to the freemap; the check that it
    is allocated passes. -/
theorem metaslabFreeDva_spec :
    ∃ ms, metaslabFreeDva s.ms off size txg false = .ok ms
      ∧ Tracks ⟨ms, s.synced, mark s.status off size (.freed txg)⟩
        (setPhase ph (Ico off (off + size)) (Phase.freeAt txg)) := by
  have hphase : ∀ P : Phase → Bool, (∀ born, P (.fresh born) = false ∧ P (.held born) = false) →
      ∀ x ∈ Ico off (off + size), P (ph x) = false := by
    intro P hP x hx
    obtain ⟨born, -, hst⟩ := hlive x hx
    rcases h.eq_live hst with hp | hp
    · rw [hp]
      exact (hP born).1
    · rw [hp]
      exact (hP born).2
  have hins : Insertable (s.ms.msFreemap (slot txg)) ⟨off, off + size⟩ := by
    refine ⟨hon, ?_⟩
    rw [h.free txg hact]
    exact disjoint_phaseSet (hphase _ fun born => ⟨rfl, rfl⟩)
  obtain ⟨map, hadd, hmap⟩ := spaceMapAdd_spec hins
  have hdisj : s.ms.msMap.smLoaded = true →
      Disjoint s.ms.msMap.map.points (Seg.points ⟨off, off + size⟩) := by
    intro hl
    rw [h.loaded hl]
    exact disjoint_phaseSet (hphase _ fun born => ⟨rfl, rfl⟩)
  have hcheck := freeSanityCheck_spec
    (vdevDirtyIfEmpty s.ms (s.ms.msFreemap (slot txg)) (slot txg)) hon hdisj txg
  rw [Seg.len, Nat.add_sub_cancel_left] at hadd hcheck
  refine ⟨_, ?_, h.freeRange hact hon hlive hmap (h.relisted hact (.inr rfl))⟩
  rw [metaslabFreeDva]
  dsimp only
  rw [show spaceMapAdd ((vdevDirtyIfEmpty s.ms _ _).msFreemap (slot txg)) off size =
    .ok map from hadd]
  simp only [hcheck]
  rfl

/-- **IMMEDIATE FREE**: a range still in the allocmap of its txg goes back to the
    map, which is loaded since something was allocated from it. -/
theorem metaslabFreeDva_now_spec
    (hstaged : Ico off (off + size) ⊆ (s.ms.msAllocmap (slot txg)).points) :
    ∃ ms, metaslabFreeDva s.ms off size txg true = .ok ms
      ∧ Tracks ⟨ms, s.synced, mark s.status off size .free⟩
        (setPhase ph (Ico off (off + size)) fun _ => .free) := by
  have hfresh : ∀ x ∈ Ico off (off + size), ph x = .fresh txg := by
    intro x hx
    obtain ⟨born, -, hst⟩ := hlive x hx
    have hA := hstaged hx
    rw [h.alloc txg hact] at hA
    have hin := (mem_phaseSet.mp hA).2
    rcases h.eq_live hst with hp | hp
    · rw [hp] at hin ⊢
      rw [beq_iff_eq.mp hin]
    · rw [hp] at hin
      cases hin
  have hl : s.ms.msMap.smLoaded = true := by
    by_contra hf
    obtain ⟨-, hno, -, -⟩ := h.unloaded (Bool.eq_false_of_not_eq_true hf)
    have hin := hno off txg
    rw [hfresh off (left_mem_Ico.mpr hon.lt)] at hin
    exact absurd (beq_self_eq_true txg) (by rw [show (txg == txg) = false from hin]; decide)
  obtain ⟨map, hrem, hmap⟩ := spaceMapRemove_spec hon hstaged
  have hins : Insertable s.ms.msMap.map ⟨off, off + size⟩ := by
    refine ⟨hon, ?_⟩
    rw [h.loaded hl]
    refine disjoint_phaseSet ?_
    intro x hx
    rw [hfresh x hx]
    rfl
  obtain ⟨sm, hfree, hsml, hsm⟩ := spaceMapFree_spec hl hins
  rw [Seg.len, Nat.add_sub_cancel_left] at hrem hfree
  have hwhole : Ico off (off + size) ⊆ g.whole := hon.points_subset
  refine ⟨{ s.ms with msMap := sm, msAllocmap := update s.ms.msAllocmap (slot txg) map }, ?_,
    h.relabel hact hon hfresh (.inr ⟨rfl, rfl⟩) hsml ?_ ?_ (fun _ => id) fun hz => ?_⟩
  · rw [metaslabFreeDva]
    simp only [hrem, hfree]
    rfl
  · rw [phaseSet_setPhase_add hwhole fun _ _ => rfl, ← h.loaded hl]
    exact hsm
  · rw [phaseSet_setPhase_remove fun _ _ => rfl, ← h.alloc txg hact]
    exact hmap
  · rw [hmap, (h.dirty txg hact hz).1]
    exact empty_sdiff _

end

end Steps

end Sirius.Alloc
