import Sirius.Zfs.ZilLwb

/-! # The chain is kept

    The invariant of the pool and its log: the chain from the header on disk is linked, what has
    been written is there, and a chain that was terminated is dropped with its txg. -/

namespace Sirius.Zil

open List Option

namespace Commit

/-! ## The invariant of the pool -/

/-- An allocation failed in the txg `t` and the block that was terminated is still in the chain. -/
structure Pool.Cut (p : Pool) (t : Nat) : Prop where
  unsynced : p.syncedTxg < t
  opened : t ≤ p.openTxg
  dirtied : t ∈ p.dirty
  newest : ∀ m ∈ p.lwbs, m.maxTxg ≤ t ∧ ∀ u, m.held = some u → u ≤ t
  dropped : p.zilSynced → p.syncedTxg + 1 = t → p.lwbs = []

/-- `zil_create` has made the first block and the txgs up to `t` do not know it. -/
structure Pool.Created (p : Pool) (l : Lwb) (t : Nat) : Prop where
  alone : p.chain = [l]
  unused : l.write = .filling false
  later : t < l.maxTxg
  dirtied : l.maxTxg ∈ p.dirty

structure Pool.Inv (p : Pool) : Prop where
  window : p.syncedTxg < p.openTxg ∧ (p.syncing → p.syncedTxg + 1 < p.openTxg)
  synced : p.zilSynced → p.syncing
  linked : p.chain.IsChain Linked
  nodup : (p.chain.map fun l => l.blk.dva).Nodup
  wf : ∀ l ∈ p.chain, l.WF
  media : ∀ l ∈ p.chain, l.written → p.media l.blk.dva = some l.block
  newest : ∀ l ∈ p.lwbs, l.maxTxg ≤ p.openTxg
  held : ∀ l ∈ p.lwbs, ∀ t, l.held = some t → p.Assignable t
  retired : ∀ l ∈ p.retired, l.hasBuf = false ∧ l.maxTxg ≤ p.syncedTxg + 1
  pending : p.retired ≠ [] → p.zilSynced
  cut : ∀ l ∈ p.chain, ∀ t, l.cut = some t → p.Cut t
  disk : ∀ l ∈ p.chain.head?, p.diskLog = l.blk ∨ p.Created l p.syncedTxg
  memory : p.zilSynced → ∀ l ∈ p.lwbs.head?, p.log = l.blk ∨ p.Created l (p.syncedTxg + 1)
  same : p.zilSynced = false ∨ p.chain = [] → p.log = p.diskLog

/-- The last block of the chain is the one that is being filled. -/
def Pool.OpenAt (p : Pool) (dva : Nat) (zio : Bool) : Prop :=
  ∃ c l, p.lwbs = c ++ [l] ∧ l.blk.dva = dva ∧ l.write = .filling zio

/-- No block can be filled: there is none or the last one was terminated. -/
def Pool.Shut (p : Pool) : Prop := p.chain = [] ∨ ∃ l ∈ p.chain, l.cut.isSome

variable {zio : Bool} {f : Lwb → Lwb}

section Inv

variable {p : Pool} {l : Lwb} {t : Nat}

theorem Lwb.trailer_of_cut (h : l.cut = some t) : l.trailer = some (none, t) := by
  rw [Lwb.cut] at h
  split at h
  · next u hu =>
      obtain rfl := some.inj h
      exact hu
  · cases h

theorem eq_nil_of_not_linked {a b : List Lwb} (h : (a ++ l :: b).IsChain Linked)
    (hl : ∀ bp t, l.trailer ≠ some (some bp, t)) : b = [] := by
  cases b with
  | nil => rfl
  | cons m b =>
    obtain ⟨-, h, -⟩ := isChain_append.mp h
    obtain ⟨⟨t, ht⟩, -⟩ := isChain_cons_cons.mp h
    exact absurd ht (hl m.blk t)

variable {dva : Nat}

theorem Pool.Inv.last (h : p.Inv) (hl : l ∈ p.chain) (hno : ∀ bp t, l.trailer ≠ some (some bp, t)) :
    p.chain.getLast? = some l := by
  obtain ⟨a, b, hab⟩ := append_of_mem hl
  have hb : b = [] := eq_nil_of_not_linked (hab ▸ h.linked) hno
  rw [hab, hb, getLast?_append]
  rfl

theorem Lwb.trailer_ne_of_cut (h : l.cut = some t) (bp : Blkptr) (u : Nat) :
    l.trailer ≠ some (some bp, u) := by
  rw [Lwb.trailer_of_cut h]
  nofun

theorem Pool.Inv.no_cut (h : p.Inv) (hl : l ∈ p.chain) (hw : l.write = .filling zio) :
    ∀ m ∈ p.chain, m.cut = none := by
  intro m hm
  cases hcut : m.cut with
  | none => rfl
  | some t =>
    have htr : l.trailer = none := by rw [Lwb.trailer, hw]
    -- both are the last block
    have hlast := h.last hl fun bp u hu => nomatch htr.symm.trans hu
    obtain rfl := some.inj (hlast.symm.trans (h.last hm (Lwb.trailer_ne_of_cut hcut)))
    cases htr.symm.trans (Lwb.trailer_of_cut hcut)

theorem Pool.find_of_mem (h : p.Inv) (hl : l ∈ p.lwbs) : p.find l.blk.dva = some l := by
  obtain ⟨a, b, hab⟩ := append_of_mem hl
  have hnd : ((a ++ l :: b).map fun l => l.blk.dva).Nodup := by
    have := h.nodup
    rw [Pool.chain, map_append] at this
    exact hab ▸ (nodup_append.mp this).2.1
  rw [Pool.find, hab, find?_append, find?_cons_of_pos (by simp), or_eq_some_iff]
  refine .inr ⟨find?_eq_none.mpr fun m hm hc => ?_, rfl⟩
  rw [map_append] at hnd
  exact (nodup_append.mp hnd).2.2 _ (mem_map.mpr ⟨m, hm, rfl⟩) _ (mem_cons_self ..)
    (by simpa using hc)

theorem Pool.OpenAt.mem (h : p.OpenAt dva zio) :
    ∃ l ∈ p.lwbs, l.blk.dva = dva ∧ l.write = .filling zio := by
  obtain ⟨c, l, hc, hd, hw⟩ := h
  exact ⟨l, by simp [hc], hd, hw⟩

structure Evolves (p : Pool) (l l' : Lwb) : Prop where
  blk : l'.blk = l.blk
  linked : ∀ b t, l.trailer = some (some b, t) → l'.trailer = some (some b, t)
  wf : l'.WF
  media : l'.written → p.media l.blk.dva = some l'.block
  newest : l'.maxTxg ≤ p.openTxg
  held : ∀ t, l'.held = some t → p.Assignable t
  records : l.records ⊆ l'.records
  stable : l.stable → l'.stable ∧ l'.records = l.records

/-- The header on disk, and the one that is about to get there, lead to the chain. -/
structure Pool.Anchored (p : Pool) : Prop where
  disk : ∀ l ∈ p.chain.head?, p.diskLog = l.blk
  memory : p.zilSynced → ∀ l ∈ p.lwbs.head?, p.log = l.blk

theorem Pool.Inv.anchored (h : p.Inv) (hl : l ∈ p.chain)
    (hw : l.write ≠ .filling false) : p.Anchored := by
  have hno : ∀ m t, ¬ p.Created m t := by
    intro m t hc
    rw [hc.alone, mem_singleton] at hl
    exact hw (hl ▸ hc.unused)
  exact ⟨fun m hm => (h.disk m hm).resolve_right (hno m _),
    fun hz m hm => (h.memory hz m hm).resolve_right (hno m _)⟩

variable {c' c : List Lwb} {R : Lwb → Lwb → Prop}

theorem isChain_of_forall₂ (hf : Forall₂ (fun l l' : Lwb => l'.blk = l.blk ∧
      ∀ b t, l.trailer = some (some b, t) → l'.trailer = some (some b, t)) c c') :
    c.IsChain Linked → c'.IsChain Linked := by
  induction hf with
  | nil => exact fun h => h
  | @cons a a' c c' ha hf ih =>
    intro h
    cases hf with
    | nil => exact isChain_singleton _
    | @cons b b' c c' hb hf =>
      obtain ⟨⟨t, ht⟩, hc⟩ := isChain_cons_cons.mp h
      refine isChain_cons_cons.mpr ⟨⟨t, ?_⟩, ih hc⟩
      rw [hb.1]
      exact ha.2 _ _ ht

theorem forall₂_mem (h : Forall₂ R c c') : ∀ l' ∈ c', ∃ l ∈ c, R l l' := by
  induction h with
  | nil => exact nofun
  | cons ha _ ih =>
    intro l' hl'
    rcases mem_cons.mp hl' with rfl | hl'
    · exact ⟨_, mem_cons_self .., ha⟩
    · obtain ⟨l, hl, hr⟩ := ih l' hl'
      exact ⟨l, mem_cons_of_mem _ hl, hr⟩

theorem forall₂_head (h : Forall₂ R c c') : ∀ l' ∈ c'.head?, ∃ l ∈ c.head?, R l l' := by
  cases h with
  | nil => exact nofun
  | cons ha _ =>
    rintro l' hl'
    obtain rfl := some.inj hl'
    exact ⟨_, rfl, ha⟩

/-- **BUFFERS EVOLVE**: the invariant is kept if each buffer changes as `Evolves` says. -/
theorem Pool.Inv.evolve (h : p.Inv) {ls : List Lwb} (hf : Forall₂ (Evolves p) p.lwbs ls)
    (ha : p.Anchored)
    (hcut : ∀ l ∈ p.retired ++ ls, ∀ t, l.cut = some t → Pool.Cut { p with lwbs := ls } t) :
    Pool.Inv { p with lwbs := ls } ∧ Pool.Anchored { p with lwbs := ls } := by
  have hchain : Forall₂ (fun l l' : Lwb => l'.blk = l.blk ∧
      ∀ b t, l.trailer = some (some b, t) → l'.trailer = some (some b, t)) p.chain
        (p.retired ++ ls) :=
    rel_append (forall₂_same.mpr fun _ _ => ⟨rfl, fun _ _ ht => ht⟩)
      (hf.imp fun _ _ he => ⟨he.blk, he.linked⟩)
  have hdisk : ∀ l' ∈ (p.retired ++ ls).head?, p.diskLog = l'.blk := by
    intro l' hl'
    obtain ⟨l, hl, hb, -⟩ := forall₂_head hchain l' hl'
    rw [hb]
    exact ha.disk l hl
  have hmem : p.zilSynced → ∀ l' ∈ ls.head?, p.log = l'.blk := by
    intro hz l' hl'
    obtain ⟨l, hl, he⟩ := forall₂_head hf l' hl'
    rw [he.blk]
    exact ha.memory hz l hl
  have hold : ∀ {P : Lwb → Prop}, (∀ l ∈ p.chain, P l) → (∀ l l', Evolves p l l' → P l') →
      ∀ l ∈ p.retired ++ ls, P l := by
    intro P hp he l hl
    rcases mem_append.mp hl with hl | hl
    · exact hp l (mem_append_left _ hl)
    · obtain ⟨m, -, hm⟩ := forall₂_mem hf l hl
      exact he m l hm
  refine ⟨?_, hdisk, hmem⟩
  constructor
  · exact h.window
  · exact h.synced
  · exact isChain_of_forall₂ hchain h.linked
  · have hmap : ((p.retired ++ ls).map fun l => l.blk.dva) = p.chain.map fun l => l.blk.dva := by
      refine (forall₂_eq_eq_eq ▸ (forall₂_map_left_iff.mpr
        (forall₂_map_right_iff.mpr (hchain.imp fun _ _ hb => ?_)))).symm
      rw [hb.1]
    exact hmap ▸ h.nodup
  · exact hold h.wf fun _ _ he => he.wf
  · exact hold h.media fun _ _ he hw => he.blk ▸ he.media hw
  · intro l hl
    obtain ⟨m, -, hm⟩ := forall₂_mem hf l hl
    exact hm.newest
  · intro l hl
    obtain ⟨m, -, hm⟩ := forall₂_mem hf l hl
    exact hm.held
  · exact h.retired
  · exact h.pending
  · exact hcut
  · exact fun l hl => .inl (hdisk l hl)
  · exact fun hz l hl => .inl (hmem hz l hl)
  · rintro (hz | hnil)
    · exact h.same (.inl hz)
    · refine h.same (.inr (eq_nil_of_length_eq_zero ?_))
      rw [hchain.length_eq]
      exact length_eq_zero_iff.mpr hnil

theorem Evolves.refl (h : p.Inv) (hl : l ∈ p.lwbs) : Evolves p l l where
  blk := rfl
  linked _ _ ht := ht
  wf := h.wf l (mem_append_right _ hl)
  media := h.media l (mem_append_right _ hl)
  newest := h.newest l hl
  held := h.held l hl
  records := Subset.refl _
  stable hs := ⟨hs, rfl⟩

theorem Pool.forall₂_modify (h : p.Inv)
    (hf : ∀ l ∈ p.lwbs, l.blk.dva = dva → Evolves p l (f l)) :
    Forall₂ (Evolves p) p.lwbs (p.modify dva f).lwbs := by
  refine forall₂_map_right_iff.mpr (forall₂_same.mpr fun l hl => ?_)
  split
  · next hd => exact hf l hl hd
  · exact Evolves.refl h hl

theorem Pool.find_mem (h : p.find dva = some l) : l ∈ p.lwbs ∧ l.blk.dva = dva :=
  ⟨mem_of_find?_eq_some h, by simpa using find?_some h⟩

theorem Pool.Inv.eq_of_dva (h : p.Inv) {m : Lwb} (hl : l ∈ p.lwbs) (hm : m ∈ p.lwbs)
    (heq : l.blk.dva = m.blk.dva) : l = m := by
  have h1 := Pool.find_of_mem h hl
  have h2 := Pool.find_of_mem h hm
  rw [heq, h2] at h1
  exact (some.inj h1).symm

variable {r : Record} {d : List Lwb}

theorem recordsOf_mono (h : Forall₂ (fun l l' : Lwb => l.records ⊆ l'.records) c c')
    (hr : r ∈ recordsOf c) : r ∈ recordsOf c' := by
  induction h with
  | nil => exact hr
  | cons ha _ ih =>
    rcases mem_append.mp hr with hr | hr
    · exact mem_append_left _ (ha hr)
    · exact mem_append_right _ (ih hr)

theorem durable_mono
    (h : Forall₂ (fun l l' : Lwb => l.stable → l'.stable ∧ l'.records = l.records) c c')
    (hr : r ∈ durable c) : r ∈ durable c' := by
  induction h with
  | nil => exact hr
  | cons ha _ ih =>
    obtain ⟨hs, hr⟩ := mem_durable_cons.mp hr
    obtain ⟨hs', heq⟩ := ha hs
    exact mem_durable_cons.mpr ⟨hs', hr.imp (heq ▸ ·) ih⟩

theorem durable_append (hr : r ∈ durable c) : r ∈ durable (c ++ d) := by
  induction c with
  | nil => cases hr
  | cons l c ih =>
    obtain ⟨hs, hr⟩ := mem_durable_cons.mp hr
    exact mem_durable_cons.mpr ⟨hs, hr.imp_right ih⟩

theorem mem_of_durable_append (hr : r ∈ durable (c ++ d)) : r ∈ recordsOf c ∨ r ∈ durable d := by
  induction c with
  | nil => exact .inr hr
  | cons l c ih =>
    rcases (mem_durable_cons.mp hr).2 with hr | hr
    · exact .inl (mem_append_left _ hr)
    · exact (ih hr).imp_left (mem_append_right _)

end Inv

/-! ## What happens beside the writer -/

structure Pool.Interferes (p p' : Pool) : Prop where
  synced : p.syncedTxg ≤ p'.syncedTxg
  opened : p.openTxg ≤ p'.openTxg
  durable : ∀ r ∈ durable p.chain, r.txg ≤ p'.syncedTxg ∨ r ∈ Commit.durable p'.chain
  records : ∀ r ∈ recordsOf p.chain, r.txg ≤ p'.syncedTxg ∨ r ∈ recordsOf p'.chain
  tail : ∀ c l zio, p.lwbs = c ++ [l] → l.write = .filling zio → ∃ c', p'.lwbs = c' ++ [l]
  shut : p.Shut → p'.Shut
  cuts : ∀ l' ∈ p'.chain, ∀ t, l'.cut = some t → ∃ l ∈ p.chain, l.cut = some t
  anchored : p.Anchored → p'.Anchored
  empty : p.chain = [] → p'.chain = []
  alone : ∀ l, p.chain = [l] → l.write = .filling false → p'.chain = [l]

section Steps

variable {p p' : Pool} {dva : Nat}

theorem Pool.Interferes.openAt (h : p.Interferes p')
    (ho : p.OpenAt dva zio) : p'.OpenAt dva zio := by
  obtain ⟨c, l, hc, hd, hw⟩ := ho
  obtain ⟨c', hc'⟩ := h.tail c l zio hc hw
  exact ⟨c', l, hc', hd, hw⟩

theorem Pool.Interferes.refl (p : Pool) : p.Interferes p :=
  ⟨le_rfl, le_rfl, fun _ => .inr, fun _ => .inr, fun c _ _ hc _ => ⟨c, hc⟩, id,
    fun l hl _ ht => ⟨l, hl, ht⟩, id, id, fun _ hc _ => hc⟩

theorem Pool.Inv.beside (h : p.Inv) {openTxg : Nat} {syncing : Bool} {dirty : List Nat}
    {media : Nat → Option LogBlock} (hopen : p.openTxg ≤ openTxg) (hdirty : p.dirty ⊆ dirty)
    (hwin : p.syncedTxg < openTxg ∧ (syncing → p.syncedTxg + 1 < openTxg))
    (hsync : p.zilSynced → syncing)
    (hmedia : ∀ l ∈ p.chain, l.written → media l.blk.dva = some l.block)
    (hheld : ∀ l ∈ p.lwbs, ∀ t, l.held = some t →
      p.syncedTxg < t ∧ (syncing → p.syncedTxg + 1 < t) ∧ t ≤ openTxg) :
    let p' := { p with openTxg := openTxg, syncing := syncing, dirty := dirty, media := media }
    p'.Inv ∧ p.Interferes p' := by
  intro p'
  have hcre : ∀ {l t}, p.Created l t → p'.Created l t :=
    fun hc => ⟨hc.alone, hc.unused, hc.later, hdirty hc.dirtied⟩
  refine ⟨{ h with
    window := hwin, synced := hsync, media := hmedia, held := hheld, cut := fun l hl t ht => ?_
    newest := fun l hl => (h.newest l hl).trans hopen
    disk := fun l hl => (h.disk l hl).imp_right hcre
    memory := fun hz l hl => (h.memory hz l hl).imp_right hcre }, ?_⟩
  · have hc := h.cut l hl t ht
    exact { hc with opened := hc.opened.trans hopen, dirtied := hdirty hc.dirtied }
  · exact { Pool.Interferes.refl p with
      opened := hopen, anchored := fun ha => ⟨ha.disk, ha.memory⟩ }

theorem Pool.Inv.setDirty (h : p.Inv) (txg : Nat) :
    (p.setDirty txg).Inv ∧ p.Interferes (p.setDirty txg) :=
  h.beside le_rfl (subset_cons_self ..) h.window h.synced h.media h.held

theorem Pool.Inv.openNext (h : p.Inv) (hs : p.openNext = some p') : p'.Inv ∧ p.Interferes p' := by
  obtain ⟨-, ⟨⟩⟩ := ite_none_right_eq_some.mp hs
  refine h.beside (Nat.le_succ _) (Subset.refl _) ?_ h.synced h.media fun l hl t ht => ?_
  · exact ⟨Nat.lt_succ_of_lt h.window.1, fun hy => Nat.lt_succ_of_lt (h.window.2 hy)⟩
  · have ha := h.held l hl t ht
    exact ⟨ha.1, ha.2.1, Nat.le_succ_of_le ha.2.2⟩

theorem Pool.Inv.beginSync (h : p.Inv) (hs : p.beginSync = some p') : p'.Inv ∧ p.Interferes p' := by
  obtain ⟨⟨-, hopen, hheld⟩, ⟨⟩⟩ := ite_none_right_eq_some.mp hs
  refine h.beside le_rfl (Subset.refl _) ⟨h.window.1, fun _ => hopen⟩ (fun _ => rfl) h.media
    fun l hl t ht => ?_
  have ha := h.held l hl t ht
  refine ⟨ha.1, fun _ => lt_of_le_of_ne ha.1 ?_, ha.2.2⟩
  rintro rfl
  exact hheld l hl ht

theorem zilSyncLoop_spec (txg : Nat) : ∀ (ls : List Lwb) (log : Blkptr),
    let r := Pool.zilSyncLoop txg log ls
    r.2.1 ++ r.2.2 = ls ∧ (∀ l ∈ r.2.1, l.hasBuf = false ∧ l.maxTxg ≤ txg) ∧
      (∀ l ∈ r.2.2.head?, r.1 = l.blk ∧ (l.hasBuf ∨ l.maxTxg > txg)) ∧ (ls = [] → r.1 = log) := by
  intro ls
  induction ls with
  | nil =>
    intro log
    exact ⟨rfl, nofun, nofun, fun _ => rfl⟩
  | cons l ls ih =>
    intro log
    simp only [Pool.zilSyncLoop]
    split
    · next hstay =>
        refine ⟨rfl, nofun, ?_, nofun⟩
        intro m hm
        obtain rfl := some.inj hm
        exact ⟨rfl, hstay⟩
    · next hgo =>
        obtain ⟨h1, h2, h3, -⟩ := ih (if ls = [] then hole else l.blk)
        refine ⟨by rw [cons_append, h1], ?_, h3, nofun⟩
        intro m hm
        rcases mem_cons.mp hm with rfl | hm
        · simpa using hgo
        · exact h2 m hm

variable {l : Lwb}

section

variable (h : p.Inv)

include h

theorem Pool.Inv.lwbs_of_cut (hl : l ∈ p.chain) (hcut : l.cut.isSome) :
    p.lwbs = [] ∨ ∃ c, p.lwbs = c ++ [l] := by
  obtain ⟨t, ht⟩ := isSome_iff_exists.mp hcut
  have hlast := h.last hl (Lwb.trailer_ne_of_cut ht)
  rcases eq_nil_or_concat p.lwbs with hn | ⟨c, m, hc⟩
  · exact .inl hn
  · rw [concat_eq_append] at hc
    rw [Pool.chain, hc, ← append_assoc, getLast?_append] at hlast
    obtain rfl := some.inj hlast
    exact .inr ⟨c, hc⟩

/-- **`zil_sync`** moves the header over blocks that are done, over all of them if an allocation
    failed in the txg. -/
theorem Pool.Inv.zilSync (hs : p.zilSync = some p')
    (hrest : (∃ l ∈ p.lwbs, l.trailer = some (none, p.syncedTxg + 1)) →
      ∀ l ∈ p.lwbs, ¬ l.releasing) :
    p'.Inv ∧ p.Interferes p' ∧ p'.chain = p.chain := by
  obtain ⟨⟨hsync, -⟩, hs⟩ := ite_none_right_eq_some.mp hs
  obtain ⟨hsplit, hdrop, hhead, hnil⟩ := zilSyncLoop_spec (p.syncedTxg + 1) p.lwbs p.log
  generalize Pool.zilSyncLoop (p.syncedTxg + 1) p.log p.lwbs = r at hs hsplit hdrop hhead hnil
  obtain ⟨log, dropped, rest⟩ := r
  obtain rfl := some.inj hs
  have hchain : Pool.chain
      { p with log := log, retired := p.retired ++ dropped, lwbs := rest, zilSynced := true }
        = p.chain := by
    rw [Pool.chain, append_assoc, hsplit, Pool.chain]
  have hsub : ∀ l ∈ rest, l ∈ p.lwbs := fun l hl => hsplit ▸ mem_append_right _ hl
  have hallgone : p.Cut (p.syncedTxg + 1) → (∃ l ∈ p.chain, l.cut = some (p.syncedTxg + 1)) →
      rest = [] := by
    rintro hc ⟨l, hl, hcut⟩
    rcases h.lwbs_of_cut hl (by rw [hcut]; rfl) with hn | ⟨c, hlast⟩
    · rw [hn] at hsplit
      exact (append_eq_nil_iff.mp hsplit).2
    have hll : l ∈ p.lwbs := hlast ▸ mem_append_right _ (mem_singleton.mpr rfl)
    have hno := hrest ⟨l, hll, Lwb.trailer_of_cut hcut⟩
    cases hr : rest with
    | nil => rfl
    | cons m rest' =>
      have hm : m ∈ p.lwbs := hsub m (by rw [hr]; exact mem_cons_self ..)
      have hnew := hc.newest m hm
      obtain ⟨-, hbuf | hlate⟩ := hhead m (by rw [hr]; rfl)
      · cases hw : m.write with
        | filling zio =>
          -- the chain was terminated, so nothing is being filled
          cases hcut.symm.trans (h.no_cut (mem_append_right _ hm) hw l hl)
        | issued next t =>
          have hheld : m.held = some t := by rw [Lwb.held, hw]
          have h1 := (h.held m hm t hheld).2.1 hsync
          have h2 := hnew.2 t hheld
          omega
        | released next t ok => exact absurd (by rw [Lwb.releasing, hw]) (hno m hm)
        | done next t ok =>
          rw [Lwb.hasBuf, hw] at hbuf
          cases hbuf
      · exact absurd hlate (not_lt.mpr hnew.1)
  have hcre : ∀ {l t}, p.Created l t → Pool.Created
      { p with log := log, retired := p.retired ++ dropped, lwbs := rest, zilSynced := true } l t :=
    fun hc => ⟨hchain.trans hc.alone, hc.unused, hc.later, hc.dirtied⟩
  refine ⟨?_, ?_, hchain⟩
  · constructor
    · exact h.window
    · exact fun _ => hsync
    · exact hchain ▸ h.linked
    · exact hchain ▸ h.nodup
    · exact hchain ▸ h.wf
    · exact hchain ▸ h.media
    · exact fun l hl => h.newest l (hsub l hl)
    · exact fun l hl => h.held l (hsub l hl)
    · exact forall_mem_append.mpr ⟨h.retired, hdrop⟩
    · exact fun _ => rfl
    · intro l hl t ht
      have hl : l ∈ p.chain := hchain ▸ hl
      have hc := h.cut l hl t ht
      refine { hc with newest := fun m hm => hc.newest m (hsub m hm), dropped := fun _ heq => ?_ }
      subst heq
      exact hallgone hc ⟨l, hl, ht⟩
    · intro l hl
      have hl : l ∈ p.chain.head? := hchain ▸ hl
      exact (h.disk l hl).imp_right hcre
    · exact fun _ l hl => .inl (hhead l hl).1
    · rintro (hz | hn)
      · cases hz
      · have hn : p.chain = [] := hchain.symm.trans hn
        have hl : p.lwbs = [] := (append_eq_nil_iff.mp hn).2
        exact (hnil hl).trans (h.same (.inr hn))
  · refine ⟨le_rfl, le_rfl, fun r hr => .inr (by rw [hchain]; exact hr),
      fun r hr => .inr (by rw [hchain]; exact hr), ?_, ?_, fun l hl t ht => ⟨l, hchain ▸ hl, ht⟩,
      ?_, fun hn => hchain.trans hn, fun l hn _ => hchain.trans hn⟩
    · intro c l zio hc hw
      rcases eq_nil_or_concat rest with hn | ⟨c', m, hc'⟩
      · -- the block that is being filled has a buffer
        rw [hn, append_nil] at hsplit
        have := (hdrop l (by rw [hsplit, hc]; simp)).1
        rw [Lwb.hasBuf, hw] at this
        cases this
      · rw [concat_eq_append] at hc'
        refine ⟨c', hc'.trans ?_⟩
        have hend : (dropped ++ c') ++ [m] = c ++ [l] := by rw [append_assoc, ← hc', hsplit, hc]
        obtain ⟨-, heq⟩ := append_inj' hend rfl
        rw [heq]
    · intro hsh
      rw [Pool.Shut, hchain]
      exact hsh
    · intro ha
      exact ⟨fun l hl => ha.disk l (hchain ▸ hl), fun _ l hl => (hhead l hl).1⟩

/-- **THE UBERBLOCK** takes the place of blocks whose records are all synced. -/
theorem Pool.Inv.commitTxg (hs : p.commitTxg = some p') :
    p'.Inv ∧ p.Interferes p' ∧ ∀ l ∈ p'.chain, l ∈ p.chain := by
  obtain ⟨⟨hsync, hzil⟩, ⟨⟩⟩ := ite_none_right_eq_some.mp hs
  have hsub : ∀ l ∈ p.lwbs, l ∈ p.chain := fun l hl => mem_append_right _ hl
  have hnotz : p.zilSynced = false → p.retired = [] := by
    intro hz
    by_contra hne
    cases hz.symm.trans (h.pending hne)
  have hold : ∀ r ∈ recordsOf p.retired, r.txg ≤ p.syncedTxg + 1 := by
    intro r hr
    obtain ⟨l, hl, hr⟩ := mem_flatMap.mp hr
    exact le_trans ((h.wf l (mem_append_left _ hl)).covers r hr) (h.retired l hl).2
  have hhead : ∀ l ∈ p.lwbs.head?, p.zilSynced = false → l ∈ p.chain.head? := by
    intro l hl hz
    rw [Pool.chain, hnotz hz]
    exact hl
  refine ⟨?_, ?_, fun l hl => hsub l hl⟩
  · constructor
    · exact ⟨h.window.2 hsync, nofun⟩
    · exact nofun
    · exact (isChain_append.mp h.linked).2.1
    · have := h.nodup
      rw [Pool.chain, map_append] at this
      exact (nodup_append.mp this).2.1
    · exact fun l hl => h.wf l (hsub l hl)
    · exact fun l hl => h.media l (hsub l hl)
    · exact h.newest
    · exact fun l hl t ht =>
        have ha := h.held l hl t ht
        ⟨ha.2.1 hsync, fun hc => absurd hc Bool.false_ne_true, ha.2.2⟩
    · exact nofun
    · exact fun hc => absurd rfl hc
    · intro l hl t ht
      have hc := h.cut l (hsub l hl) t ht
      refine { hc with unsynced := lt_of_le_of_ne hc.unsynced ?_, dropped := nofun }
      rintro rfl
      -- `zil_sync` has dropped the terminated block
      rw [hc.dropped (hzil hc.dirtied) rfl] at hl
      cases hl
    · intro l hl
      cases hz : p.zilSynced with
      | true =>
        rcases h.memory hz l hl with heq | hc
        · exact .inl heq
        refine .inr ⟨?_, hc.unused, hc.later, hc.dirtied⟩
        rcases append_eq_singleton_iff.mp hc.alone with ⟨-, hlw⟩ | ⟨-, hlw⟩
        · exact hlw
        · rw [hlw] at hl
          cases hl
      | false =>
        rcases h.disk l (hhead l hl hz) with heq | hc
        · exact .inl heq
        refine .inr ⟨?_, hc.unused, lt_of_le_of_ne hc.later ?_, hc.dirtied⟩
        · have := hc.alone
          rw [Pool.chain, hnotz hz] at this
          exact this
        · intro heq
          have heq : p.syncedTxg + 1 = l.maxTxg := heq
          cases hz.symm.trans (hzil (heq ▸ hc.dirtied))
    · exact nofun
    · intro _
      cases hz : p.zilSynced with
      | true => rfl
      | false => exact h.same (.inl hz)
  · refine ⟨Nat.le_succ _, le_rfl, ?_, ?_, fun c l _ hc _ => ⟨c, hc⟩, ?_,
      fun l hl t ht => ⟨l, hsub l hl, ht⟩, ?_, ?_, ?_⟩
    · intro r hr
      exact (mem_of_durable_append hr).imp_left (hold r)
    · intro r hr
      rw [Pool.chain, recordsOf, flatMap_append] at hr
      exact (mem_append.mp hr).imp_left (hold r)
    · rintro (hn | ⟨l, hl, hcut⟩)
      · exact .inl (append_eq_nil_iff.mp hn).2
      · rcases h.lwbs_of_cut hl hcut with hn | ⟨c, hc⟩
        · exact .inl hn
        · exact .inr ⟨l, show l ∈ p.lwbs from hc ▸ by simp, hcut⟩
    · intro ha
      refine ⟨fun l hl => ?_, nofun⟩
      cases hz : p.zilSynced with
      | true => exact ha.memory hz l hl
      | false => exact ha.disk l (hhead l hl hz)
    · exact fun hn => (append_eq_nil_iff.mp hn).2
    · intro l hn hw
      rcases append_eq_singleton_iff.mp hn with ⟨-, hl⟩ | ⟨hr, -⟩
      · exact hl
      · have := (h.retired l (by rw [hr]; exact mem_singleton.mpr rfl)).1
        rw [Lwb.hasBuf, hw] at this
        cases this

omit h in
theorem Pool.mem_modify (hl : l ∈ (p.modify dva f).chain) :
    l ∈ p.chain ∨ ∃ m ∈ p.lwbs, m.blk.dva = dva ∧ l = f m := by
  rcases mem_append.mp hl with hl | hl
  · exact .inl (mem_append_left _ hl)
  · obtain ⟨m, hm, rfl⟩ := mem_map.mp hl
    split
    · next hd => exact .inr ⟨m, hm, hd, rfl⟩
    · exact .inl (mem_append_right _ hm)

theorem Pool.Inv.modify (hl : l ∈ p.lwbs) (hdva : l.blk.dva = dva) (ha : p.Anchored)
    (hev : Evolves p l (f l)) (hcut : ∀ m ∈ p.chain, ∀ t, m.cut = some t → (p.modify dva f).Cut t)
    (hcut' : ∀ t, (f l).cut = some t → (p.modify dva f).Cut t) :
    (p.modify dva f).Inv ∧ (p.modify dva f).Anchored ∧
      (∀ r ∈ durable p.chain, r ∈ durable (p.modify dva f).chain) ∧
      (∀ r ∈ recordsOf p.chain, r ∈ recordsOf (p.modify dva f).chain) ∧
      ∀ m ∈ (p.modify dva f).chain, m ∈ p.chain ∨ m = f l := by
  have hf := @Pool.forall₂_modify f p dva h fun m hm hd => by
    rw [h.eq_of_dva hm hl (hd.trans hdva.symm)]
    exact hev
  have hmem : ∀ m ∈ (p.modify dva f).chain, m ∈ p.chain ∨ m = f l := by
    intro m hm
    refine (Pool.mem_modify hm).imp_right ?_
    rintro ⟨m', hm', hd, rfl⟩
    rw [h.eq_of_dva hm' hl (hd.trans hdva.symm)]
  have hchain : Forall₂ (fun m m' => (m.records ⊆ m'.records) ∧
      (m.stable → m'.stable ∧ m'.records = m.records)) p.chain (p.modify dva f).chain :=
    rel_append (forall₂_same.mpr fun _ _ => ⟨Subset.refl _, fun hs => ⟨hs, rfl⟩⟩)
      (hf.imp fun _ _ he => ⟨he.records, he.stable⟩)
  obtain ⟨hinv, hanch⟩ := h.evolve hf ha (by
    intro m hm t ht
    rcases hmem m hm with hm | rfl
    · exact hcut m hm t ht
    · exact hcut' t ht)
  exact ⟨hinv, hanch, fun r hr => durable_mono (hchain.imp fun _ _ he => he.2) hr,
    fun r hr => recordsOf_mono (hchain.imp fun _ _ he => he.1) hr, hmem⟩

theorem Pool.Inv.modify_started (hl : l ∈ p.lwbs)
    (hdva : l.blk.dva = dva) (hstarted : ∀ zio, l.write ≠ .filling zio) (hev : Evolves p l (f l))
    (htr : (f l).trailer = l.trailer) (hmax : (f l).maxTxg = l.maxTxg)
    (hheld : (f l).held = none) : (p.modify dva f).Inv ∧ p.Interferes (p.modify dva f) := by
  have hlc : l ∈ p.chain := mem_append_right _ hl
  have hcutl : (f l).cut = l.cut := by rw [Lwb.cut, htr, Lwb.cut]
  have hcut : ∀ m ∈ p.chain, ∀ t, m.cut = some t → (p.modify dva f).Cut t := by
    intro m hm t ht
    have hc := h.cut m hm t ht
    refine { hc with newest := fun m' hm' => ?_, dropped := fun hz heq => ?_ }
    · obtain ⟨m, hm, rfl⟩ := mem_map.mp hm'
      split
      · next hd =>
        rw [h.eq_of_dva hm hl (hd.trans hdva.symm), hmax, hheld]
        exact ⟨(hc.newest l hl).1, nofun⟩
      · exact hc.newest m hm
    · rw [hc.dropped hz heq] at hl
      cases hl
  obtain ⟨hinv, hanch, hdur, hrec, hmem⟩ := h.modify hl hdva
    (h.anchored hlc (hstarted false)) hev hcut fun t ht => hcut l hlc t (hcutl ▸ ht)
  refine ⟨hinv, le_rfl, le_rfl, fun r hr => .inr (hdur r hr), fun r hr => .inr (hrec r hr),
    ?_, ?_, ?_, fun _ => hanch, ?_, ?_⟩
  · intro c m zio hc hw
    refine ⟨c.map fun l => if l.blk.dva = dva then f l else l, ?_⟩
    have hm : m ∈ p.lwbs := by simp [hc]
    have hne : m.blk.dva ≠ dva := by
      intro heq
      rw [h.eq_of_dva hm hl (heq.trans hdva.symm)] at hw
      exact hstarted zio hw
    rw [Pool.modify, hc, map_append, map_singleton, if_neg hne]
  · rintro (hn | ⟨m, hm, hcut⟩)
    · rw [(append_eq_nil_iff.mp hn).2] at hl
      cases hl
    right
    rcases mem_append.mp hm with hm | hm
    · exact ⟨m, mem_append_left _ hm, hcut⟩
    refine ⟨_, mem_append_right _ (mem_map_of_mem hm), ?_⟩
    split
    · next hd =>
      rw [h.eq_of_dva hm hl (hd.trans hdva.symm)] at hcut ⊢
      exact hcutl ▸ hcut
    · exact hcut
  · intro m' hm' t ht
    rcases hmem m' hm' with hm' | rfl
    · exact ⟨m', hm', ht⟩
    · exact ⟨l, hlc, hcutl ▸ ht⟩
  · intro hn
    rw [(append_eq_nil_iff.mp hn).2] at hl
    cases hl
  · intro m hn hw
    rw [hn, mem_singleton] at hlc
    exact absurd hw (hlc ▸ hstarted false)

theorem Pool.Inv.setMedia (hl : l ∈ p.lwbs) (hw : l.written = false) (b : Option LogBlock) :
    Pool.Inv { p with media := fun d => if d = l.blk.dva then b else p.media d } := by
  refine (h.beside le_rfl (Subset.refl _) h.window h.synced (fun m hm hmw => ?_) h.held).1
  have hne : m.blk.dva ≠ l.blk.dva := by
    intro heq
    have hinj := inj_on_of_nodup_map h.nodup hm (mem_append_right _ hl) heq
    rw [hinj, hw] at hmw
    cases hmw
  rw [if_neg hne]
  exact h.media m hm hmw

theorem Evolves.of_write (hl : l ∈ p.lwbs) {w : Write} {q : Pool}
    (hq : q.openTxg = p.openTxg) (hw : ∀ zio, w ≠ .filling zio)
    (htr : Lwb.trailer { l with write := w } = l.trailer)
    (hheld : Lwb.held { l with write := w } = none)
    (hmedia : Lwb.written { l with write := w } → q.media l.blk.dva = some l.block)
    (hwr : l.written → Lwb.written { l with write := w }) : Evolves q l { l with write := w } := by
  have hwf := h.wf l (mem_append_right _ hl)
  constructor
  · rfl
  · exact fun b t ht => htr.trans ht
  · exact { hwf with
      empty := fun hc => absurd hc (hw false)
      pointer := fun b t ht => hwf.pointer b t (htr.symm.trans ht) }
  · intro hok
    rw [Lwb.block, htr]
    exact hmedia hok
  · rw [hq]
    exact h.newest l hl
  · intro t ht
    rw [hheld] at ht
    cases ht
  · exact Subset.refl _
  · intro hst
    obtain ⟨h1, h2⟩ := Lwb.stable_iff.mp hst
    exact ⟨Lwb.stable_iff.mpr ⟨hwr h1, by rw [htr]; exact h2⟩, rfl⟩

theorem Pool.Inv.release {ok : Bool} (hs : p.release dva ok = some p') :
    p'.Inv ∧ p.Interferes p' ∧ ∀ l ∈ p'.chain, l.failed → l ∈ p.chain := by
  rw [Pool.release] at hs
  split at hs
  · next l hfind =>
      obtain ⟨hl, hd⟩ := Pool.find_mem hfind
      split at hs
      · next next txg hw =>
          have hnw : l.written = false := by rw [Lwb.written, hw]
          have htr : Lwb.trailer { l with write := .released next txg ok } = l.trailer := by
            rw [Lwb.trailer, Lwb.trailer, hw]
          have hst : ∀ zio, l.write ≠ .filling zio := fun zio hc => nomatch hw.symm.trans hc
          have hev : ∀ {q : Pool}, q.openTxg = p.openTxg → (ok → q.media dva = some l.block) →
              Evolves q l { l with write := .released next txg ok } := by
            intro q hq hm
            refine .of_write h hl hq nofun htr rfl (fun hok => ?_) fun hc =>
              nomatch hnw.symm.trans hc
            rw [hd]
            refine hm ?_
            cases ok
            · cases hok
            · rfl
          have hfail : ∀ m ∈ (p.modify dva fun l =>
            { l with write := .released next txg ok }).chain,
              m.failed → m ∈ p.chain := by
            intro m hm hf
            refine (Pool.mem_modify hm).resolve_right ?_
            rintro ⟨m', -, -, rfl⟩
            cases hf
          split at hs
          · next hok =>
              obtain rfl := some.inj hs
              have h1 := h.setMedia hl hnw (some l.block)
              rw [hd] at h1
              obtain ⟨hinv, hint⟩ := h1.modify_started
                (f := fun l => { l with write := .released next txg ok })
                hl hd hst (hev rfl fun _ => if_pos rfl) htr rfl rfl
              exact ⟨hinv, { hint with anchored := fun ha => hint.anchored ⟨ha.disk, ha.memory⟩ },
                hfail⟩
          · next hok =>
              obtain rfl := some.inj hs
              obtain ⟨hinv, hint⟩ := h.modify_started
                (f := fun l => { l with write := .released next txg ok })
                hl hd hst (hev rfl fun hc => absurd hc hok) htr rfl rfl
              exact ⟨hinv, hint, hfail⟩
      · cases hs
  · cases hs

theorem Pool.Inv.writeDone {err : Bool} (hs : p.writeDone dva = some (p', err)) :
    p'.Inv ∧ p.Interferes p' ∧ ∀ l ∈ p'.chain, l.failed → l ∈ p.chain ∨ err := by
  rw [Pool.writeDone] at hs
  split at hs
  · next l hfind =>
      obtain ⟨hl, hd⟩ := Pool.find_mem hfind
      split at hs
      · next next txg ok hw =>
          obtain ⟨rfl, rfl⟩ := Prod.mk.inj (some.inj hs)
          have htr : Lwb.trailer { l with write := .done next txg ok } = l.trailer := by
            rw [Lwb.trailer, Lwb.trailer, hw]
          have hwr : Lwb.written { l with write := .done next txg ok } = l.written := by
            rw [Lwb.written, Lwb.written, hw]
            cases ok <;> rfl
          have hst : ∀ zio, l.write ≠ .filling zio := fun zio hc => nomatch hw.symm.trans hc
          obtain ⟨hinv, hint⟩ := h.modify_started
            (f := fun l => { l with write := .done next txg ok })
            hl hd hst (.of_write h hl rfl nofun htr rfl
              (fun hok => h.media l (mem_append_right _ hl) (hwr ▸ hok)) fun hc => hwr ▸ hc)
              htr rfl rfl
          refine ⟨hinv, hint, fun m hm hf => (Pool.mem_modify hm).imp_right ?_⟩
          rintro ⟨m', -, -, rfl⟩
          cases ok
          · rfl
          · cases hf
      · cases hs
  · cases hs

structure Pool.Grows (p p' : Pool) : Prop where
  synced : p'.syncedTxg = p.syncedTxg
  opened : p'.openTxg = p.openTxg
  durable : ∀ r ∈ durable p.chain, r ∈ Commit.durable p'.chain
  records : ∀ r ∈ recordsOf p.chain, r ∈ recordsOf p'.chain
  failed : ∀ l ∈ p'.chain, l.failed → l ∈ p.chain

omit h in
theorem Pool.Grows.trans {p'' : Pool} (h : p.Grows p') (h' : p'.Grows p'') : p.Grows p'' :=
  ⟨h'.synced.trans h.synced, h'.opened.trans h.opened, fun r hr => h'.durable r (h.durable r hr),
    fun r hr => h'.records r (h.records r hr), fun l hl hf => h.failed l (h'.failed l hl hf) hf⟩

theorem Pool.Inv.modify_open (hl : l ∈ p.lwbs) (hdva : l.blk.dva = dva)
    (hw : l.write = .filling zio) (ha : p.Anchored) (hev : Evolves p l (f l))
    (hcut : ∀ t, (f l).cut = some t → (p.modify dva f).Cut t) (hfail : (f l).failed = false) :
    (p.modify dva f).Inv ∧ (p.modify dva f).Anchored ∧ p.Grows (p.modify dva f) := by
  obtain ⟨hinv, hanch, hdur, hrec, hmem⟩ := h.modify hl hdva ha hev (fun m hm t ht => by
    cases ht.symm.trans (h.no_cut (mem_append_right _ hl) hw m hm)) hcut
  refine ⟨hinv, hanch, rfl, rfl, hdur, hrec, fun m hm hmf => (hmem m hm).resolve_right ?_⟩
  rintro rfl
  cases hfail.symm.trans hmf

omit h in
theorem Pool.modify_openAt {zio zio' : Bool} (ho : p.OpenAt dva zio)
    (hblk : ∀ l, (f l).blk = l.blk)
    (hw : ∀ l, (f l).write = .filling zio') : (p.modify dva f).OpenAt dva zio' := by
  obtain ⟨c, l, hc, hd, -⟩ := ho
  refine ⟨c.map fun l => if l.blk.dva = dva then f l else l, f l, ?_, by rw [hblk, hd], hw l⟩
  rw [Pool.modify, hc, map_append, map_singleton, if_pos hd]

omit h in
theorem Lwb.WF.init (h : l.WF) : Lwb.WF { l with write := .filling true } :=
  { h with empty := nofun, pointer := nofun }

theorem Pool.Inv.init (ho : p.OpenAt dva zio) (ha : p.Anchored) :
    let p' := p.modify dva fun l => { l with write := .filling true }
    p'.Inv ∧ p'.Anchored ∧ p.Grows p' ∧ p'.OpenAt dva true := by
  obtain ⟨l, hl, hd, hw⟩ := ho.mem
  have hwf := (h.wf l (mem_append_right _ hl)).init
  have hev : Evolves p l { l with write := .filling true } := by
    refine ⟨rfl, fun b t ht => ?_, hwf, fun h => (by cases h), h.newest l hl,
      fun _ h => (by cases h), Subset.refl _, fun hs => ?_⟩
    · rw [Lwb.trailer, hw] at ht
      cases ht
    · simp [Lwb.stable, Lwb.written, hw] at hs
  obtain ⟨h1, h2, h3⟩ := h.modify_open (f := fun l => { l with write := .filling true })
    hl hd hw ha hev (fun _ h => by cases h) rfl
  exact ⟨h1, h2, h3, Pool.modify_openAt ho (fun _ => rfl) fun _ => rfl⟩

/-- **A RECORD IS COPIED** to the buffer, in which there is room for it. -/
theorem Pool.Inv.put (ho : p.OpenAt dva zio) (ha : p.Anchored) {r : Record}
    (hpos : 0 < r.reclen) (htxg : r.txg ≤ p.openTxg)
    (hfits : ∀ l ∈ p.find dva, l.nused + r.reclen ≤ l.dataSz) :
    let p' := p.modify dva fun l => l.put r
    p'.Inv ∧ p'.Anchored ∧ p.Grows p' ∧ p'.OpenAt dva true ∧ r ∈ recordsOf p'.chain := by
  obtain ⟨l, hl, hd, hw⟩ := ho.mem
  have hwf := h.wf l (mem_append_right _ hl)
  have hev : Evolves p l (l.put r) := by
    refine ⟨rfl, fun b t ht => ?_, ⟨?_, ?_, ?_, ?_, fun h => (by cases h),
      fun _ _ h => (by cases h)⟩,
      (fun h => by cases h), Nat.max_le.mpr ⟨h.newest l hl, htxg⟩, fun _ h => (by cases h),
      subset_append_left _ _, fun hs => ?_⟩
    · rw [Lwb.trailer, hw] at ht
      cases ht
    · rw [Lwb.put, hwf.used, map_append, sum_append, map_singleton, sum_singleton]
    · exact hfits l (hd ▸ Pool.find_of_mem h hl)
    · intro q hq
      rcases mem_append.mp hq with hq | hq
      · exact hwf.positive q hq
      · rwa [mem_singleton.mp hq]
    · intro q hq
      rcases mem_append.mp hq with hq | hq
      · exact le_trans (hwf.covers q hq) (le_max_left ..)
      · rw [mem_singleton.mp hq]
        exact le_max_right ..
    · simp [Lwb.stable, Lwb.written, hw] at hs
  obtain ⟨h1, h2, h3⟩ := h.modify_open (f := fun l => l.put r) hl hd hw ha hev
    (fun _ h => by cases h) rfl
  refine ⟨h1, h2, h3, Pool.modify_openAt ho (fun _ => rfl) fun _ => rfl, ?_⟩
  refine mem_flatMap.mpr ⟨l.put r, mem_append_right _ ?_, ?_⟩
  · exact mem_map.mpr ⟨l, hl, if_pos hd⟩
  · exact mem_append_right _ (mem_singleton.mpr rfl)

end

theorem newLwb_wf (bp : Blkptr) (txg : Nat) : (newLwb bp txg).WF :=
  ⟨rfl, Nat.zero_le _, nofun, nofun, fun _ => rfl, nofun⟩

variable {bp : Blkptr} {txg : Nat}

theorem Pool.Inv.append (h : p.Inv)
    (hlast : ∀ m ∈ p.chain.getLast?, Linked m (newLwb bp txg)) (hnone : ∀ m ∈ p.chain, m.cut = none)
    (hfree : p.Unallocated bp.dva) (htxg : txg ≤ p.openTxg)
    (hdisk : ∀ l ∈ (p.append (newLwb bp txg)).chain.head?,
      p.diskLog = l.blk ∨ (p.append (newLwb bp txg)).Created l p.syncedTxg)
    (hmemory : p.zilSynced → ∀ l ∈ (p.append (newLwb bp txg)).lwbs.head?,
      p.log = l.blk ∨ (p.append (newLwb bp txg)).Created l (p.syncedTxg + 1)) :
    let p' := p.append (newLwb bp txg)
    p'.Inv ∧ p.Grows p' ∧ p'.OpenAt bp.dva false := by
  have hchain : (p.append (newLwb bp txg)).chain = p.chain ++ [newLwb bp txg] :=
    (append_assoc ..).symm
  have hall : ∀ {P : Lwb → Prop}, (∀ l ∈ p.chain, P l) → P (newLwb bp txg) →
      ∀ l ∈ (p.append (newLwb bp txg)).chain, P l := by
    intro P hp hnew l hl
    rw [hchain] at hl
    rcases mem_append.mp hl with hl | hl
    · exact hp l hl
    · rwa [mem_singleton.mp hl]
  refine ⟨?_, ?_, ⟨p.lwbs, _, rfl, rfl, rfl⟩⟩
  · constructor
    · exact h.window
    · exact h.synced
    · rw [hchain]
      refine isChain_append.mpr ⟨h.linked, isChain_singleton _, fun m hm n hn => ?_⟩
      obtain rfl := some.inj hn
      exact hlast m hm
    · rw [hchain, map_append]
      refine nodup_append.mpr ⟨h.nodup, nodup_singleton _, ?_⟩
      intro a ha b hb
      obtain ⟨m, hm, rfl⟩ := mem_map.mp ha
      rw [map_singleton, mem_singleton] at hb
      subst hb
      exact hfree m hm
    · exact hall h.wf (newLwb_wf bp txg)
    · exact hall h.media (fun h => by cases h)
    · intro l hl
      rcases mem_append.mp hl with hl | hl
      · exact h.newest l hl
      · rwa [mem_singleton.mp hl]
    · intro l hl t ht
      rcases mem_append.mp hl with hl | hl
      · exact h.held l hl t ht
      · rw [mem_singleton.mp hl] at ht
        cases ht
    · exact h.retired
    · exact h.pending
    · refine hall (fun l hl t ht => ?_) (fun _ h => by cases h)
      rw [hnone l hl] at ht
      cases ht
    · exact hdisk
    · exact hmemory
    · rintro (hz | hn)
      · exact h.same (.inl hz)
      · rw [hchain] at hn
        cases (append_eq_nil_iff.mp hn).2
  · refine ⟨rfl, rfl, ?_, ?_, ?_⟩
    · intro r hr
      rw [hchain]
      exact durable_append hr
    · intro r hr
      rw [hchain, recordsOf, flatMap_append]
      exact mem_append_left _ hr
    · exact hall (fun l hl _ => hl) (fun h => by cases h)

/-- **THE FIRST BLOCK** of a log: the one the header names, or a new one whose txg is to sync. -/
theorem Pool.Inv.create (h : p.Inv) (hnil : p.chain = []) (htxg : txg ≤ p.openTxg)
    (hnew : p.log = bp ∨ p.syncedTxg < txg ∧ (p.syncing → p.syncedTxg + 1 < txg) ∧ txg ∈ p.dirty) :
    let p' := p.append (newLwb bp txg)
    p'.Inv ∧ p'.chain = [newLwb bp txg] ∧ p.Grows p' ∧ (p.log = bp → p'.Anchored) := by
  obtain ⟨hret, hlwbs⟩ := append_eq_nil_iff.mp hnil
  have hlw : (p.append (newLwb bp txg)).lwbs = [newLwb bp txg] := by
    rw [Pool.append, hlwbs]
    rfl
  have hchain : (p.append (newLwb bp txg)).chain = [newLwb bp txg] := by
    rw [Pool.chain, hlw, Pool.append, hret]
    rfl
  have hsame := h.same (.inr hnil)
  have hno : ∀ m, m ∉ p.chain := fun m => hnil ▸ not_mem_nil
  have hlast : ∀ m ∈ p.chain.getLast?, Linked m (newLwb bp txg) :=
    fun m hm => absurd (mem_of_getLast? hm) (hno m)
  obtain ⟨hinv, hgrows, -⟩ := h.append hlast (fun m hm => absurd hm (hno m))
    (fun m hm => absurd hm (hno m)) htxg
    (by
      intro l hl
      rw [hchain] at hl
      obtain rfl := some.inj hl
      rcases hnew with hlog | ⟨h1, -, h3⟩
      · exact .inl (hsame.symm.trans hlog)
      · exact .inr ⟨hchain, rfl, h1, h3⟩)
    (by
      intro hz l hl
      rw [hlw] at hl
      obtain rfl := some.inj hl
      rcases hnew with hlog | ⟨-, h2, h3⟩
      · exact .inl hlog
      · exact .inr ⟨hchain, rfl, h2 (h.synced hz), h3⟩)
  refine ⟨hinv, hchain, hgrows, fun hlog => ⟨fun l hl => ?_, fun _ l hl => ?_⟩⟩
  · rw [hchain] at hl
    obtain rfl := some.inj hl
    exact hsame.symm.trans hlog
  · rw [hlw] at hl
    obtain rfl := some.inj hl
    exact hlog

theorem Pool.Inv.issue (h : p.Inv) (hl : l ∈ p.lwbs) (hw : l.write = .filling zio)
    (ha : p.Anchored) {next : Option Blkptr}
    (hnext : ∀ b ∈ next, b.cksum = l.blk.cksum.next ∧ ¬ b.IsHole)
    (hcut : next = none → p.openTxg ∈ p.dirty) :
    let p' := p.issue l.blk.dva next
    p'.Inv ∧ p'.Anchored ∧ p.Grows p' := by
  have hwf := h.wf l (mem_append_right _ hl)
  have hwin := h.window
  have hev : Evolves p l { l with write := .issued next p.openTxg } := by
    refine ⟨rfl, fun b t ht => ?_, { hwf with empty := nofun, pointer := fun b t ht => ?_ },
      nofun, h.newest l hl, fun t ht => ?_, Subset.refl _, fun hs => ?_⟩
    · rw [Lwb.trailer, hw] at ht
      cases ht
    · obtain ⟨rfl, -⟩ := Prod.mk.inj (some.inj ht)
      exact hnext b rfl
    · obtain rfl := some.inj ht
      exact ⟨hwin.1, hwin.2, le_rfl⟩
    · simp [Lwb.stable, Lwb.written, hw] at hs
  refine h.modify_open (f := fun l => { l with write := .issued next p.openTxg }) hl rfl
    hw ha hev ?_ rfl
  intro t ht
  have htr := Lwb.trailer_of_cut ht
  obtain ⟨rfl, rfl⟩ := Prod.mk.inj (some.inj htr)
  refine ⟨hwin.1, le_rfl, hcut rfl, fun m hm => ?_, fun hz heq => ?_⟩
  · obtain ⟨m', hm', rfl⟩ := mem_map.mp hm
    split
    · exact ⟨h.newest m' hm', fun u hu => (some.inj hu) ▸ le_rfl⟩
    · exact ⟨h.newest m' hm', fun u hu => (h.held m' hm' u hu).2.2⟩
  · have hlt := hwin.2 (h.synced hz)
    have heq : p.syncedTxg + 1 = p.openTxg := heq
    omega

theorem Pool.OpenAt.find (h : p.Inv) (ho : p.OpenAt dva zio) :
    ∃ l c, p.find dva = some l ∧ l ∈ p.lwbs ∧ l.blk.dva = dva ∧ l.write = .filling zio ∧
      p.lwbs = c ++ [l] := by
  obtain ⟨c, l, hc, hd, hw⟩ := ho
  have hl : l ∈ p.lwbs := by simp [hc]
  exact ⟨l, c, hd ▸ Pool.find_of_mem h hl, hl, hd, hw, hc⟩

theorem Pool.Inv.extend (h : p.Inv) {c : List Lwb} (hc : p.lwbs = c ++ [l])
    (hw : l.write = .filling zio) (ha : p.Anchored) (hck : bp.cksum = l.blk.cksum.next)
    (hbirth : bp.birth = p.openTxg) (hfree : p.Unallocated bp.dva) :
    let p' := (p.issue l.blk.dva (some bp)).append (newLwb bp p.openTxg)
    p'.Inv ∧ p'.Anchored ∧ p.Grows p' ∧ p'.OpenAt bp.dva false := by
  set p₁ := p.issue l.blk.dva (some bp) with hp
  have hl : l ∈ p.lwbs := by simp [hc]
  have hwin := h.window
  obtain ⟨h1, ha1, hg1⟩ := @Pool.Inv.issue zio p l h hl hw ha (some bp)
    (by
      rintro b hb
      obtain rfl := some.inj hb
      refine ⟨hck, ?_⟩
      rw [Blkptr.IsHole, hbirth]
      exact ne_of_gt (Nat.zero_lt_of_lt hwin.1))
    nofun
  have hlw : p₁.lwbs
      = (c.map fun m =>
          if m.blk.dva = l.blk.dva then { m with write := .issued (some bp) p.openTxg } else m) ++
        [{ l with write := .issued (some bp) p.openTxg }] := by
    rw [hp, Pool.issue, Pool.modify, hc, map_append, map_singleton, if_pos rfl]
  have hlast : ∀ m ∈ p₁.chain.getLast?, Linked m (newLwb bp p.openTxg) := by
    intro m hm
    rw [Pool.chain, hlw, ← append_assoc, getLast?_append] at hm
    obtain rfl := some.inj hm
    exact ⟨p.openTxg, rfl⟩
  have hnone : ∀ m ∈ p₁.chain, m.cut = none := by
    intro m hm
    rcases Pool.mem_modify hm with hm | ⟨m', -, -, rfl⟩
    · exact h.no_cut (mem_append_right _ hl) hw m hm
    · rfl
  have hfree' : p₁.Unallocated bp.dva := by
    intro m hm
    rcases Pool.mem_modify hm with hm | ⟨m', hm', -, rfl⟩
    · exact hfree m hm
    · exact hfree m' (mem_append_right _ hm')
  -- the chain has a first block already
  have hhead : ∀ {c : List Lwb} {m : Lwb}, m ∈ (c ++ p₁.lwbs ++
      [newLwb bp p.openTxg]).head? → m ∈ (c ++ p₁.lwbs).head? := by
    intro c m hm
    have hne : c ++ p₁.lwbs ≠ [] := by
      rw [hlw]
      simp
    rwa [head?_append_of_ne_nil _ hne] at hm
  have hanch : (p₁.append (newLwb bp p.openTxg)).Anchored := by
    refine ⟨fun m hm => ha1.disk m (hhead ?_), fun hz m hm => ha1.memory hz m (hhead (c := []) hm)⟩
    rwa [append_assoc]
  obtain ⟨h2, hg2, ho2⟩ := h1.append hlast hnone hfree' le_rfl (fun m hm => .inl (hanch.disk m hm))
    fun hz m hm => .inl (hanch.memory hz m hm)
  exact ⟨h2, hanch, hg1.trans hg2, ho2⟩

/-- **NO BLOCK IS LEFT**: the chain is terminated and the txg will drop it. -/
theorem Pool.Inv.writeStart_none (h : p.Inv) (hl : l ∈ p.lwbs)
    (hw : l.write = .filling zio) (ha : p.Anchored) (blksz : Nat) :
    let p' := (p.writeStart l blksz none).1
    p'.Inv ∧ p'.Anchored ∧ p.Grows p' ∧ p'.Shut := by
  obtain ⟨h0, hi0⟩ := h.setDirty p.openTxg
  have ha0 := hi0.anchored ha
  obtain ⟨h1, ha1, hg1⟩ := @Pool.Inv.issue zio _ l h0 hl hw ha0 none nofun fun _ => mem_cons_self ..
  refine ⟨h1, ha1, { hg1 with }, .inr ?_⟩
  exact ⟨_, mem_append_right _ (mem_map.mpr ⟨l, hl, if_pos rfl⟩), rfl⟩

end Steps

end Commit

end Sirius.Zil
