import Mathlib.Data.List.Infix
import Mathlib.Data.List.Nodup

/-! # Turning a microzap into a fat zap

    `mzap_upgrade` gives the object its new block size, which destroys the microzap, and adds
    the entries it has copied one by one, up to the first that cannot be added.  Its `err` is
    declared inside the loop and hides the one that is returned, so that the caller is told of
    a failed block size and of nothing that fails after it.

    What other code answers is part of the input: each chunk comes with the answers its calls
    get.  The zap is held as writer, and nobody else changes it. -/

namespace Sirius.Zap

open List

/-- `mzap_ent_phys_t`; the chunk is free if its name is empty. -/
structure MzapEntPhys where
  mzeName : List UInt8
  mzeValue : UInt64
  mzeCd : UInt32
  deriving DecidableEq

/-- What `zap_entry_create` answers, and `zap_expand_leaf` after an `EAGAIN`. -/
inductive LeafAnswer
  | created
  | tooBig
  | expanded (next : LeafAnswer)
  | notExpanded (err : ℕ) (hne : err ≠ 0)

def LeafAnswer.creates : LeafAnswer → Bool
  | created => true
  | tooBig => false
  | expanded next => next.creates
  | notExpanded _ _ => false

/-- A chunk of the microzap, and what is answered when it is added: by `zap_deref_leaf`, then by the
    leaf. -/
structure Chunk extends MzapEntPhys where
  deref : ℕ
  leaf : LeafAnswer

def Chunk.live (c : Chunk) : Bool := !c.mzeName.isEmpty

def Chunk.creates (c : Chunk) : Bool := c.deref == 0 && c.leaf.creates

/-- From `retry` on.  `EEXIST` is 17 and `E2BIG` is 7. -/
def addToLeaf (fat : List MzapEntPhys) (e : MzapEntPhys) (a : LeafAnswer) : ℕ × List MzapEntPhys :=
  if e.mzeName ∈ fat.map (·.mzeName) then (17, fat)
  else match a with
    | .created => (0, fat ++ [e])
    | .tooBig => (7, fat)
    | .expanded next => addToLeaf fat e next
    | .notExpanded err _ => (err, fat)

def fzapAddCd (fat : List MzapEntPhys) (c : Chunk) : ℕ × List MzapEntPhys :=
  if c.deref ≠ 0 then (c.deref, fat) else addToLeaf fat c.toMzapEntPhys c.leaf

/-- The loop over the chunks, with its own `err`. -/
def addChunks (fat : List MzapEntPhys) : List Chunk → ℕ × List MzapEntPhys
  | [] => (0, fat)
  | c :: cs =>
    if !c.live then addChunks fat cs
    else
      let (err, fat) := fzapAddCd fat c
      if err ≠ 0 then (err, fat) else addChunks fat cs

/-- `mzap_upgrade`: what it returns, and the fat zap if there is one.  `setBlocksize` is the
    answer of `dmu_object_set_blocksize`. -/
def mzapUpgrade (setBlocksize : ℕ) (chunks : List Chunk) : ℕ × Option (List MzapEntPhys) :=
  let err := setBlocksize
  if err ≠ 0 then (err, none)
  else
    let (_, fat) := addChunks [] chunks
    (err, some fat)

def NothingLost (chunks : List Chunk) (r : ℕ × Option (List MzapEntPhys)) : Prop :=
  r.1 = 0 → ∃ fat, r.2 = some fat ∧ ∀ c ∈ chunks, c.live → c.toMzapEntPhys ∈ fat

def entries (chunks : List Chunk) : List MzapEntPhys :=
  (chunks.filter Chunk.live).map Chunk.toMzapEntPhys

structure Addable (fat : List MzapEntPhys) (chunks : List Chunk) : Prop where
  created : ∀ c ∈ chunks, c.live → c.creates
  distinct : ((fat ++ entries chunks).map (·.mzeName)).Nodup

variable {fat : List MzapEntPhys} {c : Chunk} {cs : List Chunk} {e : MzapEntPhys}

theorem entries_cons_of_live (h : c.live) : entries (c :: cs) = c.toMzapEntPhys :: entries cs := by
  rw [entries, filter_cons_of_pos h, map_cons]
  rfl

theorem entries_cons_of_free (h : ¬ c.live) : entries (c :: cs) = entries cs := by
  rw [entries, filter_cons_of_neg h]
  rfl

theorem mem_entries : e ∈ entries cs ↔ ∃ c ∈ cs, c.live ∧ c.toMzapEntPhys = e := by
  simp only [entries, mem_map, mem_filter, and_assoc]

theorem addToLeaf_spec (fat : List MzapEntPhys) (e : MzapEntPhys) (a : LeafAnswer) :
    (e.mzeName ∉ fat.map (·.mzeName) ∧ a.creates → addToLeaf fat e a = (0, fat ++ [e])) ∧
    (¬ (e.mzeName ∉ fat.map (·.mzeName) ∧ a.creates) →
      ∃ err ≠ 0, addToLeaf fat e a = (err, fat)) := by
  by_cases hmem : e.mzeName ∈ fat.map (·.mzeName)
  · refine ⟨fun h => absurd hmem h.1, fun _ => ⟨17, by decide, ?_⟩⟩
    rw [addToLeaf.eq_def, if_pos hmem]
  induction a with
  | created =>
    refine ⟨fun _ => ?_, fun h => absurd ⟨hmem, rfl⟩ h⟩
    rw [addToLeaf, if_neg hmem]
  | tooBig =>
    refine ⟨fun h => absurd h.2 Bool.false_ne_true, fun _ => ⟨7, by decide, ?_⟩⟩
    rw [addToLeaf, if_neg hmem]
  | expanded next ih =>
    rw [addToLeaf, if_neg hmem]
    exact ih
  | notExpanded err hne =>
    refine ⟨fun h => absurd h.2 Bool.false_ne_true, fun _ => ⟨err, hne, ?_⟩⟩
    rw [addToLeaf, if_neg hmem]

theorem fzapAddCd_spec (fat : List MzapEntPhys) (c : Chunk) :
    (c.mzeName ∉ fat.map (·.mzeName) ∧ c.creates →
      fzapAddCd fat c = (0, fat ++ [c.toMzapEntPhys])) ∧
    (¬ (c.mzeName ∉ fat.map (·.mzeName) ∧ c.creates) →
      ∃ err ≠ 0, fzapAddCd fat c = (err, fat)) := by
  rw [fzapAddCd, Chunk.creates]
  by_cases hderef : c.deref = 0
  · rw [if_neg (not_not.mpr hderef), hderef]
    exact addToLeaf_spec fat c.toMzapEntPhys c.leaf
  · rw [if_pos hderef, beq_eq_false_iff_ne.mpr hderef]
    exact ⟨fun h => absurd h.2 Bool.false_ne_true, fun _ => ⟨c.deref, hderef, rfl⟩⟩

theorem addable_cons_of_live (h : c.live) : Addable fat (c :: cs) ↔
    (c.mzeName ∉ fat.map (·.mzeName) ∧ c.creates) ∧ Addable (fat ++ [c.toMzapEntPhys]) cs := by
  constructor
  · rintro ⟨hcreated, hdistinct⟩
    rw [entries_cons_of_live h] at hdistinct
    refine ⟨⟨fun hmem => ?_, hcreated c mem_cons_self h⟩,
      fun d hd => hcreated d (mem_cons_of_mem _ hd), ?_⟩
    · rw [map_append, map_cons, nodup_append] at hdistinct
      exact hdistinct.2.2 _ hmem _ mem_cons_self rfl
    · rwa [append_assoc, singleton_append]
  · rintro ⟨⟨-, hc⟩, hcreated, hdistinct⟩
    refine ⟨fun d hd hlive => ?_, ?_⟩
    · rcases mem_cons.mp hd with rfl | hd
      · exact hc
      · exact hcreated d hd hlive
    · rwa [entries_cons_of_live h, ← singleton_append, ← append_assoc]

theorem addable_cons_of_free (h : ¬ c.live) : Addable fat (c :: cs) ↔ Addable fat cs := by
  constructor
  · rintro ⟨hcreated, hdistinct⟩
    rw [entries_cons_of_free h] at hdistinct
    exact ⟨fun d hd => hcreated d (mem_cons_of_mem _ hd), hdistinct⟩
  · rintro ⟨hcreated, hdistinct⟩
    refine ⟨fun d hd hlive => ?_, ?_⟩
    · rcases mem_cons.mp hd with rfl | hd
      · exact absurd hlive h
      · exact hcreated d hd hlive
    · rwa [entries_cons_of_free h]

theorem addable_nil : Addable fat [] ↔ (fat.map (·.mzeName)).Nodup := by
  constructor
  · rintro ⟨-, hdistinct⟩
    rwa [entries, filter_nil, map_nil, append_nil] at hdistinct
  · intro h
    exact ⟨nofun, by rwa [entries, filter_nil, map_nil, append_nil]⟩

theorem addChunks_spec (fat : List MzapEntPhys) (hfat : (fat.map (·.mzeName)).Nodup)
    (cs : List Chunk) :
    ∃ as, as <+: cs ∧ Addable fat as ∧ (addChunks fat cs).2 = fat ++ entries as ∧
      ∀ bs, bs <+: cs → Addable fat bs → bs <+: as := by
  induction cs generalizing fat with
  | nil =>
    exact ⟨[], prefix_rfl, addable_nil.mpr hfat, (append_nil _).symm, fun bs hbs _ => hbs⟩
  | cons c cs ih =>
    by_cases hlive : c.live
    · rw [addChunks, if_neg (by rw [hlive]; decide)]
      obtain ⟨hok, hfail⟩ := fzapAddCd_spec fat c
      by_cases hadd : c.mzeName ∉ fat.map (·.mzeName) ∧ c.creates
      · have hfat' : ((fat ++ [c.toMzapEntPhys]).map (·.mzeName)).Nodup := by
          rw [map_append, map_singleton]
          exact nodup_append.mpr ⟨hfat, nodup_singleton _, fun x hx y hy hxy =>
            hadd.1 (mem_singleton.mp hy ▸ hxy ▸ hx)⟩
        obtain ⟨as, hpre, haddable, hadded, hmax⟩ := ih _ hfat'
        refine ⟨c :: as, (prefix_cons_inj c).mpr hpre,
          (addable_cons_of_live hlive).mpr ⟨hadd, haddable⟩, ?_, ?_⟩
        · rw [entries_cons_of_live hlive, append_cons, hok hadd]
          exact hadded
        · rintro (_ | ⟨b, bs⟩) hbs hb
          · exact nil_prefix
          obtain ⟨rfl, htail⟩ := cons_prefix_cons.mp hbs
          exact (prefix_cons_inj b).mpr (hmax bs htail ((addable_cons_of_live hlive).mp hb).2)
      · obtain ⟨err, hne, hfailed⟩ := hfail hadd
        refine ⟨[], nil_prefix, addable_nil.mpr hfat, ?_, ?_⟩
        · rw [hfailed]
          exact (congrArg Prod.snd (if_pos hne)).trans (append_nil _).symm
        · rintro (_ | ⟨b, bs⟩) hbs hb
          · exact nil_prefix
          obtain ⟨rfl, htail⟩ := cons_prefix_cons.mp hbs
          exact absurd ((addable_cons_of_live hlive).mp hb).1 hadd
    · obtain ⟨as, hpre, haddable, hadded, hmax⟩ := ih fat hfat
      refine ⟨c :: as, (prefix_cons_inj c).mpr hpre,
        (addable_cons_of_free hlive).mpr haddable, ?_, ?_⟩
      · rw [addChunks, if_pos (by simpa using hlive), entries_cons_of_free hlive]
        exact hadded
      · rintro (_ | ⟨b, bs⟩) hbs hb
        · exact nil_prefix
        obtain ⟨rfl, htail⟩ := cons_prefix_cons.mp hbs
        exact (prefix_cons_inj b).mpr (hmax bs htail ((addable_cons_of_free hlive).mp hb))

/-- **UPGRADE**: nothing is lost unnoticed just if the block size cannot be set, or every entry is
    among chunks from the front none of which fails to be added. -/
theorem mzap_upgrade_lossless_iff (setBlocksize : ℕ) (chunks : List Chunk) :
    NothingLost chunks (mzapUpgrade setBlocksize chunks) ↔
      setBlocksize ≠ 0 ∨ ∃ as, as <+: chunks ∧ Addable [] as ∧
        ∀ c ∈ chunks, c.live → c.toMzapEntPhys ∈ entries as := by
  obtain ⟨as, hpre, haddable, hadded, hmax⟩ := addChunks_spec [] nodup_nil chunks
  rw [nil_append] at hadded
  by_cases hset : setBlocksize = 0
  · have hup : mzapUpgrade setBlocksize chunks = (0, some (entries as)) := by
      rw [mzapUpgrade, hset, ← hadded]
      rfl
    rw [hup, NothingLost]
    constructor
    · intro h
      obtain ⟨fat, hfat, hall⟩ := h rfl
      cases hfat
      exact .inr ⟨as, hpre, haddable, hall⟩
    · rintro (hne | ⟨bs, hbs, hb, hall⟩) -
      · exact absurd hset hne
      · refine ⟨entries as, rfl, fun c hc hlive => ?_⟩
        obtain ⟨d, hd, hdlive, heq⟩ := mem_entries.mp (hall c hc hlive)
        exact mem_entries.mpr ⟨d, (hmax bs hbs hb).subset hd, hdlive, heq⟩
  · have hup : mzapUpgrade setBlocksize chunks = (setBlocksize, none) := if_pos hset
    rw [hup]
    exact ⟨fun _ => .inl hset, fun _ h => absurd h hset⟩

/-- Two entries, `a` and `b`; the leaf for `b` cannot be read (`EIO`). -/
def unreadableLeaf : List Chunk :=
  [⟨⟨[97], 1, 0⟩, 0, .created⟩, ⟨⟨[], 0, 0⟩, 0, .created⟩, ⟨⟨[98], 2, 0⟩, 5, .created⟩]

/-- `mzap_upgrade` returns 0 with `a` alone in the zap. -/
theorem mzap_upgrade_loses : mzapUpgrade 0 unreadableLeaf = (0, some [⟨[97], 1, 0⟩]) ∧
    ¬ NothingLost unreadableLeaf (mzapUpgrade 0 unreadableLeaf) := by
  have hup : mzapUpgrade 0 unreadableLeaf = (0, some [⟨[97], 1, 0⟩]) := by decide
  refine ⟨hup, fun h => ?_⟩
  obtain ⟨fat, hfat, hall⟩ := h (congrArg Prod.fst hup)
  rw [hup] at hfat
  cases hfat
  exact absurd (hall ⟨⟨[98], 2, 0⟩, 5, .created⟩ (by simp [unreadableLeaf]) rfl) (by decide)

end Sirius.Zap
