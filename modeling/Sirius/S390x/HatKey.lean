import Mathlib.Data.List.Basic
import Sirius.S390x.Pte

/-! # Change bits of the s390x HAT

    The hardware records a store in the storage key of the frame, not in the entry it went
    through.  `hati_sync_key` copies the key to `p_nrm` of the page; loading a mapping sets
    the key afresh, and the zeroing forms of `hat_sync` and `hat_pagesync` clear it.  The
    model follows which of these leave a store on record.

    Tables are what they hold: an entry for every address of every hat.  The mapping list of a
    page is in the order of `hment_walk`. -/

namespace Sirius.Hat

open Function List Option Bool

variable {H : Type} [DecidableEq H]

/-- The storage key of a frame: `SK_REF` and `SK_MOD`. -/
structure Key where
  ref : Bool
  mod : Bool
  deriving DecidableEq

/-- `p_nrm` of a page, and sets of its bits: `P_REF`, `P_MOD` and `P_RO`. -/
structure Nrm where
  ref : Bool
  mod : Bool
  ro : Bool
  deriving DecidableEq

/-- What does not change meanwhile: the hats in `HAT_FREEING`, the pages of `VMODSORT`
    vnodes, and `po_share`. -/
structure Machine (H : Type) where
  freeing : H → Bool
  vmodsort : ℕ → Bool
  poShare : ℕ

/-- The entry of each page of each hat, the mapping lists, keys and pages; `stored` marks
    the pages that have been stored to through a mapping whose bits are to be synced, since
    `P_MOD` was last cleared. -/
structure State (H : Type) where
  pte : H × ℕ → Pte
  mapping : ℕ → List (H × ℕ)
  key : ℕ → Key
  nrm : ℕ → Nrm
  stored : ℕ → Bool

/-- The flags of `hat_sync` and `hat_pagesync`. -/
structure SyncFlags where
  zerorm : Bool
  stoponRef : Bool
  stoponMod : Bool
  stoponShared : Bool
  deriving DecidableEq

/-- `HAT_SYNC_ZERORM` alone. -/
def syncZerorm : SyncFlags := ⟨true, false, false, false⟩

/-! ## The functions of `hat_s390x.c` -/

/-- `SET_KEY`, and with the key zero `CLR_KEY`. -/
def setKey (f : ℕ) (k : Key) (s : State H) : State H := { s with key := update s.key f k }

def putPte (a : H × ℕ) (p : Pte) (s : State H) : State H := { s with pte := update s.pte a p }

def hatPageSetattr (p : ℕ) (flag : Nrm) (s : State H) : State H :=
  { s with nrm := update s.nrm p ⟨(s.nrm p).ref || flag.ref, (s.nrm p).mod || flag.mod,
    (s.nrm p).ro || flag.ro⟩ }

def hatiSyncKey (p : ℕ) (pte : Pte) (s : State H) : State H :=
  if pte.nosync then s
  else hatPageSetattr p ⟨(s.key pte.frame).ref, (s.key pte.frame).mod, false⟩ s

/-- `s390xpte_set`: an entry that is equivalent already is not written, and is reported as
    the new one. -/
def s390xpteSet (a : H × ℕ) (new : Pte) (s : State H) : Pte × State H :=
  if pteEquiv (s.pte a) new 0 then (new, s) else (s.pte a, putPte a new s)

def s390xpteUpdate (a : H × ℕ) (new : Pte) (s : State H) : State H :=
  if pteEquiv (s.pte a) new 0 then s else putPte a new s

/-- The key that `hati_mkpte` gives the frame of a new mapping. -/
def mkpteKey (attr : Attr) (noconsist : Bool) : Key :=
  if noconsist || attr.nosync then ⟨true, true⟩ else ⟨false, false⟩

/-- `hati_pte_map`.  After a remap to another frame the entry just written goes through
    `ipte`, which sets its invalid bit. -/
def hatiPteMap (m : Machine H) (a : H × ℕ) (p : ℕ) (pte : Pte) (noconsist : Bool)
    (s : State H) : State H :=
  let (old, s) := s390xpteSet a pte s
  if pteSame pte old 0 then s
  else if !pteIsvalid old 0 then
    if noconsist then s else { s with mapping := update s.mapping p (a :: s.mapping p) }
  else if m.freeing a.1 then s
  else putPte a (pte.set ptInvalid) s

def hatMemload (m : Machine H) (a : H × ℕ) (p : ℕ) (attr : Attr) (noconsist : Bool)
    (s : State H) : State H :=
  hatiPteMap m a p (hatiMkpte p attr noconsist) noconsist (setKey p (mkpteKey attr noconsist) s)

/-- `hment_remove`, which does not come back for a mapping that is not listed. -/
def hmentRemove (p : ℕ) (a : H × ℕ) (s : State H) : Option (State H) :=
  if a ∈ s.mapping p then
    some { s with mapping := update s.mapping p ((s.mapping p).erase a) }
  else none

/-- `hat_pte_unmap`; `nosync` is `HAT_UNLOAD_NOSYNC`. -/
def hatPteUnmap (m : Machine H) (nosync : Bool) (s : State H) (a : H × ℕ) : Option (State H) :=
  let old := s.pte a
  if !pteIsvalid old 0 then some s
  else
    let s := if m.freeing a.1 then s else putPte a (invalidated old) s
    if old.noconsist then some s
    else hmentRemove old.frame a (if nosync then s else hatiSyncKey old.frame old s)

/-- The addresses of `n` pages from `v` on. -/
def pages (h : H) (v n : ℕ) : List (H × ℕ) := (range' v n).map (h, ·)

def hatUnload (m : Machine H) (h : H) (v n : ℕ) (nosync : Bool) (s : State H) : Option (State H) :=
  (pages h v n).foldlM (hatPteUnmap m nosync) s

/-- `hati_page_unmap`, whose panic is `none`. -/
def hatiPageUnmap (p : ℕ) (s : State H) (a : H × ℕ) : Option (State H) :=
  let old := s.pte a
  if old.frame = p then hmentRemove p a (hatiSyncKey p old (putPte a (invalidated old) s))
  else none

/-- `hat_pageunload`: the mappings are taken from the head of the list until it is empty. -/
def hatPageunload (p : ℕ) (s : State H) : Option (State H) :=
  (s.mapping p).foldlM (hatiPageUnmap p) s

/-- One mapping of `hat_sync`. -/
def syncOne (flags : SyncFlags) (s : State H) (a : H × ℕ) : State H :=
  let pte := s.pte a
  if !pteIsvalid pte 0 then s
  else if pte.nosync then s
  else if flags = syncZerorm then setKey pte.frame ⟨false, false⟩ s
  else hatiSyncKey pte.frame pte s

def hatSync (h : H) (v n : ℕ) (flags : SyncFlags) (s : State H) : State H :=
  (pages h v n).foldl (syncOne flags) s

/-- The walk of `hat_pagesync` may end at a page on record. -/
def stopsAt (flags : SyncFlags) (r : Nrm) : Bool :=
  flags.stoponMod && r.mod || flags.stoponRef && r.ref

/-- The walk of `hat_pagesync`. -/
def pagesyncWalk (p : ℕ) (flags : SyncFlags) : List (H × ℕ) → State H → State H
  | [], s => s
  | a :: rest, s =>
    let pte := s.pte a
    let s :=
      if flags.zerorm then
        hatPageSetattr p ⟨false, false, false⟩ (setKey pte.frame ⟨false, false⟩ s)
      else hatiSyncKey p pte s
    if stopsAt flags (s.nrm p) then s else pagesyncWalk p flags rest s

/-- `hat_pagesync`; it returns the bits of the page as they then are. -/
def hatPagesync (m : Machine H) (p : ℕ) (flags : SyncFlags) (s : State H) : State H :=
  if (s.nrm p).ro && flags.stoponMod then s
  else if !flags.zerorm && (flags.stoponRef && (s.nrm p).ref) then s
  else if !flags.zerorm && (flags.stoponMod && (s.nrm p).mod) then s
  else if !flags.zerorm && (flags.stoponShared && decide (m.poShare < (s.mapping p).length))
  then if (s.nrm p).ro then hatPageSetattr p ⟨true, false, false⟩ s else s
  else pagesyncWalk p flags (s.mapping p) s

/-- One mapping of `hati_page_clrwrt`. -/
def clrwrtOne (s : State H) (a : H × ℕ) : State H :=
  let pte := s.pte a
  if pteIsvalid pte 0 && pte.get ptWritable != 0 then
    s390xpteUpdate a ((pte.clr ptWritable).set pgProtect) s
  else s

def hatiPageClrwrt (p : ℕ) (s : State H) : State H :=
  setKey p ⟨false, false⟩ ((s.mapping p).foldl clrwrtOne s)

/-- `hat_page_clrattr`.  With `P_MOD` the record of stores starts again. -/
def hatPageClrattr (m : Machine H) (p : ℕ) (flag : Nrm) (s : State H) : State H :=
  let s : State H :=
    { s with
      nrm := update s.nrm p ⟨(s.nrm p).ref && !flag.ref, (s.nrm p).mod && !flag.mod,
        (s.nrm p).ro && !flag.ro⟩
      stored := update s.stored p (s.stored p && !flag.mod) }
  if flag.mod && m.vmodsort p then hatiPageClrwrt p s else s

/-- A store by a CPU, which needs a valid entry without protection. -/
def store (a : H × ℕ) (s : State H) : Option (State H) :=
  let pte := s.pte a
  if pteIsvalid pte 0 && pte.get pgProtect == 0 then
    some { setKey pte.frame ⟨true, true⟩ s with
      stored := update s.stored pte.frame (s.stored pte.frame || !pte.nosync) }
  else none

def fetch (a : H × ℕ) (s : State H) : Option (State H) :=
  let pte := s.pte a
  if pteIsvalid pte 0 then some (setKey pte.frame ⟨true, (s.key pte.frame).mod⟩ s) else none

inductive Event (H : Type)
  | store (a : H × ℕ)
  | fetch (a : H × ℕ)
  | memload (a : H × ℕ) (p : ℕ) (attr : Attr) (noconsist : Bool)
  | unload (h : H) (v n : ℕ) (nosync : Bool)
  | pageunload (p : ℕ)
  | sync (h : H) (v n : ℕ) (flags : SyncFlags)
  | pagesync (p : ℕ) (flags : SyncFlags)
  | setattr (p : ℕ) (flag : Nrm)
  | clrattr (p : ℕ) (flag : Nrm)

def step (m : Machine H) (s : State H) : Event H → Option (State H)
  | .store a => store a s
  | .fetch a => fetch a s
  | .memload a p attr noconsist => some (hatMemload m a p attr noconsist s)
  | .unload h v n nosync => hatUnload m h v n nosync s
  | .pageunload p => hatPageunload p s
  | .sync h v n flags => some (hatSync h v n flags s)
  | .pagesync p flags => some (hatPagesync m p flags s)
  | .setattr p flag => some (hatPageSetattr p flag s)
  | .clrattr p flag => some (hatPageClrattr m p flag s)

def run (m : Machine H) (s : State H) : List (Event H) → Option (State H)
  | [] => some s
  | e :: es => (step m s e).bind (run m · es)

/-- Nothing is mapped and nothing has been stored yet; keys and pages are as they are. -/
def start (key : ℕ → Key) (nrm : ℕ → Nrm) : State H :=
  ⟨fun _ => ⟨0, ptInvalid⟩, fun _ => [], key, nrm, fun _ => false⟩

/-- Every page stored to is on record, in its key or in `p_nrm`. -/
def Remembered (s : State H) : Prop :=
  ∀ p, s.stored p = true → (s.key p).mod = true ∨ (s.nrm p).mod = true

def cleared (s : State H) : Event H → List ℕ
  | .memload _ p attr noconsist => if noconsist || attr.nosync then [] else [p]
  | .sync h v n flags =>
    if flags = syncZerorm then
      ((pages h v n).filter fun a => pteIsvalid (s.pte a) 0 && !(s.pte a).nosync).map
        fun a => (s.pte a).frame
    else []
  | .pagesync p flags =>
    if flags.zerorm && !((s.nrm p).ro && flags.stoponMod) then
      ((s.mapping p).take (if stopsAt flags (s.nrm p) then 1 else (s.mapping p).length)).map
        fun a => (s.pte a).frame
    else []
  | _ => []

/-- A step loses no store: what it clears is in `p_nrm`, or was not stored to. -/
def Safe (s : State H) (e : Event H) : Prop :=
  ∀ f ∈ cleared s e, s.stored f = true → (s.nrm f).mod = true

instance (s : State H) (e : Event H) : Decidable (Safe s e) :=
  inferInstanceAs (Decidable (∀ f ∈ cleared s e, _))

def SafeRun (m : Machine H) (s : State H) : List (Event H) → Prop
  | [] => True
  | e :: es => Safe s e ∧ ∀ s' ∈ step m s e, SafeRun m s' es

def SafeRun.decide (m : Machine H) : ∀ (es : List (Event H)) (s : State H),
    Decidable (SafeRun m s es)
  | [], _ => inferInstanceAs (Decidable True)
  | e :: es, s =>
    have : DecidablePred (SafeRun m · es) := SafeRun.decide m es
    inferInstanceAs (Decidable (Safe s e ∧ ∀ s' ∈ step m s e, SafeRun m s' es))

instance (m : Machine H) (s : State H) (es : List (Event H)) : Decidable (SafeRun m s es) :=
  SafeRun.decide m es s

/-- Both records only grow, and no store is added or taken back. -/
structure Keeps (s s' : State H) : Prop where
  stored : s'.stored = s.stored
  nrm : ∀ f, (s.nrm f).mod = true → (s'.nrm f).mod = true
  key : ∀ f, (s.key f).mod = true → (s'.key f).mod = true

variable {s s' t u : State H} {a : H × ℕ} {p : ℕ} {m : Machine H} {flags : SyncFlags}

section

omit [DecidableEq H]

theorem Keeps.refl (s : State H) : Keeps s s := ⟨rfl, fun _ => id, fun _ => id⟩

theorem Keeps.trans (h : Keeps s t) (h' : Keeps t u) : Keeps s u :=
  ⟨h'.stored.trans h.stored, fun f hf => h'.nrm f (h.nrm f hf), fun f hf => h'.key f (h.key f hf)⟩

theorem Keeps.remembered (h : Keeps s s') (hr : Remembered s) : Remembered s' := by
  intro p hp
  rw [h.stored] at hp
  exact (hr p hp).imp (h.key p) (h.nrm p)

theorem keeps_setKey {f : ℕ} {k : Key}
    (h : (s.key f).mod = true → k.mod = true) : Keeps s (setKey f k s) := by
  refine ⟨rfl, fun _ => id, fun g hg => ?_⟩
  by_cases hgf : g = f
  · subst hgf
    rw [show (setKey g k s).key g = k from update_self _ _ _]
    exact h hg
  · rw [show (setKey f k s).key g = s.key g from update_of_ne hgf _ _]
    exact hg

theorem keeps_hatPageSetattr (p : ℕ) (flag : Nrm) (s : State H) :
    Keeps s (hatPageSetattr p flag s) := by
  refine ⟨rfl, fun f hf => ?_, fun _ => id⟩
  by_cases hfp : f = p
  · subst hfp
    rw [show (hatPageSetattr f flag s).nrm f = _ from update_self _ _ _]
    exact or_eq_true_iff.mpr (.inl hf)
  · rw [show (hatPageSetattr p flag s).nrm f = s.nrm f from update_of_ne hfp _ _]
    exact hf

theorem keeps_hatiSyncKey (p : ℕ) (pte : Pte) (s : State H) : Keeps s (hatiSyncKey p pte s) := by
  unfold hatiSyncKey
  split
  · exact .refl s
  · exact keeps_hatPageSetattr _ _ s

theorem keeps_foldlM {f : State H → H × ℕ → Option (State H)}
    (hf : ∀ s a s', f s a = some s' → Keeps s s') {l : List (H × ℕ)}
    (h : l.foldlM f s = some s') : Keeps s s' := by
  induction l generalizing s with
  | nil => exact some.inj h ▸ .refl s
  | cons a l ih =>
    obtain ⟨t, ht, hrest⟩ := bind_eq_some_iff.mp h
    exact (hf s a t ht).trans (ih hrest)

theorem keeps_foldl {f : State H → H × ℕ → State H} (hf : ∀ s a, Keeps s (f s a)) (l : List (H × ℕ))
    (s : State H) : Keeps s (l.foldl f s) := by
  induction l generalizing s with
  | nil => exact .refl s
  | cons a l ih => exact (hf s a).trans (ih (f s a))

theorem keeps_pagesyncWalk (p : ℕ) (hz : flags.zerorm = false) (l : List (H × ℕ))
    (s : State H) : Keeps s (pagesyncWalk p flags l s) := by
  induction l generalizing s with
  | nil => exact .refl s
  | cons a l ih =>
    have hsync := keeps_hatiSyncKey p (s.pte a) s
    simp only [pagesyncWalk, hz, false_eq_true, if_false]
    split
    · exact hsync
    · exact hsync.trans (ih _)

theorem keeps_hatPagesync (hz : flags.zerorm = false)
    (s : State H) : Keeps s (hatPagesync m p flags s) := by
  unfold hatPagesync
  split_ifs
  · exact .refl s
  · exact .refl s
  · exact .refl s
  · exact keeps_hatPageSetattr _ _ s
  · exact .refl s
  · exact keeps_pagesyncWalk p hz _ s

theorem keeps_syncOne (hz : flags ≠ syncZerorm) (s : State H)
    (a : H × ℕ) : Keeps s (syncOne flags s a) := by
  unfold syncOne
  dsimp only
  split
  · exact .refl s
  · split
    · exact .refl s
    · exact keeps_hatiSyncKey _ _ s

end

theorem keeps_putPte (a : H × ℕ) (p : Pte) (s : State H) : Keeps s (putPte a p s) :=
  ⟨rfl, fun _ => id, fun _ => id⟩

theorem keeps_hmentRemove (h : hmentRemove p a s = some s') : Keeps s s' := by
  obtain ⟨-, rfl⟩ := ite_none_right_eq_some.mp h |>.imp_right some.inj
  exact ⟨rfl, fun _ => id, fun _ => id⟩

theorem keeps_hatPteUnmap {nosync : Bool}
    (h : hatPteUnmap m nosync s a = some s') : Keeps s s' := by
  unfold hatPteUnmap at h
  by_cases hv : (!pteIsvalid (s.pte a) 0) = true
  · rw [if_pos hv] at h
    exact some.inj h ▸ .refl s
  rw [if_neg hv] at h
  -- the entry goes first, unless the hat is being freed
  have hput : Keeps s (if m.freeing a.1 then s else putPte a (invalidated (s.pte a)) s) := by
    split
    · exact .refl s
    · exact keeps_putPte _ _ s
  by_cases hc : (s.pte a).noconsist = true
  · rw [if_pos hc] at h
    exact some.inj h ▸ hput
  rw [if_neg hc] at h
  refine hput.trans (Keeps.trans ?_ (keeps_hmentRemove h))
  cases nosync
  · exact keeps_hatiSyncKey _ _ _
  · exact .refl _

theorem keeps_hatiPageUnmap (h : hatiPageUnmap p s a = some s') : Keeps s s' := by
  obtain ⟨-, hr⟩ := ite_none_right_eq_some.mp h
  exact ((keeps_putPte _ _ s).trans (keeps_hatiSyncKey _ _ _)).trans (keeps_hmentRemove hr)

theorem hatiPteMap_records (m : Machine H) (a : H × ℕ) (p : ℕ) (pte : Pte) (noconsist : Bool)
    (s : State H) :
    (hatiPteMap m a p pte noconsist s).key = s.key ∧
      (hatiPteMap m a p pte noconsist s).nrm = s.nrm ∧
      (hatiPteMap m a p pte noconsist s).stored = s.stored := by
  have hset : (s390xpteSet a pte s).2.key = s.key ∧ (s390xpteSet a pte s).2.nrm = s.nrm ∧
      (s390xpteSet a pte s).2.stored = s.stored := by
    unfold s390xpteSet
    split <;> exact ⟨rfl, rfl, rfl⟩
  unfold hatiPteMap
  dsimp only
  split_ifs <;> exact hset

theorem keeps_hatiPteMap (m : Machine H) (a : H × ℕ) (p : ℕ) (pte : Pte) (noconsist : Bool)
    (s : State H) : Keeps s (hatiPteMap m a p pte noconsist s) := by
  obtain ⟨hk, hn, hs⟩ := hatiPteMap_records m a p pte noconsist s
  exact ⟨hs, fun f => by rw [hn]; exact id, fun f => by rw [hk]; exact id⟩

/-! ## Steps that clear change bits -/

section

omit [DecidableEq H]

/-- The change bits of `fs` are cleared and nothing else happens to the records. -/
structure Clears (fs : List ℕ) (s s' : State H) : Prop where
  stored : s'.stored = s.stored
  nrm : s'.nrm = s.nrm
  key : ∀ f, (s'.key f).mod = ((s.key f).mod && !decide (f ∈ fs))

theorem Clears.refl (s : State H) : Clears [] s s := ⟨rfl, rfl, fun f => by simp⟩

theorem Clears.trans {fs gs : List ℕ} (h : Clears fs s t)
    (h' : Clears gs t u) : Clears (fs ++ gs) s u := by
  refine ⟨h'.stored.trans h.stored, h'.nrm.trans h.nrm, fun f => ?_⟩
  rw [h'.key f, h.key f, Bool.and_assoc]
  simp only [mem_append, Bool.decide_or, Bool.not_or]

theorem clears_setKey (f : ℕ) (s : State H) : Clears [f] s (setKey f ⟨false, false⟩ s) := by
  refine ⟨rfl, rfl, fun g => ?_⟩
  by_cases hgf : g = f
  · subst hgf
    rw [show (setKey g ⟨false, false⟩ s).key g = ⟨false, false⟩ from update_self _ _ _]
    simp
  · rw [show (setKey f ⟨false, false⟩ s).key g = s.key g from update_of_ne hgf _ _]
    simp [hgf]

/-- What a clearing step keeps on record is what it clears only where `p_nrm` has it. -/
theorem Clears.remembered_iff {fs : List ℕ} (h : Clears fs s s') (hr : Remembered s) :
    Remembered s' ↔ ∀ f ∈ fs, s.stored f = true → (s.nrm f).mod = true := by
  constructor
  · intro hr' f hf hst
    rcases hr' f (h.stored ▸ hst) with hk | hn
    · rw [h.key f] at hk
      simp [hf] at hk
    · rwa [h.nrm] at hn
  · intro hall p hp
    rw [h.stored] at hp
    rw [h.key p, h.nrm]
    by_cases hpf : p ∈ fs
    · exact .inr (hall p hpf hp)
    · simpa [hpf] using hr p hp

/-- The frames that one mapping of a zeroing `hat_sync` clears. -/
def syncCleared (s : State H) (l : List (H × ℕ)) : List ℕ :=
  (l.filter fun a => pteIsvalid (s.pte a) 0 && !(s.pte a).nosync).map fun a => (s.pte a).frame

theorem clears_syncFold (l : List (H × ℕ)) (s : State H) :
    Clears (syncCleared s l) s (l.foldl (syncOne syncZerorm) s) := by
  induction l generalizing s with
  | nil => exact .refl s
  | cons a l ih =>
    -- the entries are the same all along, so the frames can be read off the first state
    have hpte : (syncOne syncZerorm s a).pte = s.pte := by
      unfold syncOne hatiSyncKey
      dsimp only
      split_ifs <;> rfl
    have hrest := ih (syncOne syncZerorm s a)
    have hsame : syncCleared (syncOne syncZerorm s a) l = syncCleared s l := by
      simp only [syncCleared, hpte]
    rw [hsame] at hrest
    by_cases hv : (pteIsvalid (s.pte a) 0 && !(s.pte a).nosync) = true
    · have hone : syncOne syncZerorm s a = setKey (s.pte a).frame ⟨false, false⟩ s := by
        obtain ⟨h1, h2⟩ := and_eq_true_iff.mp hv
        simp only [not_eq_true'] at h2
        simp [syncOne, h1, h2]
      have hlist : syncCleared s (a :: l) = [(s.pte a).frame] ++ syncCleared s l := by
        rw [syncCleared, filter_cons_of_pos (by exact hv)]
        rfl
      rw [hlist]
      refine Clears.trans ?_ hrest
      rw [hone]
      exact clears_setKey _ s
    · have hone : syncOne syncZerorm s a = s := by
        unfold syncOne
        by_cases h1 : pteIsvalid (s.pte a) 0 = true
        · have h2 : (s.pte a).nosync = true := by simpa [h1] using hv
          simp [h2]
        · simp [h1]
      have hlist : syncCleared s (a :: l) = syncCleared s l := by
        rw [syncCleared, filter_cons_of_neg (by exact hv)]
        rfl
      rw [hlist, foldl_cons, hone]
      rw [hone] at hrest
      exact hrest

theorem hatPageSetattr_none (p : ℕ) (s : State H) :
    hatPageSetattr p ⟨false, false, false⟩ s = s := by
  unfold hatPageSetattr
  simp only [Bool.or_false]
  rw [update_eq_self]

/-- A zeroing walk of `hat_pagesync` goes over the whole list, or stops at its head. -/
theorem clears_pagesyncWalk (p : ℕ) (hz : flags.zerorm = true) (l : List (H × ℕ)) (s : State H) :
    Clears ((l.take (if stopsAt flags (s.nrm p) then 1 else l.length)).map
      fun a => (s.pte a).frame) s (pagesyncWalk p flags l s) := by
  induction l generalizing s with
  | nil =>
    rw [take_nil]
    exact .refl s
  | cons a l ih =>
    have hone := clears_setKey (s.pte a).frame s
    simp only [pagesyncWalk, hz, if_true, hatPageSetattr_none]
    rw [show (setKey (s.pte a).frame ⟨false, false⟩ s).nrm p = s.nrm p from rfl]
    by_cases hst : stopsAt flags (s.nrm p) = true
    · rw [if_pos hst, if_pos hst]
      exact hone
    rw [if_neg hst, if_neg hst, take_length]
    have hrest := ih (setKey (s.pte a).frame ⟨false, false⟩ s)
    rw [show (setKey (s.pte a).frame ⟨false, false⟩ s).nrm p = s.nrm p from rfl,
      if_neg hst, take_length] at hrest
    exact hone.trans hrest

theorem remembered_store (h : store a s = some s') (hr : Remembered s) : Remembered s' := by
  obtain ⟨-, rfl⟩ := ite_none_right_eq_some.mp h |>.imp_right some.inj
  intro p hp
  by_cases hpf : p = (s.pte a).frame
  · subst hpf
    exact .inl (congrArg Key.mod (update_self (s.pte a).frame _ s.key))
  have hk := keeps_setKey (fun _ => rfl : (s.key (s.pte a).frame).mod = true →
    (⟨true, true⟩ : Key).mod = true)
  have hps : s.stored p = true := by
    rw [← hp]
    exact (update_of_ne hpf _ _).symm
  exact (hr p hps).imp (hk.key p) (hk.nrm p)

end

theorem clears_hatMemload (m : Machine H) (a : H × ℕ) (p : ℕ) {attr : Attr} {noconsist : Bool}
    (hs : (noconsist || attr.nosync) = false) (s : State H) :
    Clears [p] s (hatMemload m a p attr noconsist s) := by
  have hkey : mkpteKey attr noconsist = ⟨false, false⟩ := by
    unfold mkpteKey
    rw [hs]
    rfl
  -- the mapping itself touches neither record
  have hmap : ∀ t : State H,
      Clears [] t (hatiPteMap m a p (hatiMkpte p attr noconsist) noconsist t) := by
    intro t
    obtain ⟨hk, hn, hs⟩ := hatiPteMap_records m a p (hatiMkpte p attr noconsist) noconsist t
    exact ⟨hs, hn, fun f => by rw [hk]; simp⟩
  have hall := (clears_setKey p s).trans (hmap _)
  unfold hatMemload
  rw [hkey]
  exact hall

theorem clrwrtFold_records (l : List (H × ℕ)) (s : State H) :
    (l.foldl clrwrtOne s).key = s.key ∧ (l.foldl clrwrtOne s).nrm = s.nrm ∧
      (l.foldl clrwrtOne s).stored = s.stored := by
  induction l generalizing s with
  | nil => exact ⟨rfl, rfl, rfl⟩
  | cons a l ih =>
    have hone : (clrwrtOne s a).key = s.key ∧ (clrwrtOne s a).nrm = s.nrm ∧
        (clrwrtOne s a).stored = s.stored := by
      unfold clrwrtOne s390xpteUpdate
      dsimp only
      split_ifs <;> exact ⟨rfl, rfl, rfl⟩
    obtain ⟨hk, hn, hs⟩ := ih (clrwrtOne s a)
    exact ⟨hk.trans hone.1, hn.trans hone.2.1, hs.trans hone.2.2⟩

theorem remembered_clrattr (m : Machine H) (p : ℕ) (flag : Nrm)
    (hr : Remembered s) : Remembered (hatPageClrattr m p flag s) := by
  have hnrm : (hatPageClrattr m p flag s).nrm = update s.nrm p
      ⟨(s.nrm p).ref && !flag.ref, (s.nrm p).mod && !flag.mod, (s.nrm p).ro && !flag.ro⟩ := by
    unfold hatPageClrattr hatiPageClrwrt
    split_ifs
    · exact (clrwrtFold_records _ _).2.1
    · rfl
  have hstored : (hatPageClrattr m p flag s).stored =
      update s.stored p (s.stored p && !flag.mod) := by
    unfold hatPageClrattr hatiPageClrwrt
    split_ifs
    · exact (clrwrtFold_records _ _).2.2
    · rfl
  have hkey : ∀ q, q ≠ p ∨ flag.mod = false → (hatPageClrattr m p flag s).key q = s.key q := by
    intro q hq
    unfold hatPageClrattr hatiPageClrwrt
    split_ifs with hvm
    · have hqp : q ≠ p := hq.resolve_right (by simp [(and_eq_true_iff.mp hvm).1])
      refine (update_of_ne hqp _ _).trans ?_
      rw [(clrwrtFold_records _ _).1]
    · rfl
  intro q hq
  rw [hstored] at hq
  rw [hnrm]
  by_cases hqp : q = p
  · subst hqp
    rw [update_self] at hq ⊢
    obtain ⟨hst, hmod⟩ := and_eq_true_iff.mp hq
    rw [hkey q (.inr (by simpa using hmod))]
    exact (hr q hst).imp id fun hn => and_eq_true_iff.mpr ⟨hn, hmod⟩
  · rw [update_of_ne hqp] at hq ⊢
    rw [hkey q (.inl hqp)]
    exact hr q hq

/-- **Step lemma**: a step keeps every store on record if and only if it is safe. -/
theorem remembered_step_iff {e : Event H} (h : step m s e = some s')
    (hr : Remembered s) : Remembered s' ↔ Safe s e := by
  -- a step that clears nothing is safe
  have hnone : cleared s e = [] → Remembered s' → (Remembered s' ↔ Safe s e) := by
    intro hc hr'
    refine iff_of_true hr' fun f hf => ?_
    rw [hc] at hf
    exact absurd hf not_mem_nil
  cases e with
  | store a => exact hnone rfl (remembered_store h hr)
  | fetch a =>
    obtain ⟨-, rfl⟩ := ite_none_right_eq_some.mp h |>.imp_right some.inj
    exact hnone rfl (Keeps.remembered (keeps_setKey fun h => h) hr)
  | memload a p attr noconsist =>
    obtain rfl := some.inj h
    by_cases hs : (noconsist || attr.nosync) = true
    · refine hnone (if_pos hs) (Keeps.remembered ?_ hr)
      refine (keeps_setKey fun _ => ?_).trans (keeps_hatiPteMap _ _ _ _ _ _)
      rw [mkpteKey, if_pos hs]
    · have hs' : (noconsist || attr.nosync) = false := by simpa using hs
      rw [(clears_hatMemload m a p hs' s).remembered_iff hr, Safe, cleared, if_neg hs]
  | unload h' v n nosync =>
    exact hnone rfl ((keeps_foldlM (fun _ _ _ => keeps_hatPteUnmap) h).remembered hr)
  | pageunload p =>
    exact hnone rfl ((keeps_foldlM (fun _ _ _ => keeps_hatiPageUnmap) h).remembered hr)
  | sync h' v n flags =>
    obtain rfl := some.inj h
    by_cases hz : flags = syncZerorm
    · subst hz
      rw [hatSync, (clears_syncFold _ s).remembered_iff hr, Safe, cleared]
      rfl
    · exact hnone (if_neg hz) ((keeps_foldl (keeps_syncOne hz) _ s).remembered hr)
  | pagesync p flags =>
    obtain rfl := some.inj h
    cases hz : flags.zerorm with
    | false =>
      refine hnone ?_ ((keeps_hatPagesync hz s).remembered hr)
      simp [cleared, hz]
    | true =>
      by_cases hro : ((s.nrm p).ro && flags.stoponMod) = true
      · refine hnone (by simp [cleared, hro]) ?_
        rw [hatPagesync, if_pos hro]
        exact hr
      have hwalk : hatPagesync m p flags s = pagesyncWalk p flags (s.mapping p) s := by
        simp [hatPagesync, hz, hro]
      have hc : (flags.zerorm && !((s.nrm p).ro && flags.stoponMod)) = true := by
        rw [hz, Bool.true_and, Bool.not_eq_true']
        exact eq_false_iff.mpr hro
      rw [hwalk, (clears_pagesyncWalk p hz _ s).remembered_iff hr, Safe]
      simp only [cleared, hc, if_true]
  | setattr p flag =>
    obtain rfl := some.inj h
    exact hnone rfl ((keeps_hatPageSetattr p flag s).remembered hr)
  | clrattr p flag =>
    obtain rfl := some.inj h
    exact hnone rfl (remembered_clrattr m p flag hr)

/-- **Run lemma**: along a run every store stays on record if and only if every step is safe. -/
theorem remembered_run_iff {es : List (Event H)} (h : run m s es = some t) (hr : Remembered s) :
    (∀ pre u, pre <+: es → run m s pre = some u → Remembered u) ↔ SafeRun m s es := by
  induction es generalizing s with
  | nil =>
    refine iff_of_true (fun pre u hpre hu => ?_) trivial
    rw [prefix_nil.mp hpre] at hu
    exact some.inj hu ▸ hr
  | cons e es ih =>
    obtain ⟨s', hs', hrest⟩ := bind_eq_some_iff.mp h
    constructor
    · intro hall
      have hr' : Remembered s' := hall [e] s' (prefix_append [e] es) (by rw [run, hs']; rfl)
      refine ⟨(remembered_step_iff hs' hr).mp hr', fun u hu => ?_⟩
      obtain rfl : s' = u := some.inj (hs'.symm.trans hu)
      refine (ih hrest hr').mp fun pre v hpre hv => ?_
      refine hall (e :: pre) v (cons_prefix_cons.mpr ⟨rfl, hpre⟩) ?_
      rw [run, hs']
      exact hv
    · rintro ⟨hsafe, hsafes⟩ pre u hpre hu
      cases pre with
      | nil => exact some.inj hu ▸ hr
      | cons e' pre =>
        obtain ⟨rfl, hpre'⟩ := cons_prefix_cons.mp hpre
        rw [run, hs'] at hu
        have hr' := (remembered_step_iff hs' hr).mpr hsafe
        exact (ih hrest hr').mpr (hsafes s' hs') pre u hpre' hu

/-- **HEADLINE**: in every run from a machine with nothing mapped, each page that has been
    stored to since its `P_MOD` was cleared is on record at every moment, if and only if no
    step clears the change bit of a page whose store is recorded nowhere else. -/
theorem no_modification_forgotten_iff (m : Machine H) (key : ℕ → Key) (nrm : ℕ → Nrm)
    (es : List (Event H)) (t : State H) (h : run m (start key nrm) es = some t) :
    (∀ pre u, pre <+: es → run m (start key nrm) pre = some u → Remembered u) ↔
      SafeRun m (start key nrm) es :=
  remembered_run_iff h nofun

/-- A machine with two hats and no pages of `VMODSORT` vnodes. -/
def twoHats : Machine Bool := ⟨fun _ => false, fun _ => false, 8⟩

def cleanPages : State Bool := start (fun _ => ⟨false, false⟩) fun _ => ⟨false, false, false⟩

def loadedAgain : List (Event Bool) :=
  [.memload (false, 0) 7 ⟨false, true, false⟩ false, .store (false, 0),
    .unload false 0 1 false, .memload (true, 0) 7 ⟨false, false, false⟩ false]

/-- The unload has copied the change bit to the page before the second load clears it. -/
theorem unload_first_remembers :
    (run twoHats cleanPages loadedAgain).isSome ∧
      ∀ pre u, pre <+: loadedAgain → run twoHats cleanPages pre = some u → Remembered u := by
  have hsome : (run twoHats cleanPages loadedAgain).isSome := by decide
  obtain ⟨t, ht⟩ := isSome_iff_exists.mp hsome
  exact ⟨hsome, (no_modification_forgotten_iff twoHats _ _ loadedAgain t ht).mpr (by decide)⟩

/-- Frame 7 is mapped and stored to; then another hat maps it as well. -/
def loadedTwice : List (Event Bool) :=
  [.memload (false, 0) 7 ⟨false, true, false⟩ false, .store (false, 0),
    .memload (true, 0) 7 ⟨false, false, false⟩ false]

/-- The second load clears the change bit, and the store is on record nowhere. -/
theorem second_load_forgets :
    ∃ t, run twoHats cleanPages loadedTwice = some t ∧
      t.stored 7 = true ∧ (t.key 7).mod = false ∧ (t.nrm 7).mod = false :=
  ⟨_, rfl, by decide, by decide, by decide⟩

end Sirius.Hat
