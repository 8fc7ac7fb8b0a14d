import Mathlib.Algebra.BigOperators.Group.List.Basic
import Mathlib.Algebra.Order.Ring.Nat

/-! # Lists of block pointers — `bplist.c`

    A bplist is an object of the MOS: an array of block pointers, with a bonus buffer that
    counts them and adds up their sizes.  The bonus buffer and one block are held between
    calls.  Every hold may fail, and `dmu_buf_hold` in two ways: in `dnode_hold`, before it
    touches the pointer that it was given, or later, when it has set it to NULL. -/

namespace Sirius.Bpl

open List

structure Blkptr where
  blkDva : ℕ
  blkProp : ℕ
  blkBirth : ℕ
  blkFill : ℕ
  blkCksum : ℕ
  deriving DecidableEq

def Blkptr.strip (bp : Blkptr) : Blkptr := { bp with blkFill := 0, blkCksum := 0 }

structure Config where
  bpshift : ℕ
  havecomp : Bool
  bpGetDasize : Blkptr → ℕ
  bpGetPsize : Blkptr → ℕ
  bpGetUcsize : Blkptr → ℕ

/-- How a call of `dmu_buf_hold` ends. -/
inductive BufHold
  | ok
  | dnodeHold (err : ℕ)
  | dbufRead (err : ℕ)
  deriving DecidableEq

/-- The holds of one call: an error of `dmu_bonus_hold`, if any, and `dmu_buf_hold`. -/
structure Dmu where
  bonus : Option ℕ
  buf : BufHold

structure Bplist where
  bplLock : Bool
  bplQueue : List Blkptr
  /-- `bpl_dbuf`, and with it `bpl_phys`, is set. -/
  bplDbuf : Bool
  /-- The block that `bpl_cached_dbuf` points to. -/
  bplCachedDbuf : Option ℕ
  /-- The block that is held with this list as its tag. -/
  held : Option ℕ
  bplEntries : ℕ
  bplBytes : ℕ
  bplComp : ℕ
  bplUncomp : ℕ
  bparray : ℕ → ℕ → Blkptr

def enoent : ℕ := 2

def bplistHold (d : Dmu) (bpl : Bplist) : Except ℕ Bplist :=
  if bpl.bplDbuf then .ok bpl
  else match d.bonus with
    | some err => .error err
    | none => .ok { bpl with bplDbuf := true }

/-- `none`: a pointer is followed whose block is not held. -/
def bplistCache (d : Dmu) (bpl : Bplist) (blkid : ℕ) : Option (Except ℕ Unit × Bplist) :=
  if bpl.bplCachedDbuf ≠ none ∧ bpl.held ≠ bpl.bplCachedDbuf then none
  else if bpl.bplCachedDbuf = some blkid then some (.ok (), bpl)
  else match d.buf with
    | .ok => some (.ok (), { bpl with bplCachedDbuf := some blkid, held := some blkid })
    -- the old block is released already
    | .dnodeHold err => some (.error err, { bpl with held := none })
    | .dbufRead err => some (.error err, { bpl with bplCachedDbuf := none, held := none })

/-- The next block pointer and the next position, or an error.  `none`: the lock is taken by
    its owner, or as in `bplistCache`. -/
def bplistIterate (cfg : Config) (d : Dmu) (bpl : Bplist) (itor : ℕ) :
    Option (Except ℕ (Blkptr × ℕ) × Bplist) :=
  if bpl.bplLock then none
  else match bplistHold d bpl with
    | .error err => some (.error err, bpl)
    | .ok bpl =>
      if itor ≥ bpl.bplEntries then some (.error enoent, bpl)
      else (bplistCache d bpl (itor >>> cfg.bpshift)).map fun (r, bpl) =>
        (r.map fun _ => (bpl.bparray (itor >>> cfg.bpshift) (itor % 2 ^ cfg.bpshift), itor + 1),
          bpl)

def append (cfg : Config) (bpl : Bplist) (bp : Blkptr) : Bplist :=
  let blk := bpl.bplEntries >>> cfg.bpshift
  let off := bpl.bplEntries % 2 ^ cfg.bpshift
  { bpl with
    bparray := fun b o => if b = blk ∧ o = off then bp.strip else bpl.bparray b o
    bplEntries := bpl.bplEntries + 1
    bplBytes := (bpl.bplBytes + cfg.bpGetDasize bp) % 2 ^ 64
    bplComp := if cfg.havecomp then (bpl.bplComp + cfg.bpGetPsize bp) % 2 ^ 64 else bpl.bplComp
    bplUncomp :=
      if cfg.havecomp then (bpl.bplUncomp + cfg.bpGetUcsize bp) % 2 ^ 64 else bpl.bplUncomp }

def bplistEnqueue (cfg : Config) (d : Dmu) (bpl : Bplist) (bp : Blkptr) :
    Option (Except ℕ Unit × Bplist) :=
  if bpl.bplLock then none
  else match bplistHold d bpl with
    -- there is no `mutex_exit` on this path
    | .error err => some (.error err, { bpl with bplLock := true })
    | .ok bpl =>
      (bplistCache d bpl (bpl.bplEntries >>> cfg.bpshift)).map fun (r, bpl) =>
        (r, match r with
          | .error _ => bpl
          | .ok _ => append cfg bpl bp)

def bplistEnqueueDeferred (bpl : Bplist) (bp : Blkptr) : Option Bplist :=
  if bpl.bplLock then none else some { bpl with bplQueue := bp :: bpl.bplQueue }

/-- The loop of `bplist_sync`, with the holds of its calls; `none` also when VERIFY fails. -/
def syncLoop (cfg : Config) : List Blkptr → (ℕ → Dmu) → Bplist → Option Bplist
  | [], _, bpl => some bpl
  | bp :: queue, d, bpl =>
    match bplistEnqueue cfg (d 0) { bpl with bplQueue := queue } bp with
    | some (.ok _, bpl) => syncLoop cfg queue (fun n => d (n + 1)) bpl
    | _ => none

def bplistSync (cfg : Config) (d : ℕ → Dmu) (bpl : Bplist) : Option Bplist :=
  if bpl.bplLock then none else syncLoop cfg bpl.bplQueue d bpl

variable {cfg : Config} {bpl : Bplist} {L : List Blkptr} {d : Dmu} {bp : Blkptr}

/-- The list is at rest and has the entries `L`. -/
structure Stores (cfg : Config) (L : List Blkptr) (bpl : Bplist) : Prop where
  unlocked : bpl.bplLock = false
  held : bpl.held = bpl.bplCachedDbuf
  entries : bpl.bplEntries = L.length
  array : ∀ i bp, L[i]? = some bp → bpl.bparray (i >>> cfg.bpshift) (i % 2 ^ cfg.bpshift) = bp.strip
  bytes : bpl.bplBytes = (L.map cfg.bpGetDasize).sum % 2 ^ 64
  comp : cfg.havecomp = true → bpl.bplComp = (L.map cfg.bpGetPsize).sum % 2 ^ 64
    ∧ bpl.bplUncomp = (L.map cfg.bpGetUcsize).sum % 2 ^ 64

/-- `dnode_hold` does not fail while another block is cached. -/
def KeepsHold (d : Dmu) (bpl : Bplist) (blkid : ℕ) : Prop :=
  bpl.bplCachedDbuf = none ∨ bpl.bplCachedDbuf = some blkid ∨ ∀ err, d.buf ≠ .dnodeHold err

section

variable (h : Stores cfg L bpl)

include h

theorem bplistHold_spec :
    (∃ err, bplistHold d bpl = .error err ∧ bpl.bplDbuf = false ∧ d.bonus = some err)
      ∨ ∃ bpl', bplistHold d bpl = .ok bpl' ∧ Stores cfg L bpl' ∧ bpl'.bplQueue = bpl.bplQueue
        ∧ bpl'.bplCachedDbuf = bpl.bplCachedDbuf := by
  rw [bplistHold]
  cases hdb : bpl.bplDbuf with
  | true => exact .inr ⟨bpl, rfl, h, rfl, rfl⟩
  | false =>
    cases hb : d.bonus with
    | some err => exact .inl ⟨err, rfl, rfl, rfl⟩
    | none => exact .inr ⟨{ bpl with bplDbuf := true }, rfl, { h with }, rfl, rfl⟩

theorem bplistCache_spec {blkid : ℕ} (hk : KeepsHold d bpl blkid) :
    ∃ r bpl', bplistCache d bpl blkid = some (r, bpl') ∧ Stores cfg L bpl'
      ∧ bpl'.bplQueue = bpl.bplQueue ∧ (d.buf = .ok → r = .ok ()) := by
  rw [bplistCache, if_neg fun hn => hn.2 h.held]
  split_ifs with hc
  · exact ⟨_, bpl, rfl, h, rfl, fun _ => rfl⟩
  cases hd : d.buf with
  | ok => exact ⟨_, _, rfl, { h with held := rfl }, rfl, fun _ => rfl⟩
  | dnodeHold err =>
    have hnone := hk.resolve_right fun hk => hk.elim hc fun hk => hk err hd
    exact ⟨_, _, rfl, { h with held := hnone.symm }, rfl, nofun⟩
  | dbufRead err => exact ⟨_, _, rfl, { h with held := rfl }, rfl, nofun⟩

theorem append_spec : Stores cfg (L ++ [bp]) (append cfg bpl bp) := by
  refine ⟨h.unlocked, h.held, ?_, ?_, ?_, fun hc => ?_⟩
  · rw [append, h.entries, length_append, length_singleton]
  · intro i bp' hi
    rw [append, h.entries]
    dsimp only
    rcases Nat.lt_trichotomy i L.length with hlt | rfl | hgt
    · rw [getElem?_append_left hlt] at hi
      rw [if_neg, h.array i bp' hi]
      -- block and place determine the index
      rintro ⟨hb, ho⟩
      rw [Nat.shiftRight_eq_div_pow, Nat.shiftRight_eq_div_pow] at hb
      have hi' := Nat.div_add_mod i (2 ^ cfg.bpshift)
      rw [hb, ho, Nat.div_add_mod] at hi'
      exact hlt.ne hi'.symm
    · rw [getElem?_concat_length] at hi
      rw [if_pos ⟨rfl, rfl⟩, Option.some.inj hi]
    · rw [getElem?_eq_none (by rw [length_append]; exact hgt)] at hi
      cases hi
  · simp [append, h.bytes]
  · simp [append, h.comp hc, hc]

theorem bplistEnqueue_spec (hb : bpl.bplDbuf = true ∨ d.bonus = none)
    (hk : KeepsHold d bpl (bpl.bplEntries >>> cfg.bpshift)) :
    ∃ r bpl', bplistEnqueue cfg d bpl bp = some (r, bpl') ∧ bpl'.bplQueue = bpl.bplQueue
      ∧ (d.buf = .ok → r = .ok ())
      ∧ Stores cfg (match r with | .ok _ => L ++ [bp] | .error _ => L) bpl' := by
  rw [bplistEnqueue, if_neg (by rw [h.unlocked]; decide)]
  rcases bplistHold_spec (d := d) h with ⟨err, -, hf, hs⟩ | ⟨bpl₁, heq, h₁, hq, hc⟩
  · rw [hf, hs] at hb
    simp at hb
  rw [heq]
  dsimp only
  rw [h₁.entries, ← h.entries]
  rw [KeepsHold, ← hc] at hk
  obtain ⟨r, bpl₂, heq₂, h₂, hq₂, hr⟩ := bplistCache_spec h₁ hk
  rw [heq₂]
  cases r with
  | ok => exact ⟨_, _, rfl, hq₂.trans hq, hr, append_spec h₂⟩
  | error err => exact ⟨_, _, rfl, hq₂.trans hq, hr, h₂⟩

theorem syncLoop_spec (queue : List Blkptr) {d : ℕ → Dmu}
    (hd : ∀ n, (d n).bonus = none ∧ (d n).buf = .ok) :
    ∃ bpl', syncLoop cfg queue d bpl = some bpl' ∧ Stores cfg (L ++ queue) bpl' := by
  induction queue generalizing d L bpl with
  | nil => exact ⟨bpl, rfl, by rwa [append_nil]⟩
  | cons bp queue ih =>
    have h₀ : Stores cfg L { bpl with bplQueue := queue } := { h with }
    obtain ⟨r, bpl₁, heq, -, hr, h₁⟩ := @bplistEnqueue_spec _ _ _ _ bp h₀ (.inr (hd 0).1)
      (.inr (.inr (by simp [(hd 0).2])))
    obtain rfl := hr (hd 0).2
    obtain ⟨bpl₂, heq₂, h₂⟩ := ih h₁ fun n => hd (n + 1)
    rw [append_assoc] at h₂
    exact ⟨bpl₂, by rw [syncLoop, heq]; exact heq₂, h₂⟩

/-- **ITERATION**: a position below the number of entries has the entry, without fill count
    and checksum, if the holds succeed. -/
theorem bplistIterate_spec (itor : ℕ) (hk : KeepsHold d bpl (itor >>> cfg.bpshift)) :
    ∃ r bpl', bplistIterate cfg d bpl itor = some (r, bpl') ∧ Stores cfg L bpl'
      ∧ bpl'.bplQueue = bpl.bplQueue
      ∧ (∀ x, r = .ok x → L[itor]?.map (fun bp => (bp.strip, itor + 1)) = some x)
      ∧ (d.bonus = none → d.buf = .ok → r = match L[itor]? with
        | some bp => .ok (bp.strip, itor + 1)
        | none => .error enoent) := by
  rw [bplistIterate, if_neg (by rw [h.unlocked]; decide)]
  rcases bplistHold_spec (d := d) h with ⟨err, heq, -, hs⟩ | ⟨bpl₁, heq, h₁, hq, hc⟩
  · rw [heq]
    exact ⟨_, _, rfl, h, rfl, nofun, fun hn => nomatch hs.symm.trans hn⟩
  rw [heq]
  dsimp only
  rw [h₁.entries]
  split_ifs with hi
  · rw [getElem?_eq_none hi]
    exact ⟨_, _, rfl, h₁, hq, nofun, fun _ _ => rfl⟩
  obtain ⟨bp, hbp⟩ : ∃ bp, L[itor]? = some bp := ⟨_, getElem?_eq_getElem (not_le.mp hi)⟩
  rw [KeepsHold, ← hc] at hk
  obtain ⟨r, bpl₂, heq₂, h₂, hq₂, hr⟩ := bplistCache_spec h₁ hk
  rw [heq₂, hbp]
  refine ⟨_, _, rfl, h₂, hq₂.trans hq, ?_, ?_⟩
  · rintro x hx
    cases r with
    | ok => rw [← Except.ok.inj hx, h₂.array itor bp hbp]; rfl
    | error err => cases hx
  · intro _ hd
    rw [hr hd]
    dsimp only
    rw [← h₂.array itor bp hbp]
    rfl

end

inductive Op
  | enqueue (d : Dmu) (bp : Blkptr)
  | enqueueDeferred (bp : Blkptr)
  | sync (d : ℕ → Dmu)
  | iterate (d : Dmu) (itor : ℕ)

abbrev World := Bplist × List Blkptr

def step (cfg : Config) (w : World) : Op → Option World
  | .enqueue d bp => (bplistEnqueue cfg d w.1 bp).map fun (r, bpl) =>
    (bpl, match r with | .ok _ => w.2 ++ [bp] | .error _ => w.2)
  | .enqueueDeferred bp => (bplistEnqueueDeferred w.1 bp).map (·, w.2)
  | .sync d => (bplistSync cfg d w.1).map (·, w.2 ++ w.1.bplQueue.reverse)
  | .iterate d itor => (bplistIterate cfg d w.1 itor).map fun r => (r.2, w.2)

def Allowed (cfg : Config) (bpl : Bplist) : Op → Prop
  | .enqueue d _ => (bpl.bplDbuf = true ∨ d.bonus = none)
    ∧ KeepsHold d bpl (bpl.bplEntries >>> cfg.bpshift)
  | .enqueueDeferred _ => True
  | .sync d => bpl.bplQueue.reverse = bpl.bplQueue ∧ ∀ n, (d n).bonus = none ∧ (d n).buf = .ok
  | .iterate d itor => KeepsHold d bpl (itor >>> cfg.bpshift)

theorem step_spec {w : World} {op : Op} (h : Stores cfg w.2 w.1) (hop : Allowed cfg w.1 op) :
    ∃ w', step cfg w op = some w' ∧ Stores cfg w'.2 w'.1 := by
  obtain ⟨bpl, L⟩ := w
  cases op with
  | enqueue d bp =>
    obtain ⟨r, bpl', heq, -, -, h'⟩ := @bplistEnqueue_spec _ _ _ _ bp h hop.1 hop.2
    exact ⟨_, by rw [step, heq]; rfl, h'⟩
  | enqueueDeferred bp =>
    refine ⟨({ bpl with bplQueue := bp :: bpl.bplQueue }, L), ?_, { h with }⟩
    rw [step, bplistEnqueueDeferred, if_neg (by rw [h.unlocked]; decide)]
    rfl
  | sync d =>
    obtain ⟨bpl', heq, h'⟩ := syncLoop_spec h bpl.bplQueue hop.2
    refine ⟨(bpl', L ++ bpl.bplQueue.reverse), ?_, by rwa [hop.1]⟩
    rw [step, bplistSync, if_neg (by rw [h.unlocked]; decide)]
    exact congrArg (Option.map _) heq
  | iterate d itor =>
    obtain ⟨r, bpl', heq, h', -⟩ := bplistIterate_spec h itor hop
    exact ⟨_, by rw [step, heq]; rfl, h'⟩

/-- The states of the runs from `w` whose steps are allowed. -/
inductive Reachable (cfg : Config) (w : World) : World → Prop
  | start : Reachable cfg w w
  | step {w₁ w₂ : World} (op : Op) : Reachable cfg w w₁ → Allowed cfg w₁.1 op →
      step cfg w₁ op = some w₂ → Reachable cfg w w₂

theorem Reachable.stores {w w' : World} (h : Stores cfg w.2 w.1) (hr : Reachable cfg w w') :
    Stores cfg w'.2 w'.1 := by
  induction hr with
  | start => exact h
  | step op _ hop hstep ih =>
    obtain ⟨w₂, hw₂, h₂⟩ := step_spec ih hop
    rw [hstep] at hw₂
    exact Option.some.inj hw₂ ▸ h₂

/-- **HEADLINE**: in every run in which no enqueue fails to hold the bonus buffer, `dnode_hold`
    does not fail while another block is cached, and what a sync finds deferred is the same
    in reverse (one entry, say) and its holds succeed, each call returns, with the lock
    released and the held block cached; the list has what has been enqueued, in order, and the
    sums of its sizes; a failed enqueue leaves it as it was; and iteration yields it. -/
theorem bplist_all_or_nothing {w w' : World} (h : Stores cfg w.2 w.1) (hr : Reachable cfg w w') :
    Stores cfg w'.2 w'.1
      ∧ (∀ op, Allowed cfg w'.1 op → ∃ w'', step cfg w' op = some w'')
      ∧ (∀ d bp, Allowed cfg w'.1 (.enqueue d bp) → ∃ r bpl,
        bplistEnqueue cfg d w'.1 bp = some (r, bpl) ∧ bpl.bplQueue = w'.1.bplQueue
          ∧ Stores cfg (match r with | .ok _ => w'.2 ++ [bp] | .error _ => w'.2) bpl)
      ∧ ∀ d itor, KeepsHold d w'.1 (itor >>> cfg.bpshift) →
        ∃ r bpl, bplistIterate cfg d w'.1 itor = some (r, bpl)
          ∧ (∀ x, r = .ok x → w'.2[itor]?.map (fun bp => (bp.strip, itor + 1)) = some x)
          ∧ (d.bonus = none → d.buf = .ok → r = match w'.2[itor]? with
            | some bp => .ok (bp.strip, itor + 1)
            | none => .error enoent) := by
  have h' := hr.stores h
  refine ⟨h', fun op hop => ?_, fun d bp hop => ?_, fun d itor hk => ?_⟩
  · obtain ⟨w'', hw'', -⟩ := step_spec h' hop
    exact ⟨w'', hw''⟩
  · obtain ⟨r, bpl, heq, hq, -, h''⟩ := @bplistEnqueue_spec _ _ _ _ bp h' hop.1 hop.2
    exact ⟨r, bpl, heq, hq, h''⟩
  · obtain ⟨r, bpl, heq, -, -, hx, hok⟩ := bplistIterate_spec h' itor hk
    exact ⟨r, bpl, heq, hx, hok⟩

def small : Config := ⟨1, true, Blkptr.blkDva, Blkptr.blkProp, Blkptr.blkProp⟩

def opened : Bplist := ⟨false, [], false, none, none, 0, 0, 0, 0, fun _ _ => ⟨0, 0, 0, 0, 0⟩⟩

def works : Dmu := ⟨none, .ok⟩

/-- Two entries fill block 0; the third cannot read block 1, is deferred and synced. -/
def openedOps : List Op :=
  [.enqueue works ⟨7, 3, 1, 5, 9⟩, .enqueue works ⟨8, 3, 1, 5, 9⟩,
    .enqueue ⟨none, .dbufRead 5⟩ ⟨9, 3, 1, 5, 9⟩, .enqueueDeferred ⟨9, 3, 1, 5, 9⟩,
    .sync fun _ => works]

/-- The entries are in order, and reading the first one back replaces the held block. -/
theorem bplist_all_or_nothing_opened :
    ∃ w, openedOps.foldlM (step small) (opened, []) = some w
      ∧ w.2 = [⟨7, 3, 1, 5, 9⟩, ⟨8, 3, 1, 5, 9⟩, ⟨9, 3, 1, 5, 9⟩] ∧ w.1.held = some 1
      ∧ Stores small w.2 w.1
      ∧ (bplistIterate small works w.1 0).map Prod.fst = some (.ok (⟨7, 3, 1, 0, 0⟩, 1)) := by
  have h0 : Stores small [] opened := ⟨rfl, rfl, rfl, nofun, rfl, fun _ => ⟨rfl, rfl⟩⟩
  have h1 : Reachable small (opened, []) _ :=
    .step (.enqueue works ⟨7, 3, 1, 5, 9⟩) .start ⟨.inr rfl, .inl rfl⟩ rfl
  have h2 := h1.step (.enqueue works ⟨8, 3, 1, 5, 9⟩) ⟨.inl rfl, .inr (.inl rfl)⟩ rfl
  have h3 := h2.step (.enqueue ⟨none, .dbufRead 5⟩ ⟨9, 3, 1, 5, 9⟩)
    ⟨.inl rfl, .inr (.inr nofun)⟩ rfl
  have h4 := h3.step (.enqueueDeferred ⟨9, 3, 1, 5, 9⟩) trivial rfl
  have h5 := h4.step (.sync fun _ => works) ⟨rfl, fun _ => ⟨rfl, rfl⟩⟩ rfl
  obtain ⟨hstores, -, -, hiter⟩ := bplist_all_or_nothing h0 h5
  obtain ⟨r, bpl, heq, -, hok⟩ := hiter works 0 (.inr (.inr nofun))
  refine ⟨_, rfl, rfl, rfl, hstores, ?_⟩
  rw [hok rfl rfl] at heq
  exact congrArg (Option.map Prod.fst) heq

/-- **THREE FAULTS**: an enqueue that cannot hold the bonus buffer returns with the lock; one
    that cannot hold the dnode keeps a pointer to a block that it has released; and entries
    that are deferred together are enqueued in reverse. -/
theorem failed_hold_keeps_lock :
    (bplistEnqueue small ⟨some 5, .ok⟩ opened ⟨7, 3, 1, 5, 9⟩).map (fun r => r.2.bplLock) =
    some true
      ∧ (bplistEnqueue small ⟨none, .dnodeHold 5⟩
          { opened with bplEntries := 2, bplCachedDbuf := some 0, held := some 0 }
          ⟨7, 3, 1, 5, 9⟩).map (fun r => (r.2.bplCachedDbuf, r.2.held)) = some (some 0, none)
      ∧ (((bplistEnqueueDeferred opened ⟨7, 3, 1, 5, 9⟩).bind
          (bplistEnqueueDeferred · ⟨8, 3, 1, 5, 9⟩)).bind (bplistSync small fun _ => works)).map
          (fun bpl => (bpl.bparray 0 0, bpl.bparray 0 1))
        = some (⟨8, 3, 1, 0, 0⟩, ⟨7, 3, 1, 0, 0⟩) := ⟨rfl, rfl, rfl⟩

end Sirius.Bpl
