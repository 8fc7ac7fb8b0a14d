import Mathlib.Algebra.BigOperators.Ring.Finset
import Mathlib.Algebra.Group.Pi.Lemmas
import Mathlib.Data.BitVec
import Mathlib.Tactic.FinCases
import Mathlib.Tactic.LinearCombination
import Mathlib.Tactic.Ring
import Sirius.Lib.Forest

/-! # The space tree of the dsl directories

    `dsl_dir_diduse_space`, `dsl_dir_set_reservation_sync`, `dsl_dir_rename_sync` and
    `would_change` over a tree of directories.  The counters are 64-bit words; a signed delta is
    its bit pattern.  A directory counts in its parent with the larger of what it uses and what
    it reserves, so a delta changes size at each level on its way up. -/

namespace Sirius.DslDir

open Sirius.Lib List Option Function Nat

abbrev Word := BitVec 64

/-- `MAX(a, b)` of two `uint64_t`. -/
def umax (a b : Word) : Word := if a < b then b else a

theorem toNat_umax (a b : Word) : (umax a b).toNat = max a.toNat b.toNat := by
  rw [umax]
  split
  · next h => rw [Nat.max_eq_right (Nat.le_of_lt h)]
  · next h => rw [max_eq_left (Nat.le_of_not_lt h)]

structure Dir where
  used : Word
  reserved : Word
  compressed : Word
  uncompressed : Word
  deriving DecidableEq

def Dir.accounted (d : Dir) : Word := umax d.used d.reserved

/-- The open directories of a pool: their counters and `dd_parent`. -/
structure Pool (D : Type*) where
  dir : D → Dir
  parent : D → Option D

variable {D : Type*} [DecidableEq D] {fuel : Nat}

def Pool.setDir (s : Pool D) (dd : D) (x : Dir) : Pool D := { s with dir := update s.dir dd x }

@[simp] theorem Pool.setDir_parent (s : Pool D) (dd : D) (x : Dir) :
    (s.setDir dd x).parent = s.parent := rfl

@[simp] theorem Pool.setDir_self (s : Pool D) (dd : D) (x : Dir) : (s.setDir dd x).dir dd = x :=
  update_self ..

theorem Pool.setDir_of_ne (s : Pool D) {dd a : D} (x : Dir) (h : a ≠ dd) :
    (s.setDir dd x).dir a = s.dir a :=
  update_of_ne h ..

theorem Pool.setDir_of_not_mem (s : Pool D) {dd a : D} {l : List D} (x : Dir) (hd : dd ∈ l)
    (ha : a ∉ l) : (s.setDir dd x).dir a = s.dir a :=
  s.setDir_of_ne x fun he => ha (he ▸ hd)

def parentDelta (dd : Dir) (used delta : Word) : Word :=
  let oldAccounted := umax used dd.reserved
  let newAccounted := umax (used + delta) dd.reserved
  newAccounted - oldAccounted

def Dir.reserve (d : Dir) (newReservation : Word) : Dir := { d with reserved := newReservation }

/-- The counters of a directory after its own part of `dsl_dir_diduse_space`. -/
def Dir.add (d : Dir) (used compressed uncompressed : Word) : Dir :=
  { d with
    used := d.used + used
    uncompressed := d.uncompressed + uncompressed
    compressed := d.compressed + compressed }

/-- `dsl_dir_diduse_space`; `none` when the fuel does not reach the root. -/
def didUseSpace : Nat → Pool D → D → Word → Word → Word → Option (Pool D)
  | 0, _, _, _, _, _ => none
  | fuel + 1, s, dd, used, compressed, uncompressed =>
    let accountedDelta := parentDelta (s.dir dd) (s.dir dd).used used
    let s' := s.setDir dd ((s.dir dd).add used compressed uncompressed)
    match s.parent dd with
    | none => some s'
    | some p => didUseSpace fuel s' p accountedDelta compressed uncompressed

/-- `dsl_dir_set_reservation_sync`. -/
def setReservationSync (fuel : Nat) (s : Pool D) (dd : D) (newReservation : Word) :
    Option (Pool D) :=
  let used := (s.dir dd).used
  let delta := umax used newReservation - umax used (s.dir dd).reserved
  let s' := s.setDir dd ((s.dir dd).reserve newReservation)
  match s.parent dd with
  | none => some s'
  | some p => didUseSpace fuel s' p delta 0 0

/-- `would_change`; `none` when it runs into the `NULL` above the root. -/
def wouldChange : Nat → Pool D → D → Word → D → Option Word
  | 0, _, _, _, _ => none
  | fuel + 1, s, dd, delta, ancestor =>
    if dd = ancestor then some delta
    else
      match s.parent dd with
      | none => none
      | some p => wouldChange fuel s p (parentDelta (s.dir dd) (s.dir dd).used delta) ancestor

def Pool.move (s : Pool D) (dd newparent : D) : Pool D :=
  { s with parent := update s.parent dd (some newparent) }

@[simp] theorem Pool.move_dir (s : Pool D) (dd newparent : D) : (s.move dd newparent).dir = s.dir :=
  rfl

/-- `dsl_dir_rename_sync`; `none` for the root, whose `dd_parent` is `NULL`. -/
def renameSync (fuel : Nat) (s : Pool D) (dd newparent : D) : Option (Pool D) :=
  match s.parent dd with
  | none => none
  | some p =>
    if newparent ≠ p then do
      let myspace := umax (s.dir dd).used (s.dir dd).reserved
      let s1 ← didUseSpace fuel s p (-myspace) (-(s.dir dd).compressed) (-(s.dir dd).uncompressed)
      let s2 ← didUseSpace fuel s1 newparent myspace (s1.dir dd).compressed (s1.dir dd).uncompressed
      return s2.move dd newparent
    else
      return s.move dd newparent

section Frame

variable {s s' : Pool D} {dd a : D} {l : List D} {used compressed uncompressed : Word}

theorem didUseSpace_root (hd : s.parent dd = none) (fuel : Nat) :
    didUseSpace (fuel + 1) s dd used compressed uncompressed
      = some (s.setDir dd ((s.dir dd).add used compressed uncompressed)) := by
  rw [didUseSpace]
  simp only [hd]

theorem didUseSpace_step {p : D} (hd : s.parent dd = some p) (fuel : Nat) :
    didUseSpace (fuel + 1) s dd used compressed uncompressed
      = didUseSpace fuel (s.setDir dd ((s.dir dd).add used compressed uncompressed)) p
          (parentDelta (s.dir dd) (s.dir dd).used used) compressed uncompressed := by
  rw [didUseSpace]
  simp only [hd]

/-- **ONE WAY UP**: with fuel for the way up `dsl_dir_diduse_space` returns; it moves no
    directory and leaves those off the way alone. -/
theorem didUseSpace_frame (hp : Path s.parent dd l) (hf : l.length ≤ fuel)
    (used compressed uncompressed : Word) :
    ∃ s', didUseSpace fuel s dd used compressed uncompressed = some s' ∧
      s'.parent = s.parent ∧ ∀ a, a ∉ l → s'.dir a = s.dir a := by
  generalize hpar : s.parent = parent at hp
  induction hp generalizing s fuel used with
  | @root dd hd =>
    obtain ⟨fuel, rfl⟩ := exists_eq_succ_of_ne_zero (ne_of_gt hf)
    refine ⟨_, didUseSpace_root (hpar ▸ hd) fuel, hpar, ?_⟩
    intro a ha
    exact s.setDir_of_not_mem _ (mem_singleton.mpr rfl) ha
  | @step dd p l hd hl ih =>
    obtain ⟨fuel, rfl⟩ := exists_eq_succ_of_ne_zero (ne_zero_of_lt hf)
    obtain ⟨s', hrun, hpar', hoff⟩ := ih (s := s.setDir dd ((s.dir dd).add used compressed
      uncompressed)) (le_of_succ_le_succ hf) _ hpar
    refine ⟨s', (didUseSpace_step (hpar ▸ hd) fuel).trans hrun, hpar', ?_⟩
    intro a ha
    rw [hoff a fun hm => ha (mem_cons_of_mem _ hm)]
    exact s.setDir_of_not_mem _ (mem_cons_self ..) ha

theorem wouldChange_congr (hp : Path s.parent dd l) (hpar : s'.parent = s.parent)
    (hdir : ∀ a ∈ l, s'.dir a = s.dir a) (fuel : Nat) (delta : Word) (ancestor : D) :
    wouldChange fuel s' dd delta ancestor = wouldChange fuel s dd delta ancestor := by
  generalize hparent : s.parent = parent at hp
  induction hp generalizing fuel delta with
  | @root dd hd =>
    cases fuel with
    | zero => rfl
    | succ fuel => rw [wouldChange, wouldChange, hpar, hparent, hd]
  | @step dd p l hd hl ih =>
    cases fuel with
    | zero => rfl
    | succ fuel =>
      rw [wouldChange, wouldChange, hpar, hparent, hd, hdir dd (mem_cons_self ..)]
      simp only [ih fun a ha => hdir a (mem_cons_of_mem _ ha)]

/-- **THE PREDICTION**: `would_change` is what `dsl_dir_diduse_space` adds to the ancestor. -/
theorem wouldChange_spec (hp : Path s.parent dd l) (hf : l.length ≤ fuel) (ha : a ∈ l)
    (hrun : didUseSpace fuel s dd used compressed uncompressed = some s') :
    wouldChange fuel s dd used a = some ((s'.dir a).used - (s.dir a).used) := by
  generalize hpar : s.parent = parent at hp
  induction hp generalizing s fuel used with
  | @root dd hd =>
    obtain ⟨fuel, rfl⟩ := exists_eq_succ_of_ne_zero (ne_of_gt hf)
    obtain rfl := mem_singleton.mp ha
    rw [didUseSpace_root (hpar ▸ hd)] at hrun
    obtain rfl := some.inj hrun
    rw [wouldChange]
    simp [Dir.add]
  | @step dd p l hd hl ih =>
    obtain ⟨fuel, rfl⟩ := exists_eq_succ_of_ne_zero (ne_zero_of_lt hf)
    have hf' : l.length ≤ fuel := le_of_succ_le_succ hf
    have hnot := Path.not_mem_parent hd hl
    rw [didUseSpace_step (hpar ▸ hd)] at hrun
    by_cases hda : dd = a
    · -- the ancestor is the directory itself: nothing further up comes back to it
      subst hda
      obtain ⟨s1, hrun1, -, hoff⟩ := didUseSpace_frame (s := s.setDir dd _) (hpar ▸ hl) hf' _ _ _
      obtain rfl := some.inj (hrun.symm.trans hrun1)
      rw [wouldChange, hoff dd hnot]
      simp [Dir.add]
    have ha' : a ∈ l := (mem_cons.mp ha).resolve_left fun he => hda he.symm
    have hup := ih hf' ha' hrun hpar
    have hkeep : ∀ x ∈ l, (s.setDir dd ((s.dir dd).add used compressed uncompressed)).dir x
        = s.dir x :=
      fun x hx => s.setDir_of_ne _ fun he => hnot (he ▸ hx)
    have hl' : Path s.parent p l := hpar ▸ hl
    rw [wouldChange_congr hl' (s.setDir_parent ..) hkeep, hkeep a ha'] at hup
    rw [wouldChange, if_neg hda, hpar, hd]
    exact hup

end Frame

/-! ## The accounting of the tree -/

section Accounting

/-- An amount booked at the parent of a directory, if it has one. -/
def above (parent : Option D) (w : Word) : D → Word :=
  match parent with
  | none => 0
  | some p => Pi.single p w

theorem above_apply (parent : Option D) (w : Word) (d : D) :
    above parent w d = if parent = some d then w else 0 := by
  cases parent with
  | none => rfl
  | some p =>
    rw [above, Pi.single_apply]
    simp only [some.injEq, eq_comm]

variable [Fintype D] {s s' : Pool D} {dd p q : D} {l : List D} {ch : D → Word}
  {used compressed uncompressed : Word}

def childSum (s : Pool D) (d : D) : Word := ∑ c with s.parent c = some d, (s.dir c).accounted

/-- Every directory uses what was charged to it directly and what its children count for. -/
def Accounted (s : Pool D) (ch : D → Word) : Prop := ∀ d, (s.dir d).used = ch d + childSum s d

theorem sum_add_at {f g : D → Word} {w : Word} (dd : D)
    (h : ∀ c, f c = g c + if c = dd then w else 0) : ∑ c, f c = ∑ c, g c + w := by
  rw [Finset.sum_congr rfl fun c _ => h c, Finset.sum_add_distrib,
    Finset.sum_ite_eq' Finset.univ dd, if_pos (Finset.mem_univ dd)]

theorem childSum_setDir (s : Pool D) (dd : D) (x : Dir) :
    childSum (s.setDir dd x)
      = childSum s + above (s.parent dd) (x.accounted - (s.dir dd).accounted) := by
  funext d
  rw [Pi.add_apply, childSum, childSum, Finset.sum_filter, Finset.sum_filter]
  refine sum_add_at dd fun c => ?_
  by_cases hc : c = dd
  · subst hc
    rw [if_pos (show c = c from rfl), Pool.setDir_self, above_apply, Pool.setDir_parent]
    split <;> ring
  · rw [if_neg hc, add_zero, Pool.setDir_of_ne _ _ hc, Pool.setDir_parent]

theorem childSum_move (s : Pool D) (dd q : D) :
    childSum (s.move dd q)
      = childSum s + (above (some q) (s.dir dd).accounted
          - above (s.parent dd) (s.dir dd).accounted) := by
  funext d
  rw [Pi.add_apply, childSum, childSum, Finset.sum_filter, Finset.sum_filter]
  refine sum_add_at dd fun c => ?_
  by_cases hc : c = dd
  · subst hc
    have hnew : (s.move c q).parent c = some q := update_self ..
    simp only [hnew, if_true, Pi.sub_apply, above_apply, Pool.move_dir]
    ring
  · have hold : (s.move dd q).parent c = s.parent c := update_of_ne hc ..
    simp only [hold, if_neg hc, add_zero, Pool.move_dir]

/-- Replacing the counters of one directory, seen in the books: its own difference is charged
    to it and its parent is short of the difference it counts for. -/
theorem Accounted.setDir (h : Accounted s ch) (dd : D) (x : Dir) :
    Accounted (s.setDir dd x) (ch + Pi.single dd (x.used - (s.dir dd).used)
      - above (s.parent dd) (x.accounted - (s.dir dd).accounted)) := by
  intro d
  rw [childSum_setDir]
  simp only [Pi.add_apply, Pi.sub_apply]
  by_cases hd : d = dd
  · subst hd
    rw [Pool.setDir_self, Pi.single_eq_same]
    linear_combination h d
  · rw [Pi.single_eq_of_ne hd, Pool.setDir_of_ne _ _ hd]
    linear_combination h d

theorem accounted_add (d : Dir) (used compressed uncompressed : Word) :
    (d.add used compressed uncompressed).accounted - d.accounted = parentDelta d d.used used := rfl

/-- **A DELTA ON ITS WAY UP**: `dsl_dir_diduse_space` is a charge of the delta to the directory
    it is called for, whatever the reservations on the way absorb. -/
theorem Accounted.didUseSpace (h : Accounted s ch) (hp : Path s.parent dd l)
    (hf : l.length ≤ fuel) (hrun : didUseSpace fuel s dd used compressed uncompressed = some s') :
    Accounted s' (ch + Pi.single dd used) := by
  generalize hpar : s.parent = parent at hp
  induction hp generalizing s fuel used ch with
  | @root dd hd =>
    obtain ⟨fuel, rfl⟩ := exists_eq_succ_of_ne_zero (ne_of_gt hf)
    rw [didUseSpace_root (hpar ▸ hd)] at hrun
    obtain rfl := some.inj hrun
    have h1 := h.setDir dd ((s.dir dd).add used compressed uncompressed)
    rw [hpar, hd] at h1
    simpa [above, Dir.add] using h1
  | @step dd p l hd hl ih =>
    obtain ⟨fuel, rfl⟩ := exists_eq_succ_of_ne_zero (ne_zero_of_lt hf)
    rw [didUseSpace_step (hpar ▸ hd)] at hrun
    -- the directory is charged; its parent is short of what the next call brings it
    have h1 := h.setDir dd ((s.dir dd).add used compressed uncompressed)
    rw [hpar, hd, accounted_add, above] at h1
    have h2 := ih h1 (le_of_succ_le_succ hf) hrun hpar
    have hused : ((s.dir dd).add used compressed uncompressed).used - (s.dir dd).used = used := by
      simp [Dir.add]
    rwa [hused, sub_add_cancel] at h2

theorem Accounted.setReservationSync (h : Accounted s ch) (hp : Path s.parent dd l)
    (hf : l.length ≤ fuel) (new : Word) :
    ∃ s', setReservationSync fuel s dd new = some s' ∧ s'.parent = s.parent ∧ Accounted s' ch := by
  have h1 := h.setDir dd ((s.dir dd).reserve new)
  have hsame : ((s.dir dd).reserve new).used - (s.dir dd).used = 0 := sub_self _
  rw [hsame, Pi.single_zero, add_zero] at h1
  cases hp with
  | root hd =>
    rw [hd, above, sub_zero] at h1
    exact ⟨s.setDir dd ((s.dir dd).reserve new),
      by rw [DslDir.setReservationSync]; simp only [hd], rfl, h1⟩
  | @step _ p l hd hl =>
    have hf' : l.length ≤ fuel := le_of_succ_le hf
    rw [hd, above] at h1
    obtain ⟨s', hrun, hpar, -⟩ := didUseSpace_frame (s := s.setDir dd ((s.dir dd).reserve new))
      hl hf' (((s.dir dd).reserve new).accounted - (s.dir dd).accounted) 0 0
    have h2 := h1.didUseSpace hl hf' hrun
    rw [sub_add_cancel] at h2
    exact ⟨s', by rw [DslDir.setReservationSync]; simp only [hd]; exact hrun, hpar, h2⟩

/-- **A RENAME** outside the subtree charges nothing to any directory: what the two calls book
    at the old and the new parent is what hanging the directory elsewhere moves. -/
theorem Accounted.renameSync (h : Accounted s ch) {m : List D} (hd : s.parent dd = some p)
    (hl : Path s.parent p l) (hm : Path s.parent q m) (hout : dd ∉ m)
    (hfl : l.length ≤ fuel) (hfm : m.length ≤ fuel) :
    ∃ s', renameSync fuel s dd q = some s' ∧
      s'.parent = update s.parent dd (some q) ∧ Accounted s' ch := by
  by_cases hqp : q = p
  · subst hqp
    have hsame : s.move dd q = s := by rw [Pool.move, ← hd, update_eq_self]
    refine ⟨s.move dd q, ?_, rfl, hsame.symm ▸ h⟩
    rw [DslDir.renameSync]
    simp only [hd, ne_eq, not_true_eq_false, if_false]
    rfl
  have hdl : dd ∉ l := Path.not_mem_parent hd hl
  obtain ⟨s1, hrun1, hpar1, hoff1⟩ := didUseSpace_frame hl hfl (-(s.dir dd).accounted)
    (-(s.dir dd).compressed) (-(s.dir dd).uncompressed)
  obtain ⟨s2, hrun2, hpar2, hoff2⟩ := didUseSpace_frame (s := s1) (hpar1 ▸ hm) hfm
    (s.dir dd).accounted (s1.dir dd).compressed (s1.dir dd).uncompressed
  have hrun : DslDir.renameSync fuel s dd q = some (s2.move dd q) := by
    rw [DslDir.renameSync]
    simp only [hd, if_pos (show q ≠ p from hqp)]
    refine (congrArg (bind · _) hrun1).trans ?_
    exact congrArg (bind · _) hrun2
  refine ⟨s2.move dd q, hrun, by rw [Pool.move, hpar2, hpar1], ?_⟩
  have h2 := (h.didUseSpace hl hfl hrun1).didUseSpace (hpar1 ▸ hm) hfm hrun2
  have hkeep : s2.dir dd = s.dir dd := (hoff2 dd hout).trans (hoff1 dd hdl)
  intro d
  have hd2 := h2 d
  rw [childSum_move, hkeep, hpar2, hpar1, hd]
  simp only [Pi.add_apply, Pi.sub_apply, above, Pi.single_neg, Pi.neg_apply, Pool.move_dir] at hd2 ⊢
  linear_combination hd2

end Accounting

inductive Op (D : Type*)
  | didUse (dd : D) (used compressed uncompressed : Word)
  | setReservation (dd : D) (newReservation : Word)
  | rename (dd newparent : D)

namespace Op

def run (fuel : Nat) (s : Pool D) : Op D → Option (Pool D)
  | didUse dd used compressed uncompressed =>
    didUseSpace fuel s dd used compressed uncompressed
  | setReservation dd newReservation => setReservationSync fuel s dd newReservation
  | rename dd newparent => renameSync fuel s dd newparent

/-- A rename is of a directory below another and not into its own subtree
    (`dsl_dir_rename_check`). -/
def Permitted (parent : D → Option D) : Op D → Prop
  | rename dd newparent =>
    parent dd ≠ none ∧ ∀ l, Path parent newparent l → dd ∉ l
  | _ => True

def parentAfter (parent : D → Option D) : Op D → D → Option D
  | rename dd newparent => update parent dd (some newparent)
  | _ => parent

/-- What has been charged to each directory directly, as a number. -/
def charge (ch : D → ℤ) : Op D → D → ℤ
  | didUse dd used _ _ => ch + Pi.single dd used.toInt
  | _ => ch

end Op

def runOps (fuel : Nat) : Pool D → List (Op D) → Option (Pool D)
  | s, [] => some s
  | s, op :: ops => (op.run fuel s).bind fun s' => runOps fuel s' ops

def PermittedRun : (D → Option D) → List (Op D) → Prop
  | _, [] => True
  | parent, op :: ops => op.Permitted parent ∧ PermittedRun (op.parentAfter parent) ops

section Runs

variable [Fintype D] {s s' : Pool D} {ch : D → ℤ} {fuel : Nat}

/-- What a directory should use: its charges and, over its children, the larger of what the
    child uses and reserves. -/
def total (s : Pool D) (ch : D → ℤ) (d : D) : ℤ :=
  ch d + ∑ c with s.parent c = some d, ((max (s.dir c).used.toNat (s.dir c).reserved.toNat : ℕ) : ℤ)

def Balanced (s : Pool D) (ch : D → ℤ) : Prop := Accounted s fun d => (ch d : Word)

theorem intCast_toInt (w : Word) : ((w.toInt : ℤ) : Word) = w :=
  BitVec.eq_of_toInt_eq (by rw [BitVec.toInt_intCast, BitVec.toInt_bmod_cancel])

theorem intCast_total (s : Pool D) (ch : D → ℤ) (d : D) :
    ((total s ch d : ℤ) : Word) = ch d + childSum s d := by
  rw [total, Int.cast_add, Int.cast_sum]
  refine congrArg (((ch d : ℤ) : Word) + ·) (Finset.sum_congr rfl fun c _ => ?_)
  rw [← toNat_umax]
  simp [Dir.accounted]

theorem Balanced.iff_total : Balanced s ch ↔ ∀ d, (s.dir d).used = ((total s ch d : ℤ) : Word) := by
  simp only [Balanced, Accounted, intCast_total]

theorem Balanced.exact (h : Balanced s ch) {d : D} (h0 : 0 ≤ total s ch d)
    (h1 : total s ch d < 2 ^ 64) : ((s.dir d).used.toNat : ℤ) = total s ch d := by
  rw [Balanced.iff_total.mp h d]
  obtain ⟨n, hn⟩ := Int.eq_ofNat_of_zero_le h0
  rw [hn] at h1 ⊢
  have hlt : n < 2 ^ 64 := by exact_mod_cast h1
  rw [Int.cast_natCast, BitVec.natCast_eq_ofNat, BitVec.toNat_ofNat, mod_eq_of_lt hlt]

/-- **ONE UPDATE** runs to its end, keeps the tree a tree and the books balanced. -/
theorem Op.run_spec (hr : Rooted s.parent) (hf : Fintype.card D ≤ fuel) (h : Balanced s ch)
    {op : Op D} (hop : op.Permitted s.parent) :
    ∃ s', op.run fuel s = some s' ∧ s'.parent = op.parentAfter s.parent ∧ Rooted s'.parent ∧
      Balanced s' (op.charge ch) := by
  cases op with
  | didUse dd used compressed uncompressed =>
    obtain ⟨l, hl⟩ := hr dd
    have hlen := hl.length_le.trans hf
    obtain ⟨s', hrun, hpar, -⟩ := didUseSpace_frame hl hlen used compressed uncompressed
    refine ⟨s', hrun, hpar, hpar ▸ hr, ?_⟩
    have hbal := Accounted.didUseSpace h hl hlen hrun
    intro d
    rw [hbal d]
    simp only [Op.charge, Pi.add_apply, Int.cast_add]
    by_cases hd : d = dd
    · subst hd
      rw [Pi.single_eq_same, Pi.single_eq_same, intCast_toInt]
    · rw [Pi.single_eq_of_ne hd, Pi.single_eq_of_ne hd, Int.cast_zero]
  | setReservation dd newReservation =>
    obtain ⟨l, hl⟩ := hr dd
    obtain ⟨s', hrun, hpar, hbal⟩ := Accounted.setReservationSync h hl (hl.length_le.trans hf)
      newReservation
    exact ⟨s', hrun, hpar, hpar ▸ hr, hbal⟩
  | rename dd newparent =>
    obtain ⟨hne, hout⟩ := hop
    obtain ⟨p, hp⟩ := ne_none_iff_exists'.mp hne
    obtain ⟨l, hl⟩ := hr p
    obtain ⟨m, hm⟩ := hr newparent
    obtain ⟨s', hrun, hpar, hbal⟩ := Accounted.renameSync h hp hl hm (hout m hm)
      (hl.length_le.trans hf) (hm.length_le.trans hf)
    refine ⟨s', hrun, hpar, ?_, hbal⟩
    rw [hpar]
    exact hr.update hm (hout m hm)

theorem runOps_spec (hf : Fintype.card D ≤ fuel) (ops : List (Op D)) :
    ∀ {s : Pool D} {ch : D → ℤ}, Rooted s.parent → Balanced s ch → PermittedRun s.parent ops →
      ∃ s', runOps fuel s ops = some s' ∧ Rooted s'.parent ∧
        Balanced s' (ops.foldl Op.charge ch) := by
  induction ops with
  | nil =>
    intro s ch hr h _
    exact ⟨s, rfl, hr, h⟩
  | cons op ops ih =>
    rintro s ch hr h ⟨hop, hops⟩
    obtain ⟨s1, hrun, hpar, hr1, h1⟩ := op.run_spec hr hf h hop
    obtain ⟨s', hruns, hr', h'⟩ := ih hr1 h1 (hpar ▸ hops)
    exact ⟨s', by rw [runOps, hrun]; exact hruns, hr', h'⟩

/-- **THE SPACE TREE**: after every run of updates of every tree, each directory's
    `dd_used_bytes` is what was charged to it plus, over its children, the larger of what the
    child uses and reserves - as 64-bit words always, and as numbers when that amount is not
    negative and fits the counter; and `would_change` foretells what the next
    `dsl_dir_diduse_space` adds to any directory above. -/
theorem dsl_dir_space_tree (s : Pool D) (ch : D → ℤ) (fuel : Nat) (ops : List (Op D))
    (hf : Fintype.card D ≤ fuel) (hr : Rooted s.parent)
    (hstart : ∀ d, (s.dir d).used = ((total s ch d : ℤ) : Word))
    (hops : PermittedRun s.parent ops) :
    ∃ s', runOps fuel s ops = some s' ∧ Rooted s'.parent ∧
      (∀ d, (s'.dir d).used = ((total s' (ops.foldl Op.charge ch) d : ℤ) : Word)) ∧
      (∀ d, 0 ≤ total s' (ops.foldl Op.charge ch) d → total s' (ops.foldl Op.charge ch) d < 2 ^ 64 →
        ((s'.dir d).used.toNat : ℤ) = total s' (ops.foldl Op.charge ch) d) ∧
      ∀ dd l ancestor used compressed uncompressed, Path s'.parent dd l → ancestor ∈ l →
        ∃ s'', didUseSpace fuel s' dd used compressed uncompressed = some s'' ∧
          wouldChange fuel s' dd used ancestor
            = some ((s''.dir ancestor).used - (s'.dir ancestor).used) := by
  obtain ⟨s', hrun, hr', hbal⟩ := runOps_spec hf ops hr (Balanced.iff_total.mpr hstart) hops
  refine ⟨s', hrun, hr', Balanced.iff_total.mp hbal, fun d h0 h1 => hbal.exact h0 h1, ?_⟩
  intro dd l ancestor used compressed uncompressed hp ha
  have hlen := hp.length_le.trans hf
  obtain ⟨s'', hdid, -, -⟩ := didUseSpace_frame hp hlen used compressed uncompressed
  exact ⟨s'', hdid, wouldChange_spec hp hlen ha hdid⟩

end Runs

def threeDirs : Pool (Fin 3) where
  dir _ := ⟨0, 0, 0, 0⟩
  parent d := if d = 2 then some 1 else if d = 1 then some 0 else none

/-- A reservation absorbs a charge; the directory is then moved up and outgrows it. -/
def reserveAndMove : List (Op (Fin 3)) :=
  [.setReservation 2 100, .didUse 2 30 20 40, .rename 2 0, .didUse 2 90 60 120, .didUse 1 7 7 7]

theorem threeDirs_rooted : Rooted threeDirs.parent := by
  have h0 : Path threeDirs.parent 0 [0] := .root rfl
  have h1 : Path threeDirs.parent 1 [1, 0] := .step rfl h0
  have h2 : Path threeDirs.parent 2 [2, 1, 0] := .step rfl h1
  intro d
  fin_cases d
  · exact ⟨_, h0⟩
  · exact ⟨_, h1⟩
  · exact ⟨_, h2⟩

theorem reserveAndMove_permitted : PermittedRun threeDirs.parent reserveAndMove := by
  refine ⟨trivial, trivial, ⟨by decide, ?_⟩, trivial, trivial, trivial⟩
  intro l hl
  have h0 : Path threeDirs.parent 0 [0] := .root rfl
  rw [show l = [0] from hl.unique h0]
  decide

theorem dsl_dir_space_tree_three :
    ∃ s', runOps 3 threeDirs reserveAndMove = some s' ∧
      ∀ d, (s'.dir d).used = ((total s' (reserveAndMove.foldl Op.charge 0) d : ℤ) : Word) := by
  have hstart : ∀ d, (threeDirs.dir d).used = ((total threeDirs 0 d : ℤ) : Word) := by
    intro d
    simp [total, threeDirs]
  obtain ⟨s', hrun, -, hused, -⟩ := dsl_dir_space_tree threeDirs 0 3 reserveAndMove (by decide)
    threeDirs_rooted hstart reserveAndMove_permitted
  exact ⟨s', hrun, hused⟩

end Sirius.DslDir
