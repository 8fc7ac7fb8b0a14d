import Mathlib.Algebra.Order.BigOperators.Group.Finset

/-! # The re-entrant reader/writer lock of `rrwlock.c`

    Every section of `rrw_enter` and `rrw_exit` runs under `rr_lock`, so a step of the
    system is one evaluation of a `while` condition with what follows it.  A thread that
    has to wait stays inside its call, asleep on `rr_cv`, until somebody broadcasts. -/

namespace Sirius.Rrw

open Function Finset Option List

variable {T L : Type} [DecidableEq T] [DecidableEq L]

/-- `rrwlock_t`, without the mutex and the condition variable. -/
structure Rrwlock (T : Type) where
  rrWriter : Option T
  rrAnonRcount : ℕ
  rrLinkedRcount : ℕ
  rrWriterWanted : Bool

def rrwInit : Rrwlock T := ⟨none, 0, 0, false⟩

/-- `krw_t`. -/
inductive Krw
  | reader
  | writer
  deriving DecidableEq

/-- `rrn_find`, on the calling thread's list of nodes. -/
def rrnFind (rrl : Rrwlock T) (tsd : List L) (l : L) : Bool :=
  if rrl.rrLinkedRcount = 0 then false else tsd.contains l

/-- `rrn_find_and_remove`: whether a node was found, and the list without it. -/
def rrnFindAndRemove (rrl : Rrwlock T) (tsd : List L) (l : L) : Bool × List L :=
  if rrl.rrLinkedRcount = 0 then (false, tsd)
  else if tsd.contains l then (true, tsd.erase l) else (false, tsd)

/-- The condition under which `rrw_enter_read` waits. -/
def readWaits (rrl : Rrwlock T) (tsd : List L) (l : L) : Bool :=
  rrl.rrWriter.isSome || (rrl.rrWriterWanted && rrl.rrAnonRcount == 0 && !rrnFind rrl tsd l)

/-- The condition under which `rrw_enter_write` waits. -/
def writeWaits (rrl : Rrwlock T) : Bool :=
  decide (0 < rrl.rrAnonRcount) || decide (0 < rrl.rrLinkedRcount) || rrl.rrWriter.isSome

/-- A thread inside `rrw_enter`: the lock, the kind, and whether it has been woken. -/
structure Call (L : Type) where
  lock : L
  rw : Krw
  awake : Bool

/-- The locks, the threads that exist, their lists of nodes and pending calls.  `reads`
    and `writes` are the holds that the callers were given and have not returned. -/
structure World (T L : Type) where
  locks : L → Rrwlock T
  threads : Finset T
  tsd : T → List L
  calls : T → Option (Call L)
  reads : T → L → ℕ
  writes : T → L → Bool

inductive Op (T L : Type)
  /-- A new thread. -/
  | spawn (t : T)
  /-- A call of `rrw_enter`. -/
  | enter (t : T) (l : L) (rw : Krw)
  /-- A woken thread looks at its condition again. -/
  | resume (t : T)
  /-- `cv_wait` returns although nobody broadcast. -/
  | wake (t : T)
  /-- A call of `rrw_exit`. -/
  | exit (t : T) (l : L)

/-- An `ASSERT` that fails, or an impossible step. -/
inductive RrwPanic
  | writerIsSelf
  | notHeld
  | notWriter
  | readersLeft
  | negative
  | noCall
  deriving DecidableEq

namespace World

variable (w : World T L)

def setLock (l : L) (rrl : Rrwlock T) : World T L := { w with locks := update w.locks l rrl }

def setReads (t : T) (l : L) (n : ℕ) : World T L :=
  { w with reads := update w.reads t (update (w.reads t) l n) }

def setWrites (t : T) (l : L) (b : Bool) : World T L :=
  { w with writes := update w.writes t (update (w.writes t) l b) }

def setTsd (t : T) (nodes : List L) : World T L := { w with tsd := update w.tsd t nodes }

def setCall (t : T) (c : Option (Call L)) : World T L := { w with calls := update w.calls t c }

/-- `cv_broadcast(&rrl->rr_cv)`. -/
def broadcast (l : L) : World T L :=
  { w with calls := fun t => (w.calls t).map fun c =>
    if c.lock = l then { c with awake := true } else c }

end World

/-- One round of `rrw_enter_read`: wait, or take the hold and return. -/
def rrwEnterRead (w : World T L) (t : T) (l : L) : Except RrwPanic (Bool × World T L) :=
  let rrl := w.locks l
  if rrl.rrWriter = some t then .error .writerIsSelf
  else if readWaits rrl (w.tsd t) l then .ok (false, w.setCall t (some ⟨l, .reader, false⟩))
  else
    let w := w.setCall t none
    if rrl.rrWriterWanted then
      .ok (true, (w.setTsd t (l :: w.tsd t)).setLock l
        { rrl with rrLinkedRcount := rrl.rrLinkedRcount + 1 })
    else .ok (true, w.setLock l { rrl with rrAnonRcount := rrl.rrAnonRcount + 1 })

/-- One round of `rrw_enter_write`. -/
def rrwEnterWrite (w : World T L) (t : T) (l : L) : Except RrwPanic (Bool × World T L) :=
  let rrl := w.locks l
  if rrl.rrWriter = some t then .error .writerIsSelf
  else if writeWaits rrl then
    .ok (false,
      (w.setCall t (some ⟨l, .writer, false⟩)).setLock l { rrl with rrWriterWanted := true })
  else
    .ok (true, (w.setCall t none).setLock l
      { rrl with rrWriterWanted := false, rrWriter := some t })

def rrwEnter (w : World T L) (t : T) (l : L) : Krw → Except RrwPanic (Bool × World T L)
  | .reader => rrwEnterRead w t l
  | .writer => rrwEnterWrite w t l

/-- `refcount_remove`, with the broadcast of `rrw_exit` when nothing is left. -/
def dropRead (w : World T L) (l : L) (count : ℕ) (store : ℕ → Rrwlock T) :
    Except RrwPanic (World T L) :=
  if count = 0 then .error .negative
  else
    let w := w.setLock l (store (count - 1))
    .ok (if count - 1 = 0 then w.broadcast l else w)

/-- The branch of `rrw_exit` for a lock without a writer. -/
def exitRead (w : World T L) (t : T) (l : L) : Except RrwPanic (World T L) :=
  let rrl := w.locks l
  let found := rrnFindAndRemove rrl (w.tsd t) l
  if found.1 then
    dropRead (w.setTsd t found.2) l rrl.rrLinkedRcount fun n => { rrl with rrLinkedRcount := n }
  else dropRead w l rrl.rrAnonRcount fun n => { rrl with rrAnonRcount := n }

/-- The branch of `rrw_exit` for a lock with a writer. -/
def exitWrite (w : World T L) (t : T) (l : L) : Except RrwPanic (World T L) :=
  let rrl := w.locks l
  if rrl.rrWriter ≠ some t then .error .notWriter
  else if rrl.rrAnonRcount ≠ 0 ∨ rrl.rrLinkedRcount ≠ 0 then .error .readersLeft
  else .ok ((w.setLock l { rrl with rrWriter := none }).broadcast l)

def rrwExit (w : World T L) (t : T) (l : L) : Except RrwPanic (World T L) :=
  let rrl := w.locks l
  if rrl.rrAnonRcount = 0 ∧ rrl.rrLinkedRcount = 0 ∧ rrl.rrWriter = none then .error .notHeld
  else if rrl.rrWriter = none then exitRead w t l else exitWrite w t l

/-- A caller who returns from `rrw_enter` has one more hold. -/
def enterStep (w : World T L) (t : T) (l : L) (rw : Krw) : Except RrwPanic (World T L) := do
  let (back, w') ← rrwEnter w t l rw
  return match back, rw with
    | false, _ => w'
    | true, .reader => w'.setReads t l (w.reads t l + 1)
    | true, .writer => w'.setWrites t l true

/-- A caller who returns from `rrw_exit` has one hold less. -/
def exitStep (w : World T L) (t : T) (l : L) : Except RrwPanic (World T L) := do
  let w' ← rrwExit w t l
  return if w.writes t l then w'.setWrites t l false else w'.setReads t l (w.reads t l - 1)

def step (w : World T L) : Op T L → Except RrwPanic (World T L)
  | .spawn t => .ok { w with threads := insert t w.threads }
  | .enter t l rw => enterStep w t l rw
  | .resume t =>
    match w.calls t with
    | none => .error .noCall
    | some c => enterStep w t c.lock c.rw
  | .wake t => .ok (w.setCall t ((w.calls t).map fun c => { c with awake := true }))
  | .exit t l => exitStep w t l

def Free (w : World T L) (t : T) : Prop := t ∈ w.threads ∧ w.calls t = none

/-- What the callers promise: only holds they have are given back, and nobody mixes
    read and write holds of one lock, or enters it twice for writing. -/
def Allowed (w : World T L) : Op T L → Prop
  | .spawn t => t ∉ w.threads
  | .enter t l .reader => Free w t ∧ w.writes t l = false
  | .enter t l .writer => Free w t ∧ w.writes t l = false ∧ w.reads t l = 0
  | .resume t => t ∈ w.threads ∧ ∃ c ∈ w.calls t, c.awake = true
  | .wake _ => True
  | .exit t l => Free w t ∧ (0 < w.reads t l ∨ w.writes t l = true)

def World.init : World T L :=
  ⟨fun _ => rrwInit, ∅, fun _ => [], fun _ => none, fun _ _ => 0, fun _ _ => false⟩

inductive Reachable : World T L → Prop
  | init : Reachable World.init
  | step {w w' : World T L} {op : Op T L} (h : Reachable w) (hop : Allowed w op)
      (hs : step w op = .ok w') : Reachable w'

variable {w w' : World T L} {t u : T} {l : L}

/-- The condition under which a sleeper of either kind stays asleep. -/
def MustWait (rrl : Rrwlock T) : Krw → Prop
  | .reader => rrl.rrWriter.isSome ∨ (rrl.rrWriterWanted = true ∧ rrl.rrAnonRcount = 0)
  | .writer => 0 < rrl.rrAnonRcount ∨ 0 < rrl.rrLinkedRcount ∨ rrl.rrWriter.isSome

/-- A thread inside a call holds nothing of that lock, and sleeps for a reason. -/
structure CallOk (w : World T L) (t : T) (c : Call L) : Prop where
  thread : t ∈ w.threads
  reads : w.reads t c.lock = 0
  writes : w.writes t c.lock = false
  asleep : c.awake = false → MustWait (w.locks c.lock) c.rw

structure Inv (w : World T L) : Prop where
  absent : ∀ t ∉ w.threads, w.tsd t = [] ∧ w.reads t = (fun _ => 0) ∧ w.writes t = fun _ => false
  nodes : ∀ t l, (w.tsd t).count l ≤ w.reads t l
  linked : ∀ l, (w.locks l).rrLinkedRcount = ∑ t ∈ w.threads, (w.tsd t).count l
  total : ∀ l, (w.locks l).rrAnonRcount + (w.locks l).rrLinkedRcount = ∑ t ∈ w.threads, w.reads t l
  writer : ∀ t l, w.writes t l = true ↔ (w.locks l).rrWriter = some t
  alone : ∀ l, (w.locks l).rrWriter.isSome →
    (w.locks l).rrAnonRcount = 0 ∧ (w.locks l).rrLinkedRcount = 0
  calls : ∀ t, ∀ c ∈ w.calls t, CallOk w t c

theorem sum_change {S : Finset T} (f f' : T → ℕ) (ht : t ∈ S) (h : ∀ u ≠ t, f' u = f u) :
    ∑ u ∈ S, f' u + f t = ∑ u ∈ S, f u + f' t := by
  have hrest : ∑ u ∈ S.erase t, f' u = ∑ u ∈ S.erase t, f u :=
    sum_congr rfl fun u hu => h u (ne_of_mem_erase hu)
  rw [← sum_erase_add S f' ht, ← sum_erase_add S f ht]
  omega

section

omit [DecidableEq T]

theorem Inv.init : Inv (World.init : World T L) := by
  refine ⟨fun t _ => ⟨rfl, rfl, rfl⟩, fun t l => le_refl 0, fun l => rfl, fun l => rfl, ?_, ?_, ?_⟩
  · intro t l
    simp [World.init, rrwInit]
  · intro l hl
    exact ⟨rfl, rfl⟩
  · intro t c hc
    exact nomatch hc

theorem Inv.linked_pos (h : Inv w) (ht : t ∈ w.threads) (hmem : l ∈ w.tsd t) :
    0 < (w.locks l).rrLinkedRcount := by
  rw [h.linked l]
  exact sum_pos' (fun u _ => Nat.zero_le _) ⟨t, ht, count_pos_iff.mpr hmem⟩

theorem Inv.not_writer (h : Inv w) (hwr : w.writes t l = false) :
    (w.locks l).rrWriter ≠ some t := by
  rw [Ne, ← h.writer t l, hwr]
  exact Bool.false_ne_true

theorem Inv.anon_pos (h : Inv w) (ht : t ∈ w.threads) (hr : 0 < w.reads t l) (hmem : l ∉ w.tsd t) :
    0 < (w.locks l).rrAnonRcount := by
  have hlt : ∑ u ∈ w.threads, (w.tsd u).count l < ∑ u ∈ w.threads, w.reads u l := by
    refine sum_lt_sum (fun u _ => h.nodes u l) ⟨t, ht, ?_⟩
    rw [count_eq_zero_of_not_mem hmem]
    exact hr
  have htotal := h.total l
  rw [h.linked l] at htotal
  omega

theorem Inv.writer_eq_none (h : Inv w) (ht : t ∈ w.threads) (hr : 0 < w.reads t l) :
    (w.locks l).rrWriter = none := by
  rw [← not_isSome_iff_eq_none]
  intro hw
  obtain ⟨ha, hl⟩ := h.alone l hw
  have hsum : 0 < ∑ u ∈ w.threads, w.reads u l := sum_pos' (fun u _ => Nat.zero_le _) ⟨t, ht, hr⟩
  rw [← h.total l, ha, hl] at hsum
  exact absurd hsum (lt_irrefl 0)

/-- **RE-ENTRY IS NEVER REFUSED**: a reader who comes back finds either an anonymous hold
    or a node of its own. -/
theorem Inv.readWaits_eq_false (h : Inv w) (ht : t ∈ w.threads) (hr : 0 < w.reads t l) :
    readWaits (w.locks l) (w.tsd t) l = false := by
  have hnone := h.writer_eq_none ht hr
  by_cases hmem : l ∈ w.tsd t
  · have hne := (h.linked_pos ht hmem).ne'
    simp [readWaits, rrnFind, hnone, hne, hmem]
  · have hne := (h.anon_pos ht hr hmem).ne'
    simp [readWaits, hnone, hne]

end

/-! ## What a step may touch -/

attribute [simp] World.setLock World.setReads World.setWrites World.setTsd World.setCall
  World.broadcast

structure Touches (w w' : World T L) (t : T) (l : L) : Prop where
  threads : w'.threads = w.threads
  lock : ∀ k ≠ l, w'.locks k = w.locks k
  thread : ∀ u ≠ t, w'.tsd u = w.tsd u ∧ w'.reads u = w.reads u ∧ w'.writes u = w.writes u
  other : ∀ k ≠ l, (w'.tsd t).count k = (w.tsd t).count k ∧ w'.reads t k = w.reads t k
    ∧ w'.writes t k = w.writes t k

namespace Touches

omit [DecidableEq T] in
theorem refl (w : World T L) (t : T) (l : L) : Touches w w t l :=
  ⟨rfl, fun _ _ => rfl, fun _ _ => ⟨rfl, rfl, rfl⟩, fun _ _ => ⟨rfl, rfl, rfl⟩⟩

section

variable (h : Touches w w' t l)

include h

omit [DecidableEq T] in
theorem setLock (rrl : Rrwlock T) : Touches w (w'.setLock l rrl) t l := by
  refine { h with lock := ?_ }
  intro k hk
  exact (update_of_ne hk _ _).trans (h.lock k hk)

theorem setCall (c : Option (Call L)) : Touches w (w'.setCall t c) t l := { h with }

omit [DecidableEq T] in
theorem broadcast : Touches w (w'.broadcast l) t l := { h with }

theorem setReads (n : ℕ) : Touches w (w'.setReads t l n) t l where
  __ := h
  thread u hu := by simpa [hu] using h.thread u hu
  other k hk := by simpa [hk] using h.other k hk

theorem setWrites (b : Bool) : Touches w (w'.setWrites t l b) t l where
  __ := h
  thread u hu := by simpa [hu] using h.thread u hu
  other k hk := by simpa [hk] using h.other k hk

theorem setTsd (nodes : List L) (hn : ∀ k ≠ l, nodes.count k = (w'.tsd t).count k) :
    Touches w (w'.setTsd t nodes) t l where
  __ := h
  thread u hu := by simpa [hu] using h.thread u hu
  other k hk := by simpa [hn k hk] using h.other k hk

end

end Touches

section

variable (h : Inv w)

include h

/-- **THE FRAME RULE**: what the touched lock and thread owe each other is all there is to check. -/
theorem Inv.touch (hf : Touches w w' t l) (ht : t ∈ w.threads)
    (hnodes : (w'.tsd t).count l ≤ w'.reads t l)
    (hlinked : (w'.locks l).rrLinkedRcount + (w.tsd t).count l
      = (w.locks l).rrLinkedRcount + (w'.tsd t).count l)
    (htotal : (w'.locks l).rrAnonRcount + (w'.locks l).rrLinkedRcount + w.reads t l
      = (w.locks l).rrAnonRcount + (w.locks l).rrLinkedRcount + w'.reads t l)
    (hself : w'.writes t l = true ↔ (w'.locks l).rrWriter = some t)
    (hothers : ∀ u ≠ t, (w'.locks l).rrWriter = some u ↔ (w.locks l).rrWriter = some u)
    (halone : (w'.locks l).rrWriter.isSome →
      (w'.locks l).rrAnonRcount = 0 ∧ (w'.locks l).rrLinkedRcount = 0)
    (hcalls : ∀ u, ∀ c ∈ w'.calls u, CallOk w' u c) : Inv w' := by
  refine ⟨?_, ?_, ?_, ?_, ?_, ?_, hcalls⟩
  · intro u hu
    rw [hf.threads] at hu
    have hne : u ≠ t := fun he => hu (he ▸ ht)
    obtain ⟨h1, h2, h3⟩ := hf.thread u hne
    rw [h1, h2, h3]
    exact h.absent u hu
  · intro u k
    by_cases hu : u = t
    · subst hu
      by_cases hk : k = l
      · exact hk ▸ hnodes
      · obtain ⟨h1, h2, -⟩ := hf.other k hk
        rw [h1, h2]
        exact h.nodes u k
    · obtain ⟨h1, h2, -⟩ := hf.thread u hu
      rw [h1, h2]
      exact h.nodes u k
  · intro k
    rw [hf.threads]
    have hsum := sum_change (fun u => (w.tsd u).count k) (fun u => (w'.tsd u).count k) ht
      fun u hu => by rw [(hf.thread u hu).1]
    have hk := h.linked k
    by_cases hkl : k = l
    · subst hkl
      omega
    · rw [hf.lock k hkl]
      have := (hf.other k hkl).1
      omega
  · intro k
    rw [hf.threads]
    have hsum := sum_change (fun u => w.reads u k) (fun u => w'.reads u k) ht
      fun u hu => by rw [(hf.thread u hu).2.1]
    have hk := h.total k
    by_cases hkl : k = l
    · subst hkl
      omega
    · rw [hf.lock k hkl]
      have := (hf.other k hkl).2.1
      omega
  · intro u k
    by_cases hkl : k = l
    · subst hkl
      by_cases hu : u = t
      · exact hu ▸ hself
      · rw [(hf.thread u hu).2.2, hothers u hu]
        exact h.writer u k
    · rw [hf.lock k hkl, ← h.writer u k]
      by_cases hu : u = t
      · subst hu
        rw [(hf.other k hkl).2.2]
      · rw [(hf.thread u hu).2.2]
  · intro k hk
    by_cases hkl : k = l
    · exact hkl ▸ halone (hkl ▸ hk)
    · rw [hf.lock k hkl] at hk ⊢
      exact h.alone k hk

/-- The pending calls after a step: those of other threads are as before, or woken, and
    whoever sleeps on the touched lock still has a reason. -/
theorem Inv.calls_touch (hf : Touches w w' t l) (hself : ∀ c ∈ w'.calls t, CallOk w' t c)
    (hothers : ∀ u ≠ t, ∀ c ∈ w'.calls u, ∃ d ∈ w.calls u, c.lock = d.lock ∧ c.rw = d.rw
      ∧ (c.awake = false → d.awake = false
        ∧ (c.lock = l → MustWait (w.locks l) c.rw → MustWait (w'.locks l) c.rw))) :
    ∀ u, ∀ c ∈ w'.calls u, CallOk w' u c := by
  intro u c hc
  by_cases hu : u = t
  · subst hu
    exact hself c hc
  obtain ⟨d, hd, hlock, hrw, hwake⟩ := hothers u hu c hc
  have hok := h.calls u d hd
  obtain ⟨-, hreads, hwrites⟩ := hf.thread u hu
  refine ⟨?_, ?_, ?_, ?_⟩
  · rw [hf.threads]
    exact hok.thread
  · rw [hreads, hlock]
    exact hok.reads
  · rw [hwrites, hlock]
    exact hok.writes
  intro hasleep
  obtain ⟨hd', hmono⟩ := hwake hasleep
  have hwait := hok.asleep hd'
  rw [← hlock, ← hrw] at hwait
  by_cases hl : c.lock = l
  · rw [hl] at hwait ⊢
    exact hmono hl hwait
  · rw [hf.lock _ hl]
    exact hwait

theorem Inv.calls_kept (hf : Touches w w' t l) (hself : ∀ c ∈ w'.calls t, CallOk w' t c)
    (hsame : ∀ u ≠ t, w'.calls u = w.calls u)
    (hmono : ∀ kind, MustWait (w.locks l) kind → MustWait (w'.locks l) kind) :
    ∀ u, ∀ c ∈ w'.calls u, CallOk w' u c := by
  refine h.calls_touch hf hself ?_
  intro u hu c hc
  rw [hsame u hu] at hc
  exact ⟨c, hc, rfl, rfl, fun hasleep => ⟨hasleep, fun _ => hmono c.rw⟩⟩

theorem Inv.calls_broadcast (hf : Touches w (w'.broadcast l) t l)
    (hself : w'.calls t = none) (hsame : ∀ u ≠ t, w'.calls u = w.calls u) :
    ∀ u, ∀ c ∈ (w'.broadcast l).calls u, CallOk (w'.broadcast l) u c := by
  refine h.calls_touch hf ?_ ?_
  · intro c hc
    simp [hself] at hc
  intro u hu c hc
  obtain ⟨d, hd, rfl⟩ := mem_map.mp hc
  rw [hsame u hu] at hd
  refine ⟨d, hd, ?_⟩
  by_cases hl : d.lock = l
  · rw [if_pos hl]
    exact ⟨rfl, rfl, nofun⟩
  · rw [if_neg hl]
    exact ⟨rfl, rfl, fun hasleep => ⟨hasleep, fun hl' => absurd hl' hl⟩⟩

section

variable (ht : t ∈ w.threads)

include ht

theorem Inv.sleep_read (hwr : w.writes t l = false)
    (hwait : readWaits (w.locks l) (w.tsd t) l = true) :
    Inv (w.setCall t (some ⟨l, .reader, false⟩)) := by
  have hzero : w.reads t l = 0 := by
    by_contra hne
    rw [h.readWaits_eq_false ht (pos_of_ne_zero hne)] at hwait
    exact nomatch hwait
  have hmust : MustWait (w.locks l) .reader := by
    simp only [readWaits, Bool.or_eq_true, Bool.and_eq_true, beq_iff_eq] at hwait
    exact hwait.imp id And.left
  have hf := (Touches.refl w t l).setCall (some ⟨l, .reader, false⟩)
  refine h.touch hf ht (h.nodes t l) rfl rfl (h.writer t l) (fun _ _ => .rfl) (h.alone l) ?_
  refine h.calls_kept hf ?_ (fun u hu => update_of_ne hu _ _) (fun _ => id)
  intro c hc
  simp only [World.setCall, update_self, mem_some_iff] at hc
  subst hc
  exact ⟨ht, hzero, hwr, fun _ => hmust⟩

theorem Inv.sleep_write (hwr : w.writes t l = false)
    (hr : w.reads t l = 0) (hwait : writeWaits (w.locks l) = true) :
    Inv ((w.setCall t (some ⟨l, .writer, false⟩)).setLock l
      { w.locks l with rrWriterWanted := true }) := by
  have hmust : MustWait (w.locks l) .writer := by
    simp only [writeWaits, Bool.or_eq_true, decide_eq_true_eq] at hwait
    rcases hwait with (ha | hl) | hw
    · exact .inl ha
    · exact .inr (.inl hl)
    · exact .inr (.inr hw)
  have hf := ((Touches.refl w t l).setCall (some ⟨l, .writer, false⟩)).setLock
    { w.locks l with rrWriterWanted := true }
  have hwriter := h.writer t l
  have halone := h.alone l
  refine h.touch hf ht (h.nodes t l) ?_ ?_ ?_ ?_ ?_ ?_
  · simp
  · simp
  · simpa using hwriter
  · simp
  · simpa using halone
  refine h.calls_kept hf ?_ (fun u hu => update_of_ne hu _ _) ?_
  · intro c hc
    simp only [World.setCall, World.setLock, update_self, mem_some_iff] at hc
    subst hc
    exact ⟨ht, hr, hwr, fun _ => by simpa [MustWait] using hmust⟩
  · intro kind hm
    cases kind with
    | reader => simpa [MustWait] using hm.imp id And.right
    | writer => simpa [MustWait] using hm

theorem Inv.take_linked (hnone : (w.locks l).rrWriter = none) :
    Inv ((((w.setCall t none).setReads t l (w.reads t l + 1)).setTsd t (l :: w.tsd t)).setLock l
      { w.locks l with rrLinkedRcount := (w.locks l).rrLinkedRcount + 1 }) := by
  have hcount : ∀ k ≠ l, (l :: w.tsd t).count k = (w.tsd t).count k :=
    fun k hk => count_cons_of_ne hk.symm
  have hf := (((Touches.refl w t l).setCall none).setReads (w.reads t l + 1)).setTsd _ hcount
    |>.setLock { w.locks l with rrLinkedRcount := (w.locks l).rrLinkedRcount + 1 }
  have hnodes := h.nodes t l
  have hwriter := h.writer t l
  refine h.touch hf ht ?_ ?_ ?_ ?_ ?_ ?_ ?_
  · simp [hnodes]
  · simp
    omega
  · simp
    omega
  · simpa using hwriter
  · simp
  · simp [hnone]
  refine h.calls_kept hf (by simp) (fun u hu => update_of_ne hu _ _) ?_
  intro kind hm
  cases kind with
  | reader => simpa [MustWait] using hm
  | writer => simp [MustWait]

theorem Inv.take_anon (hnone : (w.locks l).rrWriter = none)
    (hwanted : (w.locks l).rrWriterWanted = false) :
    Inv (((w.setCall t none).setReads t l (w.reads t l + 1)).setLock l
      { w.locks l with rrAnonRcount := (w.locks l).rrAnonRcount + 1 }) := by
  have hf := (((Touches.refl w t l).setCall none).setReads (w.reads t l + 1)).setLock
    { w.locks l with rrAnonRcount := (w.locks l).rrAnonRcount + 1 }
  have hnodes := h.nodes t l
  have hwriter := h.writer t l
  refine h.touch hf ht ?_ ?_ ?_ ?_ ?_ ?_ ?_
  · simp
    omega
  · simp
  · simp
    omega
  · simpa using hwriter
  · simp
  · simp [hnone]
  refine h.calls_kept hf (by simp) (fun u hu => update_of_ne hu _ _) ?_
  intro kind hm
  cases kind with
  | reader => simp [MustWait, hnone, hwanted] at hm
  | writer => simp [MustWait]

theorem Inv.take_write (hwait : writeWaits (w.locks l) = false) :
    Inv (((w.setCall t none).setWrites t l true).setLock l
      { w.locks l with rrWriterWanted := false, rrWriter := some t }) := by
  simp only [writeWaits, Bool.or_eq_false_iff, decide_eq_false_iff_not, not_lt, Nat.le_zero,
    isSome_eq_false_iff, isNone_iff_eq_none] at hwait
  obtain ⟨⟨hanon, hlinked⟩, hnone⟩ := hwait
  have hf := (((Touches.refl w t l).setCall none).setWrites true).setLock
    { w.locks l with rrWriterWanted := false, rrWriter := some t }
  refine h.touch hf ht (h.nodes t l) ?_ ?_ ?_ ?_ ?_ ?_
  · simp
  · simp
  · simp
  · intro u hu
    simp [hnone, hu.symm]
  · simp [hanon, hlinked]
  refine h.calls_kept hf (by simp) (fun u hu => update_of_ne hu _ _) ?_
  intro kind _
  cases kind with
  | reader | writer => simp [MustWait]

theorem rrwEnterRead_spec (hwr : w.writes t l = false) :
    ∃ w', enterStep w t l .reader = .ok w' ∧ Inv w' := by
  have hself := h.not_writer hwr
  simp only [enterStep, rrwEnter, rrwEnterRead, if_neg hself]
  cases hwait : readWaits (w.locks l) (w.tsd t) l with
  | true => exact ⟨_, rfl, h.sleep_read ht hwr hwait⟩
  | false =>
    have hnone : (w.locks l).rrWriter = none := by
      simp only [readWaits, Bool.or_eq_false_iff, isSome_eq_false_iff, isNone_iff_eq_none] at hwait
      exact hwait.1
    by_cases hwanted : (w.locks l).rrWriterWanted = true
    · rw [if_neg Bool.false_ne_true, if_pos hwanted]
      exact ⟨_, rfl, h.take_linked ht hnone⟩
    · rw [if_neg Bool.false_ne_true, if_neg hwanted]
      exact ⟨_, rfl, h.take_anon ht hnone (Bool.eq_false_of_not_eq_true hwanted)⟩

theorem rrwEnterWrite_spec (hwr : w.writes t l = false)
    (hr : w.reads t l = 0) : ∃ w', enterStep w t l .writer = .ok w' ∧ Inv w' := by
  have hself := h.not_writer hwr
  simp only [enterStep, rrwEnter, rrwEnterWrite, if_neg hself]
  cases hwait : writeWaits (w.locks l) with
  | true => exact ⟨_, rfl, h.sleep_write ht hwr hr hwait⟩
  | false => exact ⟨_, rfl, h.take_write ht hwait⟩

omit h in
omit ht in
theorem Inv.drop {w1 : World T L} {count : ℕ} (store : ℕ → Rrwlock T) (h : Inv w)
    (ht : t ∈ w.threads) (hfree : w.calls t = none) (hf : Touches w w1 t l)
    (hcalls : w1.calls = w.calls) (hwrites : w1.writes t l = w.writes t l)
    (hnone : (w.locks l).rrWriter = none) (hnone' : (store (count - 1)).rrWriter = none)
    (hpos : 0 < count) (hnodes : (w1.tsd t).count l ≤ w1.reads t l)
    (hlinked : (store (count - 1)).rrLinkedRcount + (w.tsd t).count l
      = (w.locks l).rrLinkedRcount + (w1.tsd t).count l)
    (htotal : (store (count - 1)).rrAnonRcount + (store (count - 1)).rrLinkedRcount + w.reads t l
      = (w.locks l).rrAnonRcount + (w.locks l).rrLinkedRcount + w1.reads t l)
    (hmono : count - 1 ≠ 0 → ∀ kind, MustWait (w.locks l) kind →
      MustWait (store (count - 1)) kind) :
    ∃ w', dropRead w1 l count store = .ok w' ∧ Inv w' := by
  set s' := store (count - 1)
  set w1' := w1.setLock l s'
  have hlock : w1'.locks l = store (count - 1) := update_self _ _ _
  have hsame : ∀ u ≠ t, w1'.calls u = w.calls u :=
    fun u _ => congrFun hcalls u
  have hself : w1.calls t = none := (congrFun hcalls t).trans hfree
  have hwriter : w1.writes t l = true ↔ s'.rrWriter = some t := by
    rw [hwrites, h.writer t l, hnone, hnone']
  have hothers : ∀ u ≠ t, s'.rrWriter = some u ↔ (w.locks l).rrWriter = some u := by
    intro u _
    rw [hnone, hnone']
  have halone : s'.rrWriter.isSome → s'.rrAnonRcount = 0 ∧ s'.rrLinkedRcount = 0 := by
    rw [hnone']
    exact nofun
  have hf' := hf.setLock s'
  rw [dropRead, if_neg hpos.ne']
  by_cases hlast : count - 1 = 0
  · refine ⟨w1'.broadcast l, congrArg _ (if_pos hlast), ?_⟩
    have hlock' : (w1'.broadcast l).locks l = store (count - 1) := hlock
    refine h.touch hf'.broadcast ht hnodes ?_ ?_ ?_ ?_ ?_
      (h.calls_broadcast hf'.broadcast hself hsame) <;> rw [hlock'] <;> assumption
  refine ⟨w1.setLock l s', congrArg _ (if_neg hlast), ?_⟩
  refine h.touch hf' ht hnodes ?_ ?_ ?_ ?_ ?_ (h.calls_kept hf' ?_ hsame ?_)
  · rw [hlock]
    exact hlinked
  · rw [hlock]
    exact htotal
  · rw [hlock]
    exact hwriter
  · rw [hlock]
    exact hothers
  · rw [hlock]
    exact halone
  · intro c hc
    rw [show w1'.calls t = none from hself] at hc
    exact nomatch hc
  · rw [hlock]
    exact hmono hlast

omit h ht in
theorem dropRead_setReads (n count : ℕ) (store : ℕ → Rrwlock T) :
    (do return (← dropRead w l count store).setReads t l n)
      = dropRead (w.setReads t l n) l count store := by
  rw [dropRead, dropRead]
  split_ifs <;> rfl

omit h ht in
theorem setReads_frame (w : World T L) (t : T) (l : L) (n : ℕ) :
    (w.setReads t l n).locks = w.locks ∧ (w.setReads t l n).tsd = w.tsd :=
  ⟨rfl, rfl⟩

omit h ht in
theorem exitRead_setReads (n : ℕ) : (do return (← exitRead w t l).setReads t l n)
    = exitRead (w.setReads t l n) t l := by
  simp only [exitRead, setReads_frame]
  split_ifs
  · exact dropRead_setReads (w := w.setTsd t _) ..
  · exact dropRead_setReads ..

/-- The ledger can be changed first. -/
theorem exitStep_read (hr : 0 < w.reads t l) :
    exitStep w t l = exitRead (w.setReads t l (w.reads t l - 1)) t l := by
  have hnone := h.writer_eq_none ht hr
  have hwr : ¬w.writes t l = true := by simp [h.writer t l, hnone]
  rw [exitStep, rrwExit, if_neg, if_pos hnone, ← exitRead_setReads]
  · simp only [if_neg hwr]
  rintro ⟨hanon, hlinked, -⟩
  by_cases hmem : l ∈ w.tsd t
  · exact (h.linked_pos ht hmem).ne' hlinked
  · exact (h.anon_pos ht hr hmem).ne' hanon

theorem rrwExit_read (hfree : w.calls t = none)
    (hr : 0 < w.reads t l) : ∃ w', exitStep w t l = .ok w' ∧ Inv w' := by
  have hnone := h.writer_eq_none ht hr
  have hnodes := h.nodes t l
  have hread : (w.setReads t l (w.reads t l - 1)).reads t l = w.reads t l - 1 := by simp
  by_cases hmem : l ∈ w.tsd t
  · -- a node of the caller is found
    have hpos := h.linked_pos ht hmem
    have hfind : rrnFindAndRemove (w.locks l) (w.tsd t) l = (true, (w.tsd t).erase l) := by
      simp [rrnFindAndRemove, hpos.ne', hmem]
    have hcount : (w.tsd t).count l = ((w.tsd t).erase l).count l + 1 := by
      have := count_pos_iff.mpr hmem
      rw [count_erase_self]
      omega
    have hother : ∀ k ≠ l, ((w.tsd t).erase l).count k = (w.tsd t).count k :=
      fun k hk => count_erase_of_ne hk
    have hf := ((Touches.refl w t l).setReads (w.reads t l - 1)).setTsd _ hother
    have htsd : ((w.setReads t l (w.reads t l - 1)).setTsd t ((w.tsd t).erase l)).tsd t
        = (w.tsd t).erase l := update_self _ _ _
    simp only [exitStep_read h ht hr, exitRead, setReads_frame, hfind]
    refine h.drop (fun n => { w.locks l with rrLinkedRcount := n }) ht hfree hf rfl rfl hnone hnone
      hpos ?_ ?_ ?_ ?_
    · rw [htsd]
      exact (Nat.le_sub_one_of_lt (by omega)).trans hread.ge
    · rw [htsd]
      dsimp only
      omega
    · show _ = _ + (w.setReads t l (w.reads t l - 1)).reads t l
      dsimp only
      omega
    · intro hmore kind hm
      cases kind with
      | reader => exact hm
      | writer => exact .inr (.inl (pos_of_ne_zero hmore))
  · -- the hold was an anonymous one
    have hpos := h.anon_pos ht hr hmem
    have hfind : rrnFindAndRemove (w.locks l) (w.tsd t) l = (false, w.tsd t) := by
      simp [rrnFindAndRemove, hmem]
    have hzero : (w.tsd t).count l = 0 := count_eq_zero_of_not_mem hmem
    have hf := (Touches.refl w t l).setReads (w.reads t l - 1)
    simp only [exitStep_read h ht hr, exitRead, setReads_frame, hfind]
    refine h.drop (fun n => { w.locks l with rrAnonRcount := n }) ht hfree hf rfl rfl hnone hnone
      hpos ?_ rfl ?_ ?_
    · exact hzero.le.trans (Nat.zero_le _)
    · dsimp only
      omega
    intro hmore kind hm
    cases kind with
    | reader =>
      rcases hm with hw | ⟨-, ha⟩
      · rw [hnone] at hw
        exact nomatch hw
      · exact absurd ha hpos.ne'
    | writer => exact .inl (pos_of_ne_zero hmore)

theorem rrwExit_write (hfree : w.calls t = none)
    (hw : w.writes t l = true) : ∃ w', exitStep w t l = .ok w' ∧ Inv w' := by
  have hwriter := (h.writer t l).mp hw
  obtain ⟨hanon, hlinked⟩ := h.alone l (by rw [hwriter]; rfl)
  have hsome : (w.locks l).rrWriter ≠ none := by
    rw [hwriter]
    exact some_ne_none t
  have hf := (((Touches.refl w t l).setWrites false).setLock
    { w.locks l with rrWriter := none }).broadcast
  rw [exitStep, rrwExit, if_neg (fun hz => hsome hz.2.2), if_neg hsome, exitWrite,
    if_neg (not_not.mpr hwriter), if_neg (by simp [hanon, hlinked])]
  simp only [if_pos hw]
  refine ⟨_, rfl, h.touch hf ht (h.nodes t l) ?_ ?_ ?_ ?_ ?_
    (h.calls_broadcast hf hfree fun _ _ => rfl)⟩
  · simp
  · simp
  · simp
  · intro u hu
    simp [hwriter, hu.symm]
  · simp

end

theorem Inv.spawn (ht : t ∉ w.threads) : Inv { w with threads := insert t w.threads } := by
  obtain ⟨htsd, hreads, -⟩ := h.absent t ht
  refine ⟨?_, h.nodes, ?_, ?_, h.writer, h.alone, ?_⟩
  · intro u hu
    exact h.absent u fun hmem => hu (mem_insert_of_mem hmem)
  · intro k
    rw [sum_insert ht, htsd, count_nil, zero_add]
    exact h.linked k
  · intro k
    rw [sum_insert ht, hreads, zero_add]
    exact h.total k
  · intro u c hc
    obtain ⟨hthread, hr, hw, hs⟩ := h.calls u c hc
    exact ⟨mem_insert_of_mem hthread, hr, hw, hs⟩

theorem Inv.wake (t : T) :
    Inv (w.setCall t ((w.calls t).map fun c => { c with awake := true })) := by
  refine { h with calls := fun u c hc => ?_ }
  by_cases hu : u = t
  · subst hu
    simp only [World.setCall, update_self] at hc
    obtain ⟨d, hd, rfl⟩ := mem_map.mp hc
    have hok := h.calls u d hd
    exact { hok with asleep := nofun }
  · have hc' : c ∈ w.calls u := by simpa only [World.setCall, update_of_ne hu] using hc
    exact { h.calls u c hc' with }

/-- **PROGRESS AND PRESERVATION**: no `ASSERT` fires, and the invariant is kept. -/
theorem step_spec {op : Op T L} (hop : Allowed w op) : ∃ w', step w op = .ok w' ∧ Inv w' := by
  cases op with
  | spawn t => exact ⟨_, rfl, h.spawn hop⟩
  | enter t l kind =>
    cases kind with
    | reader =>
      obtain ⟨⟨ht, -⟩, hw⟩ := hop
      exact rrwEnterRead_spec h ht hw
    | writer =>
      obtain ⟨⟨ht, -⟩, hw, hr⟩ := hop
      exact rrwEnterWrite_spec h ht hw hr
  | resume t =>
    obtain ⟨ht, c, hc, -⟩ := hop
    have hok := h.calls t c hc
    rw [step, mem_def.mp hc]
    dsimp only
    cases c.rw with
    | reader => exact rrwEnterRead_spec h ht hok.writes
    | writer => exact rrwEnterWrite_spec h ht hok.writes hok.reads
  | wake t => exact ⟨_, rfl, h.wake t⟩
  | exit t l =>
    obtain ⟨⟨ht, hfree⟩, hr | hw⟩ := hop
    · exact rrwExit_read h ht hfree hr
    · exact rrwExit_write h ht hfree hw

end

theorem Reachable.inv (h : Reachable w) : Inv w := by
  induction h with
  | init => exact Inv.init
  | step _ hop hs ih =>
    obtain ⟨w', hs', hinv⟩ := step_spec ih hop
    rw [hs] at hs'
    exact Except.ok.inj hs' ▸ hinv

/-- **THE LOCK IS SAFE UNDER ANY INTERLEAVING**: writers are alone; the two counters count the
    read holds, and the linked one the nodes; a thread that holds the lock for reading is
    let in again at once and never sits in a read call of that lock; no `ASSERT` fires. -/
theorem rrwlock_excludes_and_reenters (h : Reachable w) :
    (∀ t l, w.writes t l = true → (∀ u, w.reads u l = 0) ∧ ∀ u, w.writes u l = true → u = t)
      ∧ (∀ l, (w.locks l).rrAnonRcount + (w.locks l).rrLinkedRcount = ∑ t ∈ w.threads, w.reads t l)
      ∧ (∀ l, (w.locks l).rrLinkedRcount = ∑ t ∈ w.threads, (w.tsd t).count l)
      ∧ (∀ t ∉ w.threads, w.tsd t = [] ∧ ∀ l, w.reads t l = 0 ∧ w.writes t l = false)
      ∧ (∀ t l, Free w t → 0 < w.reads t l → ∃ w', step w (.enter t l .reader) = .ok w'
          ∧ w'.calls t = none ∧ w'.reads t l = w.reads t l + 1)
      ∧ (∀ t, ∀ c ∈ w.calls t, w.reads t c.lock = 0)
      ∧ ∀ op, Allowed w op → ∃ w', step w op = .ok w' := by
  have hinv := h.inv
  refine ⟨?_, hinv.total, hinv.linked, ?_, ?_, fun t c hc => (hinv.calls t c hc).reads, ?_⟩
  · intro t l hw
    have hwriter := (hinv.writer t l).mp hw
    refine ⟨?_, ?_⟩
    · intro u
      by_contra hne
      by_cases hu : u ∈ w.threads
      · have := hinv.writer_eq_none hu (pos_of_ne_zero hne)
        rw [hwriter] at this
        exact nomatch this
      · exact hne (congrFun (hinv.absent u hu).2.1 l)
    · intro u hu
      have := (hinv.writer u l).mp hu
      rw [hwriter] at this
      exact (some.inj this).symm
  · intro t ht
    obtain ⟨htsd, hreads, hwrites⟩ := hinv.absent t ht
    exact ⟨htsd, fun l => ⟨congrFun hreads l, congrFun hwrites l⟩⟩
  · rintro t l ⟨ht, -⟩ hr
    have hnone := hinv.writer_eq_none ht hr
    have hself : (w.locks l).rrWriter ≠ some t := by
      rw [hnone]
      exact nofun
    have hgo := hinv.readWaits_eq_false ht hr
    simp only [step, enterStep, rrwEnter, rrwEnterRead, if_neg hself, hgo]
    cases hwanted : (w.locks l).rrWriterWanted with
    | true | false =>
      refine ⟨_, rfl, ?_, ?_⟩
      · simp
      · simp
  · intro op hop
    obtain ⟨w', hs, -⟩ := step_spec hinv hop
    exact ⟨w', hs⟩

/-! A reader comes back while a writer waits for it. -/

def demoIdle : World ℕ ℕ := { World.init with threads := insert 1 (insert 0 ∅) }

def demoReading : World ℕ ℕ :=
  ((demoIdle.setCall 0 none).setReads 0 7 1).setLock 7 ⟨none, 1, 0, false⟩

/-- Thread 1 sleeps in `rrw_enter_write`. -/
def demoWaiting : World ℕ ℕ :=
  (demoReading.setCall 1 (some ⟨7, .writer, false⟩)).setLock 7 ⟨none, 1, 0, true⟩

theorem demoWaiting_reachable : Reachable demoWaiting := by
  have hidle : Reachable demoIdle := by
    have h0 : Allowed (World.init : World ℕ ℕ) (.spawn 0) := notMem_empty 0
    have h1 : Allowed { (World.init : World ℕ ℕ) with threads := insert 0 ∅ } (.spawn 1) :=
      show 1 ∉ ({0} : Finset ℕ) by decide
    exact (Reachable.init.step h0 rfl).step h1 rfl
  have hread : Allowed demoIdle (.enter 0 7 .reader) := ⟨⟨by decide, rfl⟩, rfl⟩
  have hwrite : Allowed demoReading (.enter 1 7 .writer) := ⟨⟨by decide, rfl⟩, rfl, rfl⟩
  have hreading : Reachable demoReading := hidle.step hread rfl
  exact hreading.step hwrite rfl

theorem rrwlock_excludes_and_reenters_waiting :
    Reachable demoWaiting ∧ demoWaiting.calls 1 = some ⟨7, .writer, false⟩
      ∧ ∃ w', step demoWaiting (.enter 0 7 .reader) = .ok w' ∧ w'.calls 0 = none ∧
        w'.reads 0 7 = 2 :=
  ⟨demoWaiting_reachable, rfl,
    (rrwlock_excludes_and_reenters demoWaiting_reachable).2.2.2.2.1 0 7 ⟨by decide, rfl⟩
    (by decide)⟩

/-- `rr_writer_wanted` speaks for somebody: a call for writing is under way. -/
def Wanted (w : World T L) : Prop := ∀ l, (w.locks l).rrWriterWanted = true →
  ∃ u, (w.calls u).map (fun c => (c.lock, c.rw)) = some (l, .writer)

theorem Wanted.enter (h : Wanted w) {kind : Krw}
    (ht : ∀ c ∈ w.calls t, c.lock = l ∧ c.rw = kind) (hs : enterStep w t l kind = .ok w') :
    Wanted w' := by
  intro k hk
  -- this call is the one that is wanted, or another thread's is as before
  by_cases hkl : k = l ∧ w'.calls t = some ⟨l, .writer, false⟩
  · exact ⟨t, by rw [hkl.1, hkl.2]; rfl⟩
  cases kind <;> simp only [enterStep, rrwEnter, rrwEnterRead, rrwEnterWrite] at hs <;>
    split_ifs at hs <;> cases hs <;> simp_all [Wanted, update_apply] <;> grind

theorem Reachable.wanted (h : Reachable w) : Wanted w := by
  induction h with
  | init => exact nofun
  | @step w w' op _ hop hs ih =>
    cases op with
    | spawn t => cases hs; exact ih
    | enter t l kind => exact ih.enter (by cases kind <;> simp [hop.1.2]) hs
    | resume t =>
      obtain ⟨-, c, hc, -⟩ := hop
      simp only [Rrw.step, mem_def.mp hc] at hs
      exact ih.enter (by simp [mem_def.mp hc]) hs
    | wake t =>
      cases hs
      simp_all [Wanted, update_apply]
      grind
    | exit t l =>
      intro k hk
      simp only [Rrw.step, exitStep, rrwExit, exitRead, exitWrite, dropRead] at hs
      split_ifs at hs <;> cases hs <;> simp_all [Wanted, update_apply] <;> grind

omit [DecidableEq T] in
theorem Inv.held (h : Inv w) (hw : MustWait (w.locks l) .writer) :
    ∃ u, 0 < w.reads u l ∨ w.writes u l = true := by
  by_cases hs : (w.locks l).rrWriter.isSome
  · obtain ⟨u, hu⟩ := isSome_iff_exists.mp hs
    exact ⟨u, .inr ((h.writer u l).mpr hu)⟩
  · have hpos : ∑ u ∈ w.threads, w.reads u l ≠ 0 := by
      rw [← h.total l]
      rcases hw with hw | hw | hw <;> [omega; omega; exact absurd hw hs]
    obtain ⟨u, -, hu⟩ := exists_ne_zero_of_sum_ne_zero hpos
    exact ⟨u, .inl (pos_of_ne_zero hu)⟩

/-- **NOBODY SLEEPS FOR NOTHING**: whoever sleeps on a lock waits for a holder, or for a call for
    writing that has been woken. -/
theorem rrwlock_sleeps_for_a_reason (h : Reachable w) {c : Call L} (hc : c ∈ w.calls t)
    (hs : c.awake = false) : (∃ u, 0 < w.reads u c.lock ∨ w.writes u c.lock = true)
      ∨ ∃ u, w.calls u = some ⟨c.lock, .writer, true⟩ := by
  have hwait := (h.inv.calls t c hc).asleep hs
  cases hrw : c.rw with
  | writer => exact .inl (h.inv.held (hrw ▸ hwait))
  | reader =>
    rw [hrw] at hwait
    rcases hwait with hw | ⟨hw, -⟩
    · exact .inl (h.inv.held (.inr (.inr hw)))
    -- the writer that is wanted is awake, or sleeps for a holder itself
    obtain ⟨u, hu⟩ := h.wanted c.lock hw
    obtain ⟨⟨k, _, awake⟩, hd, heq⟩ := map_eq_some_iff.mp hu
    cases heq
    cases awake with
    | true => exact .inr ⟨u, hd⟩
    | false => exact .inl (h.inv.held ((h.inv.calls u _ hd).asleep rfl))

theorem rrwlock_sleeps_for_a_reason_waiting :
    (∃ u, 0 < demoWaiting.reads u 7 ∨ demoWaiting.writes u 7 = true)
      ∨ ∃ u, demoWaiting.calls u = some ⟨7, .writer, true⟩ :=
  rrwlock_sleeps_for_a_reason demoWaiting_reachable (t := 1) (c := ⟨7, .writer, false⟩) rfl rfl

end Sirius.Rrw
