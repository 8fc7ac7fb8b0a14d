import Mathlib.Data.List.Count
import Mathlib.Data.List.Range
import Mathlib.Tactic.Linarith

/-! # Transaction groups under any interleaving (`txg.c`)

    Holders enter the open group under the lock of their CPU and keep that lock from
    `txg_hold_open` to `txg_rele_to_quiesce`.  The quiesce thread takes all CPU locks,
    opens the next group, and waits CPU by CPU for the holders of the old one; the sync
    thread takes the quiesced group over.  A step is one access that the locks make
    atomic, so every schedule of the source is a run here. -/

namespace Sirius.Txg

open Function List

/-- `TXG_CONCURRENT_STATES`: open, quiescing, syncing. -/
def txgConcurrentStates : ℕ := 3

/-- `TXG_SIZE`; `txg & TXG_MASK` is the remainder. -/
def txgSize : ℕ := 4

/-- `tc_lock` of one CPU, with what its owner is about to do. -/
inductive TcLock
  | free
  /-- In `txg_hold_open`, before `tx_open_txg` is read. -/
  | entered
  /-- In `txg_hold_open`, before the count is raised. -/
  | read (txg : ℕ)
  /-- `txg_hold_open` has returned `txg`; `txg_rele_to_quiesce` is to come. -/
  | inside (txg : ℕ)
  /-- Owned by the quiesce thread. -/
  | quiesce
  deriving DecidableEq

inductive QPc
  | waiting
  /-- The locks of the CPUs before `c` are taken. -/
  | locking (txg c : ℕ)
  /-- The next group is open; the locks of the CPUs before `c` are given back. -/
  | unlocking (txg c : ℕ)
  /-- The holders on the CPUs before `c` are gone. -/
  | draining (txg c : ℕ)
  | handoff (txg : ℕ)
  | gone
  deriving DecidableEq

inductive SPc
  | waiting
  /-- In `spa_sync`. -/
  | syncing (txg : ℕ)
  | gone
  deriving DecidableEq

/-- `tx_state_t`, the program counters of its two threads, the handles that are past
    `txg_rele_to_quiesce` (CPU and group), and the calls of `spa_sync` so far. -/
structure TxState where
  tcLock : ℕ → TcLock
  tcCount : ℕ → ℕ → ℕ
  txOpenTxg : ℕ
  txQuiescedTxg : ℕ
  txSyncingTxg : ℕ
  txSyncedTxg : ℕ
  txQuiesceTxgWaiting : ℕ
  txExiting : Bool
  qpc : QPc
  spc : SPc
  outside : List (ℕ × ℕ)
  spaSync : List ℕ

/-- `txg_init`, followed by `txg_sync_start`. -/
def txgInit (txg : ℕ) : TxState :=
  ⟨fun _ => .free, fun _ _ => 0, txg, 0, 0, 0, 0, false, .waiting, .waiting, [], []⟩

/-- An `ASSERT` that fails. -/
inductive TxPanic
  | notOpen
  | countZero
  deriving DecidableEq

namespace TxState

variable (w : TxState)

def setLock (c : ℕ) (k : TcLock) : TxState := { w with tcLock := update w.tcLock c k }

/-- `tc_count[g]` of one CPU. -/
def setCount (c g n : ℕ) : TxState :=
  { w with tcCount := update w.tcCount c (update (w.tcCount c) g n) }

end TxState

inductive Op
  /-- `txg_hold_open` takes the lock of CPU `c`. -/
  | enter (c : ℕ)
  /-- `txg_hold_open` goes on on CPU `c`. -/
  | hold (c : ℕ)
  | releToQuiesce (c : ℕ)
  | releToSync (c txg : ℕ)
  /-- The quiesce thread takes a step. -/
  | quiesce
  /-- The sync thread takes a step. -/
  | sync
  /-- `tx_quiesce_txg_waiting` is raised, by `txg_wait_open` or by the sync thread. -/
  | request (txg : ℕ)
  /-- `txg_sync_stop` sets `tx_exiting`. -/
  | stop
  /-- Both threads are started again. -/
  | start

/-- `txg_hold_open` after its lock is taken. -/
def txgHoldOpen (w : TxState) (c : ℕ) : TxState :=
  match w.tcLock c with
  | .entered => w.setLock c (.read w.txOpenTxg)
  | .read txg =>
    (w.setCount c (txg % txgSize) (w.tcCount c (txg % txgSize) + 1)).setLock c (.inside txg)
  | _ => w

def txgReleToQuiesce (w : TxState) (c : ℕ) : TxState :=
  match w.tcLock c with
  | .inside _ => w.setLock c .free
  | _ => w

def txgReleToSync (w : TxState) (c txg : ℕ) : Except TxPanic TxState :=
  let g := txg % txgSize
  if w.tcCount c g = 0 then .error .countZero
  else .ok (w.setCount c g (w.tcCount c g - 1))

/-- One step of `txg_quiesce_thread` and `txg_quiesce`, on `n` CPUs.  Where the thread
    has to wait, it stays where it is. -/
def quiesceStep (n : ℕ) (w : TxState) : Except TxPanic TxState :=
  match w.qpc with
  | .waiting =>
    if w.txExiting then .ok { w with qpc := .gone }
    else if w.txOpenTxg ≥ w.txQuiesceTxgWaiting ∨ w.txQuiescedTxg ≠ 0 then .ok w
    else .ok { w with qpc := .locking w.txOpenTxg 0 }
  | .locking txg c =>
    if c < n then
      .ok (if w.tcLock c = .free then { w.setLock c .quiesce with qpc := .locking txg (c + 1) }
        else w)
    else if txg ≠ w.txOpenTxg then .error .notOpen
    else .ok { w with txOpenTxg := w.txOpenTxg + 1, qpc := .unlocking txg 0 }
  | .unlocking txg c =>
    if c < n then .ok { w.setLock c .free with qpc := .unlocking txg (c + 1) }
    else .ok { w with qpc := .draining txg 0 }
  | .draining txg c =>
    if c < n then
      .ok (if w.tcLock c = .free ∧ w.tcCount c (txg % txgSize) = 0 then
        { w with qpc := .draining txg (c + 1) } else w)
    else .ok { w with qpc := .handoff txg }
  | .handoff txg => .ok { w with txQuiescedTxg := txg, qpc := .waiting }
  | .gone => .ok w

/-- One step of `txg_sync_thread`. -/
def syncStep (w : TxState) : TxState :=
  match w.spc with
  | .waiting =>
    if w.txExiting then { w with spc := .gone }
    else if w.txQuiescedTxg = 0 then w
    else
      { w with
        txQuiescedTxg := 0
        txSyncingTxg := w.txQuiescedTxg
        spc := .syncing w.txQuiescedTxg
        spaSync := w.spaSync ++ [w.txQuiescedTxg] }
  | .syncing txg => { w with txSyncedTxg := txg, txSyncingTxg := 0, spc := .waiting }
  | .gone => w

/-- The handle that the owner of a lock takes with it when it releases the lock. -/
def TcLock.handle (c : ℕ) : TcLock → List (ℕ × ℕ)
  | .inside txg => [(c, txg)]
  | _ => []

/-- One step of the system with `n` CPUs.  The callers keep the handles. -/
def step (n : ℕ) (w : TxState) : Op → Except TxPanic TxState
  | .enter c => .ok (w.setLock c .entered)
  | .hold c => .ok (txgHoldOpen w c)
  | .releToQuiesce c =>
    .ok { txgReleToQuiesce w c with outside := (w.tcLock c).handle c ++ w.outside }
  | .releToSync c txg => do
    let w' ← txgReleToSync w c txg
    return { w' with outside := w.outside.erase (c, txg) }
  | .quiesce => quiesceStep n w
  | .sync => .ok (syncStep w)
  | .request txg => .ok { w with txQuiesceTxgWaiting := max w.txQuiesceTxgWaiting txg }
  | .stop => .ok { w with txExiting := true }
  | .start => .ok { w with txExiting := false, qpc := .waiting, spc := .waiting }

/-- The mutexes, and what the callers promise: a handle is released to sync once, after
    it was released to quiesce; the threads are started when there are none. -/
def Allowed (n : ℕ) (w : TxState) : Op → Prop
  | .enter c => c < n ∧ w.tcLock c = .free
  | .hold _ | .releToQuiesce _ => True
  | .releToSync c txg => w.tcLock c = .free ∧ (c, txg) ∈ w.outside
  | .quiesce | .sync | .request _ | .stop => True
  | .start => w.qpc = .gone ∧ w.spc = .gone

/-- The states of any run on `n` CPUs from the group `first` on. -/
inductive Reachable (n first : ℕ) : TxState → Prop
  | init : Reachable n first (txgInit first)
  | step {w w' : TxState} (op : Op) (h : Reachable n first w) (hop : Allowed n w op)
      (hs : step n w op = .ok w') : Reachable n first w'

variable {n first : ℕ} {w w' : TxState} {c g t : ℕ} {count : ℕ → ℕ → ℕ} {out : List (ℕ × ℕ)}
  {q : QPc} {op : Op}

/-- A hold of group `t` on CPU `c` that is not released. -/
def Held (w : TxState) (c t : ℕ) : Prop := w.tcLock c = .inside t ∨ (c, t) ∈ w.outside

/-- The number of holds of group `t` on CPU `c`. -/
def holds (w : TxState) (c t : ℕ) : ℕ :=
  (if w.tcLock c = .inside t then 1 else 0) + w.outside.count (c, t)

/-- The hold that goes with a lock, if its group has slot `g`. -/
def TcLock.slot (g : ℕ) : TcLock → ℕ
  | .inside t => if t % txgSize = g then 1 else 0
  | _ => 0

/-- The number of holds on CPU `c` whose group has slot `g`. -/
def slotHolds (w : TxState) (c g : ℕ) : ℕ :=
  (w.tcLock c).slot g + w.outside.countP fun h => h.1 = c ∧ h.2 % txgSize = g

/-- The quiesce thread has not yet looked at CPU `c` for the group it closes. -/
def Undrained (c : ℕ) : QPc → Prop
  | .unlocking _ _ => True
  | .draining _ d => d ≤ c
  | _ => False

def QuiesceOwns (n c : ℕ) : QPc → Prop
  | .locking _ d => c < d
  | .unlocking _ d => d ≤ c ∧ c < n
  | _ => False

/-- Where the quiesce thread is, against the next group `next` to sync. -/
def Phase (next : ℕ) (w : TxState) : QPc → Prop
  | .locking t _ => t = next ∧ w.txOpenTxg = next ∧ w.txQuiescedTxg = 0
  | .unlocking t _ | .draining t _ | .handoff t =>
    t = next ∧ w.txOpenTxg = next + 1 ∧ w.txQuiescedTxg = 0
  | _ => (w.txOpenTxg = next ∧ w.txQuiescedTxg = 0)
      ∨ (w.txOpenTxg = next + 1 ∧ w.txQuiescedTxg = next)

/-- The sync thread is at the last group it was given, or past it. -/
def SyncPhase (first next : ℕ) (w : TxState) : SPc → Prop
  | .syncing t => t + 1 = next ∧ first ≤ t ∧ max w.txSyncedTxg (first - 1) + 1 = t
  | _ => max w.txSyncedTxg (first - 1) + 1 = next

structure Inv (n first : ℕ) (w : TxState) : Prop where
  calls : w.spaSync = range' first w.spaSync.length
  phase : Phase (first + w.spaSync.length) w w.qpc
  synced : SyncPhase first (first + w.spaSync.length) w w.spc
  read : ∀ c t, w.tcLock c = .read t ∨ w.tcLock c = .inside t → t = w.txOpenTxg
  owns : ∀ c, w.tcLock c = .quiesce ↔ QuiesceOwns n c w.qpc
  cpus : ∀ c, n ≤ c → w.tcLock c = .free
  outside : ∀ h ∈ w.outside, h.1 < n
    ∧ (h.2 = w.txOpenTxg ∨ (h.2 + 1 = w.txOpenTxg ∧ Undrained h.1 w.qpc))
  counts : ∀ c g, w.tcCount c g = slotHolds w c g

theorem Inv.init (hfirst : 0 < first) : Inv n first (txgInit first) := by
  refine ⟨rfl, .inl ⟨rfl, rfl⟩, ?_, ?_, ?_, fun c _ => rfl, ?_, fun c g => rfl⟩
  · show max 0 (first - 1) + 1 = first + 0
    omega
  · rintro c t (hlock | hlock) <;> cases hlock
  · intro c
    exact ⟨nofun, fun howns => howns.elim⟩
  · exact nofun

theorem setLock_self (w : TxState) (c : ℕ) (k : TcLock) : (w.setLock c k).tcLock c = k :=
  update_self _ _ _

theorem setLock_other {d : ℕ} (hd : d ≠ c) (w : TxState) (k : TcLock) :
    (w.setLock c k).tcLock d = w.tcLock d :=
  update_of_ne hd _ _

theorem setCount_apply (w : TxState) (c g m d k : ℕ) :
    (w.setCount c g m).tcCount d k = if d = c ∧ k = g then m else w.tcCount d k := by
  by_cases hd : d = c
  · subst hd
    by_cases hk : k = g
    · simp [TxState.setCount, hk]
    · simp [TxState.setCount, hk]
  · simp [TxState.setCount, hd]

section

variable (h : Inv n first w)

include h

theorem Inv.pass {k : TcLock} (hc : c < n)
    (hread : ∀ t, k = .read t ∨ k = .inside t → t = w.txOpenTxg)
    (hown : k = .quiesce ↔ QuiesceOwns n c q)
    (hothers : ∀ d ≠ c, QuiesceOwns n d w.qpc ↔ QuiesceOwns n d q)
    (hphase : Phase (first + w.spaSync.length) w q) (hout : ∀ x ∈ out, x.1 < n
      ∧ (x.2 = w.txOpenTxg ∨ (x.2 + 1 = w.txOpenTxg ∧ Undrained x.1 q)))
    (hcounts : ∀ d g, count d g
      = slotHolds { w with tcLock := update w.tcLock c k, tcCount := count, outside := out } d g) :
    Inv n first
      { w with tcLock := update w.tcLock c k, tcCount := count, outside := out, qpc := q } := by
  refine ⟨h.calls, hphase, h.synced, ?_, ?_, ?_, hout, hcounts⟩
  · exact (forall_update_iff w.tcLock fun _ l => ∀ t, l = .read t ∨ l = .inside t →
      t = w.txOpenTxg).2 ⟨hread, fun d _ => h.read d⟩
  · exact (forall_update_iff w.tcLock fun d l => l = .quiesce ↔ QuiesceOwns n d q).2
      ⟨hown, fun d hd => (h.owns d).trans (hothers d hd)⟩
  · exact (forall_update_iff w.tcLock fun d l => n ≤ d → l = .free).2
      ⟨fun hge => absurd hc (not_lt.mpr hge), fun d _ => h.cpus d⟩

theorem Inv.user {k : TcLock} (hc : c < n) (hold : w.tcLock c ≠ .quiesce) (hk : k ≠ .quiesce)
    (hread : ∀ t, k = .read t ∨ k = .inside t → t = w.txOpenTxg) (hout : ∀ x ∈ out, x.1 < n
      ∧ (x.2 = w.txOpenTxg ∨ (x.2 + 1 = w.txOpenTxg ∧ Undrained x.1 w.qpc)))
    (hcounts : ∀ d g, count d g
      = slotHolds { w with tcLock := update w.tcLock c k, tcCount := count, outside := out } d g) :
    Inv n first { w with tcLock := update w.tcLock c k, tcCount := count, outside := out } :=
  h.pass hc hread (iff_of_false hk ((h.owns c).not.1 hold)) (fun _ _ => .rfl) h.phase hout hcounts

theorem Inv.at (hpc : w.qpc = q) : Phase (first + w.spaSync.length) w q
    ∧ (∀ c, w.tcLock c = .quiesce ↔ QuiesceOwns n c q)
    ∧ ∀ x ∈ w.outside, x.1 < n
      ∧ (x.2 = w.txOpenTxg ∨ (x.2 + 1 = w.txOpenTxg ∧ Undrained x.1 q)) :=
  hpc ▸ ⟨h.phase, h.owns, h.outside⟩

theorem Inv.counts_pass {k l : TcLock} (hlock : w.tcLock c = l) (hl : ∀ g, l.slot g = 0)
    (hk : ∀ g, k.slot g = 0) (d g : ℕ) : w.tcCount d g = slotHolds (w.setLock c k) d g := by
  rw [h.counts d g, slotHolds, slotHolds]
  by_cases hd : d = c
  · subst hd
    rw [setLock_self, hlock, hl, hk]
    rfl
  · rw [setLock_other hd]
    rfl

theorem Inv.cpu_lt (hlock : w.tcLock c ≠ .free) : c < n := by
  by_contra hc
  exact hlock (h.cpus c (not_lt.mp hc))

theorem Inv.enter (hc : c < n) (hfree : w.tcLock c = .free) : Inv n first (w.setLock c .entered) :=
  h.user hc (by simp [hfree]) (by simp) (by simp) h.outside
    (h.counts_pass hfree (fun _ => rfl) fun _ => rfl)

theorem Inv.hold (c : ℕ) : Inv n first (txgHoldOpen w c) := by
  rw [txgHoldOpen]
  cases hlock : w.tcLock c with
  | entered =>
    have hc : c < n := h.cpu_lt (by simp [hlock])
    refine h.user hc (by simp [hlock]) (by simp) ?_ h.outside
      (h.counts_pass hlock (fun _ => rfl) fun _ => rfl)
    rintro t (heq | heq)
    · exact (TcLock.read.inj heq).symm
    · exact nomatch heq
  | read t =>
    have hc : c < n := h.cpu_lt (by simp [hlock])
    have hopen := h.read c t (.inl hlock)
    refine h.user hc (by simp [hlock]) (by simp) ?_ h.outside ?_
    · rintro u (heq | heq)
      · exact nomatch heq
      · exact (TcLock.inside.inj heq).symm.trans hopen
    intro d g
    have hcount := h.counts d g
    rw [setCount_apply]
    rw [slotHolds] at hcount ⊢
    dsimp only [TxState.setCount]
    by_cases hd : d = c
    · subst hd
      rw [hlock] at hcount
      by_cases hg : g = t % txgSize
      · subst hg
        simp only [update_self, TcLock.slot, and_self, if_true] at hcount ⊢
        omega
      · simp only [update_self, TcLock.slot, hg, if_neg (Ne.symm hg)] at hcount ⊢
        exact hcount
    · simp only [update_of_ne hd, hd]
      exact hcount
  | free | inside | quiesce => exact h

theorem Inv.releToQuiesce (c : ℕ) : Inv n first
    { txgReleToQuiesce w c with outside := (w.tcLock c).handle c ++ w.outside } := by
  rw [txgReleToQuiesce]
  cases hlock : w.tcLock c with
  | inside t =>
    have hc : c < n := h.cpu_lt (by simp [hlock])
    have hopen := h.read c t (.inr hlock)
    refine h.user hc (by simp [hlock]) (by simp) (by simp) ?_ ?_
    · exact forall_mem_cons.mpr ⟨⟨hc, .inl hopen⟩, h.outside⟩
    intro d g
    have hcount := h.counts d g
    rw [slotHolds] at hcount ⊢
    dsimp only [TcLock.handle, singleton_append, TxState.setLock]
    rw [countP_cons]
    by_cases hd : d = c
    · subst hd
      rw [hlock] at hcount
      simp only [update_self, TcLock.slot, true_and, decide_eq_true_eq] at hcount ⊢
      omega
    · have hne : ¬(c = d ∧ t % txgSize = g) := fun hcd => hd hcd.1.symm
      simp only [update_of_ne hd, decide_eq_true_eq, if_neg hne]
      exact hcount
  | free | entered | read | quiesce => exact h

theorem Inv.releToSync (hfree : w.tcLock c = .free) (hmem : (c, t) ∈ w.outside) :
    ∃ w', step n w (.releToSync c t) = .ok w' ∧ Inv n first w' := by
  have hpos : 0 < w.tcCount c (t % txgSize) := by
    rw [h.counts c]
    refine Nat.add_pos_right _ (countP_pos_iff.mpr ⟨(c, t), hmem, ?_⟩)
    exact decide_eq_true ⟨rfl, rfl⟩
  rw [step, txgReleToSync, if_neg hpos.ne']
  refine ⟨_, rfl, { h with
    outside := fun x hx => h.outside x (mem_of_mem_erase hx), counts := fun d g => ?_ }⟩
  have hcount := h.counts d g
  have hperm := (perm_cons_erase hmem).countP_eq fun h => decide (h.1 = d ∧ h.2 % txgSize = g)
  rw [countP_cons] at hperm
  rw [setCount_apply]
  rw [slotHolds] at hcount ⊢
  dsimp only [TxState.setCount]
  by_cases hd : d = c ∧ g = t % txgSize
  · obtain ⟨rfl, rfl⟩ := hd
    rw [if_pos ⟨rfl, rfl⟩]
    simp only [and_self, decide_true, if_true] at hperm
    omega
  · have hno : ¬(c = d ∧ t % txgSize = g) := fun hcd => hd ⟨hcd.1.symm, hcd.2.symm⟩
    rw [if_neg hd]
    simp only [hno, decide_false, Bool.false_eq_true, if_false] at hperm
    omega

theorem Inv.takeLock (hpc : w.qpc = .locking t c) (hc : c < n) (hfree : w.tcLock c = .free) :
    Inv n first { w.setLock c .quiesce with qpc := .locking t (c + 1) } := by
  obtain ⟨hphase, -, hout⟩ := h.at hpc
  refine h.pass hc (by simp) ⟨fun _ => Nat.lt_succ_self c, fun _ => rfl⟩
    (fun d hd => ?_) hphase hout (h.counts_pass hfree (fun _ => rfl) fun _ => rfl)
  rw [hpc]
  show d < c ↔ d < c + 1
  omega

/-- **OPENING THE NEXT GROUP**: with all locks taken, nobody is between reading
    `tx_open_txg` and releasing its lock. -/
theorem Inv.openNext (hpc : w.qpc = .locking t c) (hc : ¬c < n) :
    t = w.txOpenTxg
      ∧ Inv n first { w with txOpenTxg := w.txOpenTxg + 1, qpc := .unlocking t 0 } := by
  obtain ⟨⟨ht, hopen, hquiesced⟩, howns, hout⟩ := h.at hpc
  have hall : ∀ d < n, w.tcLock d = .quiesce := by
    intro d hd
    exact (howns d).mpr (show d < c by omega)
  refine ⟨ht.trans hopen.symm, { h with
    phase := ⟨ht, congrArg (· + 1) hopen, hquiesced⟩, read := ?_, owns := ?_, outside := ?_ }⟩
  · intro d u hd
    rcases lt_or_ge d n with hlt | hge
    · simp [hall d hlt] at hd
    · simp [h.cpus d hge] at hd
  · intro d
    refine ⟨fun hd => ⟨Nat.zero_le d, ?_⟩, fun hd => hall d hd.2⟩
    exact h.cpu_lt fun hf => nomatch hd.symm.trans hf
  · intro x hx
    obtain ⟨hx1, hx2 | ⟨-, hno⟩⟩ := hout x hx
    · exact ⟨hx1, .inr ⟨congrArg (· + 1) hx2, trivial⟩⟩
    · exact hno.elim

theorem Inv.giveLock (hpc : w.qpc = .unlocking t c) (hc : c < n) :
    Inv n first { w.setLock c .free with qpc := .unlocking t (c + 1) } := by
  obtain ⟨hphase, howns, hout⟩ := h.at hpc
  have hlock : w.tcLock c = .quiesce := (howns c).mpr ⟨le_rfl, hc⟩
  refine h.pass hc (by simp) ⟨nofun, fun hd => absurd hd.1 (Nat.not_succ_le_self c)⟩
    (fun d hd => ?_) hphase hout (h.counts_pass hlock (fun _ => rfl) fun _ => rfl)
  rw [hpc]
  show c ≤ d ∧ d < n ↔ c + 1 ≤ d ∧ d < n
  omega

theorem Inv.drain (hpc : w.qpc = .unlocking t c) (hc : ¬c < n) :
    Inv n first { w with qpc := .draining t 0 } := by
  obtain ⟨hphase, howns, hout⟩ := h.at hpc
  refine { h with phase := hphase, owns := ?_, outside := ?_ }
  · intro d
    refine (howns d).trans ⟨fun hd => ?_, fun hd => hd.elim⟩
    exact hc (hd.1.trans_lt hd.2)
  · intro x hx
    obtain ⟨hx1, hx2⟩ := hout x hx
    exact ⟨hx1, hx2.imp id fun hx2 => ⟨hx2.1, Nat.zero_le _⟩⟩

theorem Inv.drained (hpc : w.qpc = .draining t c) (hzero : w.tcCount c (t % txgSize) = 0) :
    Inv n first { w with qpc := .draining t (c + 1) } := by
  obtain ⟨⟨ht, hopen, hquiesced⟩, howns, hout⟩ := h.at hpc
  refine { h with phase := ⟨ht, hopen, hquiesced⟩, owns := howns, outside := fun x hx => ?_ }
  obtain ⟨hx1, hx2 | ⟨hx2, hx3⟩⟩ := hout x hx
  · exact ⟨hx1, .inl hx2⟩
  refine ⟨hx1, .inr ⟨hx2, ?_⟩⟩
  have hne : x.1 ≠ c := by
    intro heq
    rw [h.counts c, slotHolds, Nat.add_eq_zero_iff, countP_eq_zero] at hzero
    have hxt : x.2 = t := by omega
    exact hzero.2 x hx (decide_eq_true ⟨heq, congrArg (· % txgSize) hxt⟩)
  exact Nat.succ_le_of_lt (lt_of_le_of_ne hx3 hne.symm)

theorem Inv.allDrained (hpc : w.qpc = .draining t c) (hc : ¬c < n) :
    Inv n first { w with qpc := .handoff t } := by
  obtain ⟨hphase, howns, hout⟩ := h.at hpc
  refine { h with phase := hphase, owns := howns, outside := fun x hx => ?_ }
  obtain ⟨hx1, hx2 | ⟨-, hx3⟩⟩ := hout x hx
  · exact ⟨hx1, .inl hx2⟩
  · exact absurd (hx3.trans_lt hx1) hc

theorem quiesceStep_spec (hfirst : 0 < first) :
    ∃ w', quiesceStep n w = .ok w' ∧ Inv n first w' := by
  rw [quiesceStep]
  cases hpc : w.qpc with
  | waiting =>
    obtain ⟨hphase, howns, hout⟩ := h.at hpc
    split_ifs with hexit hwait
    · exact ⟨_, rfl, { h with phase := hphase, owns := howns, outside := hout }⟩
    · exact ⟨w, rfl, h⟩
    have hq : w.txQuiescedTxg = 0 := by
      by_contra hne
      exact hwait (.inr hne)
    have hphase' : Phase (first + w.spaSync.length) w (.locking w.txOpenTxg 0) := by
      rcases hphase with ⟨hopen, -⟩ | ⟨-, hnext⟩
      · exact ⟨hopen, hopen, hq⟩
      · omega
    refine ⟨_, rfl, { h with phase := hphase', owns := fun d => ?_, outside := hout }⟩
    exact (howns d).trans ⟨fun hd => hd.elim, fun hd => absurd hd (Nat.not_lt_zero d)⟩
  | locking t c =>
    dsimp only
    split_ifs with hc hfree hopen
    · exact ⟨_, rfl, h.takeLock hpc hc hfree⟩
    · exact ⟨w, rfl, h⟩
    · exact absurd (h.openNext hpc hc).1 hopen
    · exact ⟨_, rfl, (h.openNext hpc hc).2⟩
  | unlocking t c =>
    dsimp only
    split_ifs with hc
    · exact ⟨_, rfl, h.giveLock hpc hc⟩
    · exact ⟨_, rfl, h.drain hpc hc⟩
  | draining t c =>
    dsimp only
    split_ifs with hc hzero
    · exact ⟨_, rfl, h.drained hpc hzero.2⟩
    · exact ⟨w, rfl, h⟩
    · exact ⟨_, rfl, h.allDrained hpc hc⟩
  | handoff t =>
    obtain ⟨⟨ht, hopen, -⟩, howns, hout⟩ := h.at hpc
    exact ⟨_, rfl, { h with phase := .inr ⟨hopen, ht⟩, owns := howns, outside := hout }⟩
  | gone => exact ⟨w, rfl, h⟩

theorem Inv.quiesced (hq : w.txQuiescedTxg ≠ 0) :
    w.txQuiescedTxg = first + w.spaSync.length ∧ w.txOpenTxg = first + w.spaSync.length + 1
      ∧ (w.qpc = .waiting ∨ w.qpc = .gone) := by
  have hphase := h.phase
  cases hpc : w.qpc with
  | waiting | gone =>
    rw [hpc] at hphase
    rcases hphase with ⟨-, hzero⟩ | ⟨hopen, hnext⟩
    · exact absurd hzero hq
    · exact ⟨hnext, hopen, by simp⟩
  | locking | unlocking | draining | handoff =>
    rw [hpc] at hphase
    exact absurd hphase.2.2 hq

theorem Inv.consume (hq : w.txQuiescedTxg ≠ 0) (hpc : w.spc = .waiting) :
    Inv n first { w with
      txQuiescedTxg := 0
      txSyncingTxg := w.txQuiescedTxg
      spc := .syncing w.txQuiescedTxg
      spaSync := w.spaSync ++ [w.txQuiescedTxg] } := by
  obtain ⟨hnext, hopen, hidle⟩ := h.quiesced hq
  have hsynced := h.synced
  rw [hpc] at hsynced
  have hlen : (w.spaSync ++ [w.txQuiescedTxg]).length = w.spaSync.length + 1 := by simp
  refine { h with calls := ?_, phase := ?_, synced := ?_ }
  · rw [hlen, range'_1_concat, ← h.calls, ← hnext]
  · have hphase : w.txOpenTxg = first + (w.spaSync ++ [w.txQuiescedTxg]).length := by omega
    rcases hidle with hidle | hidle <;>
    · rw [hidle]
      exact .inl ⟨hphase, rfl⟩
  · show w.txQuiescedTxg + 1 = first + (w.spaSync ++ [w.txQuiescedTxg]).length
      ∧ first ≤ w.txQuiescedTxg ∧ max w.txSyncedTxg (first - 1) + 1 = w.txQuiescedTxg
    have hs : max w.txSyncedTxg (first - 1) + 1 = first + w.spaSync.length := hsynced
    omega

theorem syncStep_spec : Inv n first (syncStep w) := by
  rw [syncStep]
  cases hpc : w.spc with
  | waiting =>
    have hsynced := h.synced
    rw [hpc] at hsynced
    split_ifs with hexit hq
    · exact { h with synced := hsynced }
    · exact h
    · exact h.consume hq hpc
  | syncing t =>
    have hsynced := h.synced
    rw [hpc] at hsynced
    obtain ⟨hnext, -, -⟩ := hsynced
    refine { h with synced := ?_ }
    show max t (first - 1) + 1 = first + w.spaSync.length
    omega
  | gone => exact h

theorem step_spec (hfirst : 0 < first) (hop : Allowed n w op) :
    ∃ w', step n w op = .ok w' ∧ Inv n first w' := by
  cases op with
  | enter c => exact ⟨_, rfl, h.enter hop.1 hop.2⟩
  | hold c => exact ⟨_, rfl, h.hold c⟩
  | releToQuiesce c => exact ⟨_, rfl, h.releToQuiesce c⟩
  | releToSync c t => exact h.releToSync hop.1 hop.2
  | quiesce => exact quiesceStep_spec h hfirst
  | sync => exact ⟨_, rfl, syncStep_spec h⟩
  | request | stop => exact ⟨_, rfl, { h with }⟩
  | start =>
    obtain ⟨hq, hs⟩ := hop
    obtain ⟨hphase, howns, hout⟩ := h.at hq
    have hsynced := h.synced
    rw [hs] at hsynced
    exact ⟨_, rfl, { h with phase := hphase, synced := hsynced, owns := howns, outside := hout }⟩

omit h in
theorem Reachable.inv (h : Reachable n first w) (hfirst : 0 < first) : Inv n first w := by
  induction h with
  | init => exact Inv.init hfirst
  | step op _ hop hs ih =>
    obtain ⟨w', hs', hinv⟩ := step_spec ih hfirst hop
    rw [hs] at hs'
    exact Except.ok.inj hs' ▸ hinv

/-- The groups that are open, quiescing, quiesced or syncing.  Before the first group of
    a run is synced, `tx_synced_txg` is 0 and the group before the first counts as synced. -/
def Live (first : ℕ) (w : TxState) (t : ℕ) : Prop :=
  max w.txSyncedTxg (first - 1) < t ∧ t ≤ w.txOpenTxg

theorem Inv.window :
    max w.txSyncedTxg (first - 1) < first + w.spaSync.length
      ∧ first + w.spaSync.length ≤ max w.txSyncedTxg (first - 1) + 2
      ∧ first + w.spaSync.length ≤ w.txOpenTxg
      ∧ w.txOpenTxg ≤ first + w.spaSync.length + 1 := by
  have hs : max w.txSyncedTxg (first - 1) < first + w.spaSync.length
      ∧ first + w.spaSync.length ≤ max w.txSyncedTxg (first - 1) + 2 := by
    have hsynced := h.synced
    cases hpc : w.spc with
    | syncing t =>
      rw [hpc] at hsynced
      obtain ⟨hnext, -, hlast⟩ := hsynced
      omega
    | waiting | gone =>
      rw [hpc] at hsynced
      have : max w.txSyncedTxg (first - 1) + 1 = first + w.spaSync.length := hsynced
      omega
  have hq : first + w.spaSync.length ≤ w.txOpenTxg
      ∧ w.txOpenTxg ≤ first + w.spaSync.length + 1 := by
    have hphase := h.phase
    cases hpc : w.qpc with
    | waiting | gone =>
      rw [hpc] at hphase
      rcases hphase with ⟨hopen, -⟩ | ⟨hopen, -⟩ <;> omega
    | locking | unlocking | draining | handoff =>
      rw [hpc] at hphase
      have hopen := hphase.2.1
      omega
  exact ⟨hs.1, hs.2, hq.1, hq.2⟩

/-- A handle on a group that is being closed is on a group not yet given to `spa_sync`. -/
theorem Inv.next_le_outside {x : ℕ × ℕ} (hx : x ∈ w.outside) :
    first + w.spaSync.length ≤ x.2 ∧ x.2 ≤ w.txOpenTxg := by
  obtain ⟨-, -, hopen, -⟩ := h.window
  obtain ⟨-, heq | ⟨heq, hund⟩⟩ := h.outside x hx
  · exact ⟨hopen.trans heq.ge, heq.le⟩
  have hphase := h.phase
  cases hpc : w.qpc with
  | unlocking | draining =>
    rw [hpc] at hphase
    have := hphase.2.1
    omega
  | waiting | locking | handoff | gone =>
    rw [hpc] at hund
    exact hund.elim

theorem Inv.next_le_held (hheld : Held w c t) : first + w.spaSync.length ≤ t ∧ t ≤ w.txOpenTxg := by
  rcases hheld with hlock | hout
  · rw [h.read c t (.inr hlock)]
    exact ⟨h.window.2.2.1, le_rfl⟩
  · exact h.next_le_outside hout

theorem Inv.live_held (hheld : Held w c t) : Live first w t :=
  ⟨h.window.1.trans_le (h.next_le_held hheld).1, (h.next_le_held hheld).2⟩

/-- **NO SLOT IS SHARED**: live groups have different remainders. -/
theorem Inv.slot_inj {u : ℕ} (ht : Live first w t) (hu : Live first w u)
    (hslot : t % txgSize = u % txgSize) : t = u := by
  obtain ⟨-, h2, -, h4⟩ := h.window
  obtain ⟨ht1, ht2⟩ := ht
  obtain ⟨hu1, hu2⟩ := hu
  rw [txgSize] at hslot
  omega

/-- `tc_count` of a live group's slot counts the holds of that group and no others. -/
theorem Inv.tcCount_eq (ht : Live first w t) : w.tcCount c (t % txgSize) = holds w c t := by
  rw [h.counts, slotHolds]
  congr 1
  · cases hlock : w.tcLock c with
    | inside u =>
      have hu := h.live_held (.inl hlock)
      by_cases heq : u = t
      · rw [heq, TcLock.slot, if_pos rfl, if_pos rfl]
      · have hne : u % txgSize ≠ t % txgSize := fun hslot => heq (h.slot_inj hu ht hslot)
        have hne' : TcLock.inside u ≠ .inside t := fun hin => heq (TcLock.inside.inj hin)
        rw [TcLock.slot, if_neg hne, if_neg hne']
    | free | entered | read | quiesce => rfl
  · refine countP_congr ?_
    rintro ⟨d, u⟩ hx
    have hu := h.live_held (.inr hx)
    simp only [decide_eq_true_eq, beq_iff_eq, Prod.mk.injEq]
    refine and_congr_right fun _ => ⟨fun hslot => h.slot_inj hu ht hslot, fun heq => by rw [heq]⟩

end

/-- The calls of `spa_sync` are only added to, and the open group only moves on. -/
structure Grows (w w' : TxState) : Prop where
  calls : w.spaSync <+: w'.spaSync
  opened : w.txOpenTxg ≤ w'.txOpenTxg

theorem Grows.of_eq (hcalls : w'.spaSync = w.spaSync) (hopen : w'.txOpenTxg = w.txOpenTxg) :
    Grows w w' :=
  ⟨⟨[], by rw [hcalls, append_nil]⟩, hopen.ge⟩

theorem txgHoldOpen_grows (w : TxState) (c : ℕ) : Grows w (txgHoldOpen w c) := by
  rw [txgHoldOpen]
  cases w.tcLock c <;> exact .of_eq rfl rfl

theorem releToQuiesce_grows (w : TxState) (c : ℕ) :
    Grows w { txgReleToQuiesce w c with outside := (w.tcLock c).handle c ++ w.outside } := by
  rw [txgReleToQuiesce]
  cases w.tcLock c <;> exact .of_eq rfl rfl

theorem quiesceStep_grows (hs : quiesceStep n w = .ok w') : Grows w w' := by
  rw [quiesceStep] at hs
  cases hpc : w.qpc with
  | waiting | unlocking | draining =>
    rw [hpc] at hs
    dsimp only at hs
    split_ifs at hs
    all_goals exact Except.ok.inj hs ▸ .of_eq rfl rfl
  | locking t c =>
    rw [hpc] at hs
    dsimp only at hs
    split_ifs at hs
    · exact Except.ok.inj hs ▸ .of_eq rfl rfl
    · exact Except.ok.inj hs ▸ .of_eq rfl rfl
    · exact Except.ok.inj hs ▸ ⟨⟨[], append_nil _⟩, Nat.le_succ _⟩
  | handoff | gone =>
    rw [hpc] at hs
    exact Except.ok.inj hs ▸ .of_eq rfl rfl

theorem syncStep_grows (w : TxState) : Grows w (syncStep w) := by
  rw [syncStep]
  cases hpc : w.spc with
  | waiting =>
    split_ifs
    · exact .of_eq rfl rfl
    · exact .of_eq rfl rfl
    · exact ⟨⟨_, rfl⟩, le_rfl⟩
  | syncing | gone => exact .of_eq rfl rfl

theorem step_grows (hs : step n w op = .ok w') : Grows w w' := by
  cases op with
  | enter | request | stop | start => exact Except.ok.inj hs ▸ .of_eq rfl rfl
  | hold c => exact Except.ok.inj hs ▸ txgHoldOpen_grows w c
  | releToQuiesce c => exact Except.ok.inj hs ▸ releToQuiesce_grows w c
  | releToSync c t =>
    simp only [step, txgReleToSync] at hs
    split_ifs at hs
    · cases hs
    · exact Except.ok.inj hs ▸ .of_eq rfl rfl
  | quiesce => exact quiesceStep_grows hs
  | sync => exact Except.ok.inj hs ▸ syncStep_grows w

/-- **GROUPS ARE SYNCED IN ORDER AND ALONE**: `spa_sync` gets the groups one after the other,
    each once; a group given to it is held by nobody, then or later; at most three groups
    are live, so that each has its slot of `tc_count` for itself; and no `ASSERT` fires. -/
theorem txg_sync_in_order (hfirst : 0 < first) (h : Reachable n first w) :
    w.spaSync = range' first w.spaSync.length
      ∧ (∀ t ∈ w.spaSync, t < w.txOpenTxg ∧ ∀ c, ¬Held w c t ∧ w.tcLock c ≠ .read t)
      ∧ (∀ op w', step n w op = .ok w' → w.spaSync <+: w'.spaSync ∧ w.txOpenTxg ≤ w'.txOpenTxg)
      ∧ w.txOpenTxg - max w.txSyncedTxg (first - 1) ≤ txgConcurrentStates
      ∧ (∀ c t, Held w c t → Live first w t)
      ∧ (∀ t u, Live first w t → Live first w u → t % txgSize = u % txgSize → t = u)
      ∧ (∀ c t, Live first w t → w.tcCount c (t % txgSize) = holds w c t)
      ∧ ∀ op, Allowed n w op → ∃ w', step n w op = .ok w' := by
  have hinv := h.inv hfirst
  obtain ⟨-, hw2, hw3, hw4⟩ := hinv.window
  refine ⟨hinv.calls, ?_, ?_, ?_, fun c t => hinv.live_held, fun t u => hinv.slot_inj,
    fun c t => hinv.tcCount_eq, ?_⟩
  · intro t ht
    rw [hinv.calls, mem_range'_1] at ht
    refine ⟨by omega, fun c => ⟨fun hheld => ?_, fun hread => ?_⟩⟩
    · have := (hinv.next_le_held hheld).1
      omega
    · have := hinv.read c t (.inl hread)
      omega
  · intro op w' hs
    exact ⟨(step_grows hs).calls, (step_grows hs).opened⟩
  · rw [txgConcurrentStates]
    omega
  · intro op hop
    obtain ⟨w', hs, -⟩ := step_spec hinv hfirst hop
    exact ⟨w', hs⟩

/-- On one CPU, the first group is closed while it is held.  The quiesce thread waits for the lock
    and then for the count, and the group is drained, handed over and given to `spa_sync` while
    the next one is held. -/
theorem exists_reachable_syncing :
    ∃ w, Reachable 1 4 w ∧ w.spaSync = [4] ∧ w.tcLock 0 = .inside 5 ∧ w.tcCount 0 1 = 1 := by
  have h : Reachable 1 4 (txgInit 4) := .init
  have h1 := h.step (.enter 0) ⟨by decide, rfl⟩ rfl
  have h2 := (h1.step (.hold 0) trivial rfl).step (.hold 0) trivial rfl
  have h3 := (h2.step (.request 5) trivial rfl).step .quiesce trivial rfl
  have h4 := h3.step .quiesce trivial rfl
  have h5 := (h4.step (.releToQuiesce 0) trivial rfl).step .quiesce trivial rfl
  have h6 := (h5.step .quiesce trivial rfl).step .quiesce trivial rfl
  have h7 := (h6.step .quiesce trivial rfl).step .quiesce trivial rfl
  have h8 := h7.step (.releToSync 0 4) ⟨rfl, mem_cons_self⟩ rfl
  have h9 := (h8.step .quiesce trivial rfl).step (.enter 0) ⟨by decide, rfl⟩ rfl
  have h10 := (h9.step (.hold 0) trivial rfl).step (.hold 0) trivial rfl
  have h11 := (h10.step .quiesce trivial rfl).step .quiesce trivial rfl
  exact ⟨_, h11.step .sync trivial rfl, rfl, rfl, rfl⟩

theorem txg_sync_in_order_first :
    ∃ w, Reachable 1 4 w ∧ w.spaSync = [4] ∧ (∀ c, ¬Held w c 4) ∧ Held w 0 5 ∧ holds w 0 5 = 1
      ∧ w.txOpenTxg - max w.txSyncedTxg 3 ≤ txgConcurrentStates :=
  exists_reachable_syncing.elim fun w hw =>
    have h := txg_sync_in_order (by decide) hw.1
    have hmem : 4 ∈ w.spaSync := by
      rw [hw.2.1]
      exact mem_singleton_self 4
    have hheld : Held w 0 5 := .inl hw.2.2.1
    have hcount := h.2.2.2.2.2.2.1 0 5 (h.2.2.2.2.1 0 5 hheld)
    ⟨w, hw.1, hw.2.1, fun c => ((h.2.1 4 hmem).2 c).1, hheld, hcount.symm.trans hw.2.2.2,
      h.2.2.2.1⟩

/-- The field `tx_synced_txg` itself is further behind until a first group is synced: a new
    pool starts with group 4 open and 0 in `tx_synced_txg`. -/
theorem txOpen_exceeds_txSynced :
    Reachable 1 4 (txgInit 4)
      ∧ txgConcurrentStates < (txgInit 4).txOpenTxg - (txgInit 4).txSyncedTxg :=
  ⟨.init, by decide⟩

end Sirius.Txg
