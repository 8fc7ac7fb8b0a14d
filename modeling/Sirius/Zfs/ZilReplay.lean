import Mathlib.Data.List.Sort
import Sirius.Zfs.Zil

/-! # Replaying a claimed log

    The thread of `zil_replay`, the txgs its records are replayed in and `zil_sync`, which
    copies the progress slot of a txg to the header.  A crash leaves what is on disk.  `log` is
    the list of the records that the parse of the claimed log visits. -/

namespace Sirius.Zil.Replay

open Sirius.Zil List Nat
open Option (ite_none_right_eq_some some_ne_none)

def txgSize : Nat := 4

def txgConcurrentStates : Nat := 3

inductive Result
  | ok
  | restart
  | error
  deriving DecidableEq

/-- Where the thread of `zil_replay` is.  In `zil_replay_log_record` it is at the record `r`, with
    `rest` behind it. -/
inductive Phase
  /-- In front of `txg_wait_synced(dp, 0)`. -/
  | start
  /-- Waiting for in-progress removes to sync. -/
  | drain (txg : Nat)
  /-- In `zil_parse`, in front of a record. -/
  | parse (rest : List Record)
  /-- In front of `dmu_tx_assign`. -/
  | attempt (r : Record) (rest : List Record) (pass : Nat) (sunk : Bool)
  /-- With a transaction in `txg`, in front of the replay vector. -/
  | running (r : Record) (rest : List Record) (pass : Nat) (sunk : Bool) (txg : Nat)
  /-- In `txg_wait_synced` after an error. -/
  | sink (r : Record) (rest : List Record) (pass : Nat) (txg : Nat)
  /-- In `txg_wait_open`. -/
  | reopen (r : Record) (rest : List Record) (pass : Nat) (sunk : Bool) (txg : Nat)
  /-- In front of `zil_destroy`. -/
  | destroy
  /-- In the last `txg_wait_synced`. -/
  | finish (txg : Nat)
  | done
  deriving DecidableEq

structure Disk where
  /-- The sequence numbers of the records whose effects are on disk. -/
  applied : List Nat
  /-- `zh_replay_seq`. -/
  replaySeq : Nat
  /-- Set when the log is destroyed: the record at which the replay stopped, if it did. -/
  finished : Option (Option Nat)
  deriving DecidableEq

structure State where
  disk : Disk
  /-- `zh_replay_seq` in memory. -/
  hdr : Nat
  /-- `zl_replay_seq`. -/
  slots : Nat → Nat
  openTxg : Nat
  syncedTxg : Nat
  /-- The txg and the sequence number of each record replayed in a txg not yet synced. -/
  effects : List (Nat × Nat)
  /-- The txgs in which the dataset was dirtied. -/
  dirty : List Nat
  /-- `zl_destroy_txg`. -/
  destroyTxg : Option Nat
  /-- `zl_stop_replay`, with the record that failed. -/
  stop : Option Nat
  phase : Phase

def boot (disk : Disk) (syncedTxg : Nat) : State where
  disk := disk
  hdr := disk.replaySeq
  slots _ := 0
  openTxg := syncedTxg + 1
  syncedTxg := syncedTxg
  effects := []
  dirty := []
  destroyTxg := none
  stop := none
  phase := if disk.finished = none then .start else .done

inductive Event
  /-- The thread goes on; `assign` says whether `dmu_tx_assign` succeeds and `result` what the
      replay vector returns. -/
  | thread (assign : Bool) (result : Result)
  /-- The next txg is opened. -/
  | open
  /-- Something else dirties the dataset in a txg that has not begun to sync. -/
  | dirty (txg : Nat)
  /-- `spa_sync` of the next txg. -/
  | sync
  | crash
  deriving DecidableEq

def State.held (s : State) : Option Nat :=
  match s.phase with
  | .running _ _ _ _ txg => some txg
  | _ => none

/-- The head of `zil_replay_log_record`. -/
def State.offer (s : State) (claimTxg : Nat) (r : Record) (rest : List Record) : Phase :=
  if s.stop.isSome then .parse rest
  else if r.txg < claimTxg then .parse rest
  else if r.seq ≤ s.hdr then .parse rest
  else .attempt r rest 1 false

/-- The replay vector has returned: the rest of a pass of `zil_replay_log_record`. -/
def State.finishPass (s : State) (r : Record) (rest : List Record) (pass : Nat) (sunk : Bool)
    (txg : Nat) : Result → State
  | .ok =>
    { s with
      effects := s.effects ++ [(txg, r.seq)]
      slots := fun i => if i = txg % txgSize then r.seq else s.slots i
      dirty := txg :: s.dirty
      phase := .parse rest }
  | .restart =>
    { s with
      phase := if pass ≠ 1 then .reopen r rest (pass + 1) sunk (txg + 1)
        else .attempt r rest (pass + 1) sunk }
  | .error =>
    if sunk then { s with stop := some r.seq, phase := .parse rest }
    else { s with phase := .sink r rest (pass + 1) s.openTxg }

def State.thread (s : State) (claimTxg : Nat) (log : List Record) (assign : Bool)
    (result : Result) : Option State :=
  match s.phase with
  | .start => some { s with phase := .drain s.openTxg }
  | .drain txg => if txg ≤ s.syncedTxg then some { s with stop := none, phase := .parse log }
    else none
  | .parse [] => some { s with phase := .destroy }
  | .parse (r :: rest) => some { s with phase := s.offer claimTxg r rest }
  | .attempt r rest pass sunk =>
    if assign then some { s with phase := .running r rest pass sunk s.openTxg }
    else some { s with stop := some r.seq, phase := .parse rest }
  | .running r rest pass sunk txg => some (s.finishPass r rest pass sunk txg result)
  | .sink r rest pass txg =>
    if txg ≤ s.syncedTxg then some { s with phase := .attempt r rest pass true } else none
  | .reopen r rest pass sunk txg =>
    if txg ≤ s.openTxg then some { s with phase := .attempt r rest pass sunk } else none
  | .destroy =>
    some { s with
      destroyTxg := some s.openTxg
      dirty := s.openTxg :: s.dirty
      phase := .finish s.openTxg }
  | .finish txg => if txg ≤ s.syncedTxg then some { s with phase := .done } else none
  | .done => none

/-- `zil_sync`, with the part that destroys the log. -/
def State.zilSync (s : State) (txg : Nat) : State :=
  let s := { s with hdr := s.slots (txg % txgSize) }
  if s.destroyTxg = some txg then { s with hdr := 0, slots := fun _ => 0 } else s

/-- `spa_sync` of a txg: `zil_sync` if the dataset is dirty, then the uberblock. -/
def State.spaSync (s : State) (txg : Nat) : State :=
  let s' := if txg ∈ s.dirty then s.zilSync txg else s
  { s' with
    disk :=
      { applied := s.disk.applied ++ (s.effects.filter fun e => e.1 = txg).map Prod.snd
        replaySeq := s'.hdr
        finished := if txg ∈ s.dirty ∧ s.destroyTxg = some txg then some s.stop
          else s.disk.finished }
    syncedTxg := txg
    effects := s.effects.filter fun e => e.1 ≠ txg }

def step (claimTxg : Nat) (log : List Record) (s : State) : Event → Option State
  | .thread assign result => s.thread claimTxg log assign result
  | .open =>
    if s.openTxg + 1 - s.syncedTxg ≤ txgConcurrentStates then
      some { s with openTxg := s.openTxg + 1 }
    else none
  | .dirty txg =>
    if s.syncedTxg < txg ∧ txg ≤ s.openTxg then some { s with dirty := txg :: s.dirty } else none
  | .sync =>
    if s.syncedTxg + 1 < s.openTxg ∧ s.held ≠ some (s.syncedTxg + 1) then
      some (s.spaSync (s.syncedTxg + 1))
    else none
  | .crash => some (boot s.disk s.syncedTxg)

def run (claimTxg : Nat) (log : List Record) : State → List Event → Option State
  | s, [] => some s
  | s, ev :: evs => (step claimTxg log s ev).bind fun s' => run claimTxg log s' evs

/-- A `zil_sync` does not go back: it is for a txg in which a record was replayed or the log is
    destroyed, or the slot of the txg holds what the header says. -/
def Fresh (s : State) : Event → Prop
  | .sync => s.syncedTxg + 1 ∈ s.dirty → (∃ e ∈ s.effects, e.1 = s.syncedTxg + 1) ∨
      s.destroyTxg = some (s.syncedTxg + 1) ∨ s.slots ((s.syncedTxg + 1) % txgSize) = s.hdr
  | _ => True

instance (s : State) : (ev : Event) → Decidable (Fresh s ev)
  | .sync => inferInstanceAs (Decidable (_ → _))
  | .thread _ _ | .open | .dirty _ | .crash => isTrue trivial

def lastSeq (l : List Nat) : Nat := l.getLastD 0

@[simp] theorem lastSeq_append_singleton (l : List Nat) (a : Nat) : lastSeq (l ++ [a]) = a := by
  simp [lastSeq]

variable {b : List Nat}

theorem lastSeq_append_of_ne (a : List Nat) (h : b ≠ []) : lastSeq (a ++ b) = lastSeq b := by
  obtain ⟨c, x, rfl⟩ := eq_nil_or_concat b |>.resolve_left h
  rw [concat_eq_append, ← append_assoc, lastSeq_append_singleton, lastSeq_append_singleton]

theorem lastSeq_mem {l : List Nat} (h : l ≠ []) : lastSeq l ∈ l := by
  obtain ⟨c, x, rfl⟩ := eq_nil_or_concat l |>.resolve_left h
  rw [concat_eq_append, lastSeq_append_singleton]
  exact mem_append_right _ (mem_singleton.mpr rfl)

variable {x : Nat} {a : List Nat}

theorem lastSeq_lt (h : (a ++ b).Pairwise (· < ·)) (hpos : ∀ x ∈ b, 0 < x)
    (hx : x ∈ b) : lastSeq a < x := by
  by_cases ha : a = []
  · subst ha
    exact hpos x hx
  · exact (pairwise_append.mp h).2.2 _ (lastSeq_mem ha) x hx

theorem le_lastSeq (h : a.Pairwise (· < ·)) (hx : x ∈ a) : x ≤ lastSeq a := by
  obtain ⟨c, y, rfl⟩ := eq_nil_or_concat a |>.resolve_left (ne_nil_of_mem hx)
  rw [concat_eq_append] at h hx ⊢
  rw [lastSeq_append_singleton]
  rcases mem_append.mp hx with hx | hx
  · exact le_of_lt ((pairwise_append.mp h).2.2 x hx y (mem_singleton.mpr rfl))
  · exact le_of_eq (mem_singleton.mp hx)

/-- The records that are to be replayed: those of the log that are not from a synced txg. -/
def eligible (claimTxg : Nat) (log : List Record) : List Nat :=
  (log.filter fun r => claimTxg ≤ r.txg).map Record.seq

/-- What a parse has still to replay when the header says `hdr`. -/
def todo (claimTxg hdr : Nat) (rest : List Record) : List Nat :=
  (rest.filter fun r => claimTxg ≤ r.txg ∧ hdr < r.seq).map Record.seq

structure Numbered (log : List Record) : Prop where
  increasing : (log.map Record.seq).Pairwise (· < ·)
  positive : ∀ r ∈ log, 0 < r.seq

theorem todo_eq_filter (claimTxg hdr : Nat) (log : List Record) :
    todo claimTxg hdr log = (eligible claimTxg log).filter (hdr < ·) := by
  rw [todo, eligible, filter_map, filter_filter]
  congr 1
  refine filter_congr fun r _ => ?_
  simp [Bool.and_comm]

section Numbered

variable {claimTxg : Nat} {log : List Record}

theorem Numbered.eligible_pairwise (h : Numbered log) : (eligible claimTxg log).Pairwise (· < ·) :=
  h.increasing.sublist (List.Sublist.map _ (filter_sublist ..))

theorem Numbered.eligible_pos (h : Numbered log) (hx : x ∈ eligible claimTxg log) : 0 < x := by
  obtain ⟨r, hr, rfl⟩ := mem_map.mp hx
  exact h.positive r (mem_of_mem_filter hr)

theorem Numbered.todo_eq (h : Numbered log) (hab : a ++ b = eligible claimTxg log) :
    todo claimTxg (lastSeq a) log = b := by
  have hpw : (a ++ b).Pairwise (· < ·) := hab ▸ h.eligible_pairwise
  have hpos : ∀ x ∈ b, 0 < x := fun x hx =>
    h.eligible_pos (show x ∈ eligible claimTxg log from hab ▸ mem_append_right a hx)
  rw [todo_eq_filter, ← hab, filter_append]
  have ha : a.filter (lastSeq a < ·) = [] := filter_eq_nil_iff.mpr fun x hx => by
    simpa using le_lastSeq (pairwise_append.mp hpw).1 hx
  have hb : b.filter (lastSeq a < ·) = b := filter_eq_self.mpr fun x hx => by
    simpa using lastSeq_lt hpw hpos hx
  rw [ha, hb, nil_append]

end Numbered

variable {rest : List Record} {claimTxg : Nat} {r : Record} {hdr : Nat}

theorem todo_cons_skip (h : ¬ (claimTxg ≤ r.txg ∧ hdr < r.seq)) :
    todo claimTxg hdr (r :: rest) = todo claimTxg hdr rest := by
  rw [todo, filter_cons_of_neg (by simpa using h), todo]

theorem todo_cons_take (h : claimTxg ≤ r.txg ∧ hdr < r.seq) :
    todo claimTxg hdr (r :: rest) = r.seq :: todo claimTxg hdr rest := by
  rw [todo, filter_cons_of_pos (by simpa using h), todo, map_cons]

theorem todo_congr {hdr' : Nat}
    (h : ∀ r ∈ rest, hdr < r.seq ↔ hdr' < r.seq) :
    todo claimTxg hdr rest = todo claimTxg hdr' rest := by
  rw [todo]
  congr 1
  refine filter_congr fun r hr => ?_
  simp [h r hr]

def seqsIn (effects : List (Nat × Nat)) (txg : Nat) : List Nat :=
  (effects.filter fun e => e.1 = txg).map Prod.snd

theorem filter_append_filter {l : List (Nat × Nat)} (hs : l.Pairwise fun a b => a.1 ≤ b.1)
    (hx : ∀ e ∈ l, x ≤ e.1) : (l.filter fun e => e.1 = x) ++ (l.filter fun e => e.1 ≠ x) = l := by
  induction l with
  | nil => rfl
  | cons e l ih =>
    obtain ⟨he, hl⟩ := pairwise_cons.mp hs
    have ih := ih hl fun q hq => hx q (mem_cons_of_mem _ hq)
    by_cases hex : e.1 = x
    · rw [filter_cons_of_pos (by simpa using hex), filter_cons_of_neg (by simpa using hex),
        cons_append, ih]
    have hlt : x < e.1 := lt_of_le_of_ne (hx e (mem_cons_self ..)) fun h => hex h.symm
    have hnil : l.filter (fun e => e.1 = x) = [] := filter_eq_nil_iff.mpr fun q hq => by
      have := he q hq
      simp
      omega
    rw [hnil, nil_append] at ih
    rw [filter_cons_of_neg (by simpa using hex), filter_cons_of_pos (by simpa using hex),
      hnil, ih, nil_append]

/-- The replay stopped at the next record that was left, or none was. -/
def Ended (stop : Option Nat) (left : List Nat) : Prop :=
  match stop with
  | none => left = []
  | some q => ∃ t, left = q :: t

def State.Replaying (s : State) : Prop := s.destroyTxg = none ∧ s.disk.finished = none

/-- The thread has the records `rest` before it. -/
structure AtRecords (log : List Record) (s : State) (rest : List Record) : Prop where
  replaying : s.Replaying
  suffix : rest <:+ log
  behind : ∀ e ∈ s.effects, ∀ r ∈ rest, e.2 < r.seq

/-- The thread is replaying the record `r`, the first of those that are left. -/
structure OnRecord (claimTxg : Nat) (log : List Record) (s : State) (left : List Nat) (r : Record)
    (rest : List Record) : Prop where
  at_records : AtRecords log s (r :: rest)
  stop : s.stop = none
  new : s.hdr < r.seq
  left_eq : left = r.seq :: todo claimTxg s.hdr rest

/-- What the thread has still to replay, in each of its phases; `left` is what has not been
    replayed. -/
def Thread (claimTxg : Nat) (log : List Record) (s : State) (left : List Nat) : Prop :=
  match s.phase with
  | .start | .drain _ => s.Replaying ∧ s.stop = none ∧ s.effects = []
  | .parse rest => AtRecords log s rest ∧ match s.stop with
      | none => left = todo claimTxg s.hdr rest
      | some q => ∃ t, left = q :: t
  | .attempt r rest _ _ => OnRecord claimTxg log s left r rest
  | .running r rest _ _ txg => OnRecord claimTxg log s left r rest ∧ s.syncedTxg < txg ∧
      txg ≤ s.openTxg ∧ ∀ e ∈ s.effects, e.1 ≤ txg
  | .sink r rest _ _ | .reopen r rest _ _ _ => OnRecord claimTxg log s left r rest
  | .destroy => s.Replaying ∧ Ended s.stop left
  | .finish txg => s.destroyTxg = some txg ∧
      (s.disk.finished = none ∧ txg ∈ s.dirty ∧ s.syncedTxg < txg ∧
        (∀ e ∈ s.effects, e.1 ≤ txg) ∧ Ended s.stop left ∨
      ∃ stop, s.disk.finished = some stop ∧ txg ≤ s.syncedTxg ∧ s.effects = [] ∧ Ended stop left)
  | .done => (∀ txg, s.destroyTxg = some txg → txg ≤ s.syncedTxg) ∧
      ∃ stop, s.disk.finished = some stop ∧ s.effects = [] ∧ Ended stop left

structure Inv (claimTxg : Nat) (log : List Record) (s : State) : Prop where
  window : s.syncedTxg < s.openTxg ∧ s.openTxg ≤ s.syncedTxg + txgConcurrentStates
  range : ∀ e ∈ s.effects, s.syncedTxg < e.1 ∧ e.1 ≤ s.openTxg
  sorted : s.effects.Pairwise fun a b => a.1 ≤ b.1
  dirtied : ∀ e ∈ s.effects, e.1 ∈ s.dirty
  slots : ∀ x, s.syncedTxg < x → x ≤ s.openTxg → seqsIn s.effects x ≠ [] →
    s.slots (x % txgSize) = lastSeq (seqsIn s.effects x)
  header : s.hdr = s.disk.replaySeq
  exact : s.disk.finished = none → s.hdr = lastSeq s.disk.applied
  progress : ∃ left, s.disk.applied ++ (s.effects.map Prod.snd ++ left) = eligible claimTxg log ∧
    Thread claimTxg log s left

section Steps

variable {claimTxg : Nat} {log : List Record} {s s' : State}

theorem AtRecords.tail (h : AtRecords log s (r :: rest)) : AtRecords log s rest :=
  ⟨h.replaying, (suffix_cons r rest).trans h.suffix,
    fun e he q hq => h.behind e he q (mem_cons_of_mem _ hq)⟩

theorem Inv.of_phase (h : Inv claimTxg log s) {p : Phase} (hphase : s.phase = p) (phase : Phase)
    (stop : Option Nat)
    (hthread : ∀ left, s.disk.applied ++ (s.effects.map Prod.snd ++ left) = eligible claimTxg log →
      Thread claimTxg log { s with phase := p } left →
      Thread claimTxg log { s with phase := phase, stop := stop } left) :
    Inv claimTxg log { s with phase := phase, stop := stop } := by
  subst hphase
  obtain ⟨left, hleft, ht⟩ := h.progress
  exact { h with progress := ⟨left, hleft, hthread left hleft ht⟩ }

variable {left : List Nat}

theorem OnRecord.of_phase (h : OnRecord claimTxg log s left r rest) (phase : Phase) :
    OnRecord claimTxg log { s with phase := phase } left r rest :=
  ⟨{ h.at_records with }, h.stop, h.new, h.left_eq⟩

theorem OnRecord.failed (h : OnRecord claimTxg log s left r rest) :
    Thread claimTxg log { s with phase := .parse rest, stop := some r.seq } left := by
  have htail := h.at_records.tail
  exact ⟨{ htail with }, _, h.left_eq⟩

section

variable (h : Inv claimTxg log s)

include h

/-- The head of `zil_replay_log_record` skips what need not be replayed. -/
theorem Inv.offer (hphase : s.phase = .parse (r :: rest)) :
    Inv claimTxg log { s with phase := s.offer claimTxg r rest } := by
  refine h.of_phase hphase _ s.stop fun left _ ht => ?_
  obtain ⟨hat, hleft⟩ := ht
  have htail : AtRecords log { s with phase := .parse rest } rest := { hat.tail with }
  cases hstop : s.stop with
  | some q =>
    rw [hstop] at hleft
    rw [State.offer, if_pos (by rw [hstop]; rfl)]
    exact ⟨{ htail with }, hleft⟩
  | none =>
    rw [hstop] at hleft
    have hskip : ¬ (claimTxg ≤ r.txg ∧ s.hdr < r.seq) →
        Thread claimTxg log { s with phase := .parse rest, stop := none } left := by
      intro hnot
      refine ⟨{ htail with }, ?_⟩
      exact hleft.trans (todo_cons_skip hnot)
    rw [State.offer, if_neg (by rw [hstop]; exact Bool.false_ne_true)]
    split
    · next h1 => exact hskip fun hc => absurd h1 (not_lt.mpr hc.1)
    · next h1 =>
        split
        · next h2 => exact hskip fun hc => absurd h2 (not_le.mpr hc.2)
        · next h2 =>
            have hnew : s.hdr < r.seq := not_le.mp h2
            refine ⟨{ hat with }, rfl, hnew, ?_⟩
            exact hleft.trans (todo_cons_take ⟨not_lt.mp h1, hnew⟩)

omit h in
theorem exists_of_seqsIn {l : List (Nat × Nat)} (hne : seqsIn l x ≠ []) : ∃ e ∈ l, e.1 = x := by
  obtain ⟨q, hq⟩ := exists_mem_of_ne_nil _ hne
  obtain ⟨e, he, -⟩ := mem_map.mp hq
  exact ⟨e, by simpa using he⟩

omit h in
theorem seqsIn_append_singleton (l : List (Nat × Nat)) (e : Nat × Nat) (x : Nat) :
    seqsIn (l ++ [e]) x = if e.1 = x then seqsIn l x ++ [e.2] else seqsIn l x := by
  split <;> next h => simp [seqsIn, h]

theorem Inv.replayed {pass txg : Nat} {sunk : Bool}
    (hphase : s.phase = .running r rest pass sunk txg) (hnum : Numbered log) :
    Inv claimTxg log (s.finishPass r rest pass sunk txg .ok) := by
  obtain ⟨left, hleft, ht⟩ := h.progress
  simp only [Thread, hphase] at ht
  obtain ⟨hon, hlo, hhi, hle⟩ := ht
  have hwin := h.window
  constructor
  · exact hwin
  · exact forall_mem_append.mpr ⟨h.range, forall_mem_singleton.mpr ⟨hlo, hhi⟩⟩
  · refine pairwise_append.mpr ⟨h.sorted, pairwise_singleton .., ?_⟩
    exact fun a ha => forall_mem_singleton.mpr (hle a ha)
  · refine forall_mem_append.mpr ⟨?_, forall_mem_singleton.mpr (mem_cons_self ..)⟩
    exact fun e he => mem_cons_of_mem _ (h.dirtied e he)
  · intro x hx hx' hne
    simp only [State.finishPass] at hx hx' hne ⊢
    rw [seqsIn_append_singleton] at hne ⊢
    by_cases hxt : txg = x
    · rw [if_pos hxt, if_pos (by rw [hxt]), lastSeq_append_singleton]
    have hmod : x % txgSize ≠ txg % txgSize := by
      simp only [txgSize, txgConcurrentStates] at hwin ⊢
      omega
    rw [if_neg hxt] at hne
    rw [if_neg hxt, if_neg hmod]
    exact h.slots x hx hx' hne
  · exact h.header
  · exact h.exact
  · refine ⟨todo claimTxg s.hdr rest, ?_, ?_⟩
    · rw [← hleft, hon.left_eq]
      simp [State.finishPass]
    have htail := hon.at_records.tail
    refine ⟨{ htail with behind := ?_ }, ?_⟩
    · refine forall_mem_append.mpr ⟨htail.behind, forall_mem_singleton.mpr fun q hq => ?_⟩
      have hpw := hnum.increasing.sublist (hon.at_records.suffix.map Record.seq).sublist
      exact (pairwise_cons.mp hpw).1 q.seq (mem_map.mpr ⟨q, hq, rfl⟩)
    · simp only [State.finishPass, hon.stop]

theorem Inv.thread (hnum : Numbered log) {assign : Bool} {result : Result}
    (hs : s.thread claimTxg log assign result = some s') : Inv claimTxg log s' := by
  rw [State.thread] at hs
  generalize hphase : s.phase = phase at hs
  cases phase with
  | start =>
    obtain rfl := Option.some.inj hs
    refine h.of_phase hphase _ s.stop fun left _ ht => ?_
    exact ht
  | drain txg =>
    obtain ⟨-, ⟨⟩⟩ := ite_none_right_eq_some.mp hs
    refine h.of_phase hphase _ none fun left hleft ht => ?_
    obtain ⟨hrep, -, hnil⟩ := ht
    rw [hnil, map_nil] at hleft
    refine ⟨⟨hrep, suffix_refl log, ?_⟩, ?_⟩
    · intro e he
      rw [hnil] at he
      cases he
    · rw [h.exact hrep.2]
      exact (hnum.todo_eq hleft).symm
  | parse rest =>
    cases rest with
    | nil =>
      obtain rfl := Option.some.inj hs
      refine h.of_phase hphase _ s.stop fun left _ ht => ?_
      refine ⟨ht.1.replaying, ?_⟩
      cases hstop : s.stop with
      | none | some q =>
        have hleft := ht.2
        rw [hstop] at hleft
        exact hleft
    | cons r rest =>
      obtain rfl := Option.some.inj hs
      exact h.offer hphase
  | attempt r rest pass sunk =>
    dsimp only at hs
    split at hs
    · cases hs
      refine h.of_phase hphase _ s.stop fun left _ ht => ?_
      exact ⟨ht.of_phase _, h.window.1, le_rfl, fun e he => (h.range e he).2⟩
    · cases hs
      refine h.of_phase hphase _ (some r.seq) fun left _ ht => ?_
      exact ht.failed
  | running r rest pass sunk txg =>
    obtain rfl := Option.some.inj hs
    cases result with
    | ok => exact h.replayed hphase hnum
    | restart =>
      refine h.of_phase hphase _ s.stop fun left _ ht => ?_
      by_cases hpass : pass ≠ 1
      · rw [if_pos hpass]
        exact ht.1.of_phase _
      · rw [if_neg hpass]
        exact ht.1.of_phase _
    | error =>
      rw [State.finishPass]
      split
      · refine h.of_phase hphase _ (some r.seq) fun left _ ht => ?_
        exact ht.1.failed
      · refine h.of_phase hphase _ s.stop fun left _ ht => ?_
        exact ht.1.of_phase _
  | sink _ _ _ _ | reopen _ _ _ _ _ =>
    obtain ⟨-, ⟨⟩⟩ := ite_none_right_eq_some.mp hs
    refine h.of_phase hphase _ s.stop fun left _ ht => ?_
    exact ht.of_phase _
  | destroy =>
    obtain rfl := Option.some.inj hs
    obtain ⟨left, hleft, ht⟩ := h.progress
    simp only [Thread, hphase] at ht
    refine { h with dirtied := fun e he => mem_cons_of_mem _ (h.dirtied e he), progress := ⟨left,
      hleft, rfl, .inl ⟨ht.1.2, mem_cons_self .., h.window.1, ?_, ht.2⟩⟩ }
    exact fun e he => (h.range e he).2
  | finish txg =>
    obtain ⟨hle, ⟨⟩⟩ := ite_none_right_eq_some.mp hs
    refine h.of_phase hphase _ s.stop fun left _ ht => ?_
    obtain ⟨hdes, ⟨-, -, hlt, -⟩ | ⟨stop, hfin, -, hnil, hend⟩⟩ := ht
    · exact absurd hle (not_le.mpr hlt)
    · refine ⟨fun t hdt => ?_, stop, hfin, hnil, hend⟩
      cases hdes.symm.trans hdt
      exact hle
  | done => cases hs

omit h in
theorem spaSync_hdr (s : State) (x : Nat) : (s.spaSync x).hdr =
    if x ∈ s.dirty then (if s.destroyTxg = some x then 0 else s.slots (x % txgSize))
    else s.hdr := by
  simp only [State.spaSync, State.zilSync]
  split_ifs <;> rfl

omit h in
theorem spaSync_slots (s : State) (x : Nat) (h : s.destroyTxg ≠ some x) :
    (s.spaSync x).slots = s.slots := by
  simp only [State.spaSync, State.zilSync]
  split_ifs <;> rfl

omit h in
theorem spaSync_rest (s : State) (x : Nat) :
    (s.spaSync x).openTxg = s.openTxg ∧ (s.spaSync x).dirty = s.dirty ∧
      (s.spaSync x).destroyTxg = s.destroyTxg ∧ (s.spaSync x).stop = s.stop ∧
      (s.spaSync x).phase = s.phase := by
  simp only [State.spaSync, State.zilSync]
  split_ifs <;> exact ⟨rfl, rfl, rfl, rfl, rfl⟩

/-- While the log is replayed a fresh `zil_sync` leaves the number of the last record on disk
    in the header. -/
theorem Inv.spaSync_hdr_eq (hfin : s.disk.finished = none)
    (hnd : ¬ (s.syncedTxg + 1 ∈ s.dirty ∧ s.destroyTxg = some (s.syncedTxg + 1)))
    (hfresh : Fresh s .sync) :
    (s.spaSync (s.syncedTxg + 1)).hdr
      = lastSeq (s.disk.applied ++ seqsIn s.effects (s.syncedTxg + 1)) := by
  rw [spaSync_hdr]
  by_cases hnil : seqsIn s.effects (s.syncedTxg + 1) = []
  · rw [hnil, append_nil, ← h.exact hfin]
    split
    · next hd =>
        rw [if_neg fun hc => hnd ⟨hd, hc⟩]
        rcases hfresh hd with ⟨e, he, hex⟩ | hdes | hslot
        · have : e.2 ∈ seqsIn s.effects (s.syncedTxg + 1) :=
            mem_map.mpr ⟨e, mem_filter.mpr ⟨he, by simpa using hex⟩, rfl⟩
          rw [hnil] at this
          cases this
        · exact absurd ⟨hd, hdes⟩ hnd
        · exact hslot
    · rfl
  · rw [lastSeq_append_of_ne _ hnil]
    obtain ⟨e, he, hex⟩ := exists_of_seqsIn hnil
    have hd : s.syncedTxg + 1 ∈ s.dirty := hex ▸ h.dirtied e he
    rw [if_pos hd, if_neg fun hc => hnd ⟨hd, hc⟩]
    exact h.slots _ (lt_succ_self _) h.window.1 hnil

theorem Inv.spaSync_hdr_lt (hnum : Numbered log) (hrep : s.Replaying) (hfresh : Fresh s .sync)
    (hleft : s.disk.applied ++ (s.effects.map Prod.snd ++ left) = eligible claimTxg log) {q : Nat}
    (hq : ∀ e ∈ s.effects, e.2 < q) : s.hdr < q ↔ (s.spaSync (s.syncedTxg + 1)).hdr < q := by
  rw [h.spaSync_hdr_eq hrep.2 (fun hc => some_ne_none _ (hc.2.symm.trans hrep.1)) hfresh]
  by_cases hnil : seqsIn s.effects (s.syncedTxg + 1) = []
  · rw [hnil, append_nil, ← h.exact hrep.2]
  rw [lastSeq_append_of_ne _ hnil]
  obtain ⟨e, he, heq⟩ := mem_map.mp (lastSeq_mem hnil)
  have he := mem_of_mem_filter he
  rw [show lastSeq (seqsIn s.effects (s.syncedTxg + 1)) = e.2 from heq.symm]
  refine iff_of_true (lt_trans ?_ (hq e he)) (hq e he)
  rw [h.exact hrep.2]
  refine lastSeq_lt (b := s.effects.map Prod.snd ++ left) ?_ ?_ ?_
  · exact hleft ▸ hnum.eligible_pairwise
  · intro y hy
    exact hnum.eligible_pos (show y ∈ eligible claimTxg log from
      hleft ▸ mem_append_right _ hy)
  · exact mem_append_left _ (mem_map.mpr ⟨e, he, rfl⟩)

theorem Inv.spaSync_thread (hnum : Numbered log) (hfresh : Fresh s .sync)
    (hheld : s.held ≠ some (s.syncedTxg + 1))
    (hleft : s.disk.applied ++ (s.effects.map Prod.snd ++ left) = eligible claimTxg log)
    (ht : Thread claimTxg log s left) : Thread claimTxg log (s.spaSync (s.syncedTxg + 1)) left := by
  obtain ⟨hopen, hdirty, hdes, hstop, hph⟩ := spaSync_rest s (s.syncedTxg + 1)
  set s' := s.spaSync (s.syncedTxg + 1)
  have hsynced : s'.syncedTxg = s.syncedTxg + 1 := rfl
  have heffects : s'.effects
      = s.effects.filter fun e => e.1 ≠ s.syncedTxg + 1 := rfl
  have hfin : s'.disk.finished
      = if s.syncedTxg + 1 ∈ s.dirty ∧ s.destroyTxg = some (s.syncedTxg + 1) then some s.stop
        else s.disk.finished := rfl
  have hrep' : s.Replaying → s'.Replaying := by
    rintro ⟨h1, h2⟩
    refine ⟨hdes.trans h1, hfin.trans ?_⟩
    rw [if_neg fun hc => some_ne_none _ (hc.2.symm.trans h1), h2]
  have hat' : ∀ {rest}, AtRecords log s rest → AtRecords log s' rest := fun hat =>
    ⟨hrep' hat.replaying, hat.suffix, fun e he => hat.behind e (mem_of_mem_filter he)⟩
  have hon' : ∀ {r rest}, OnRecord claimTxg log s left r rest →
      OnRecord claimTxg log s' left r rest := by
    intro r rest hon
    have hrep := hon.at_records.replaying
    refine ⟨hat' hon.at_records, hstop.trans hon.stop, ?_, ?_⟩
    · refine (h.spaSync_hdr_lt hnum hrep hfresh hleft fun e he => ?_).mp hon.new
      exact hon.at_records.behind e he r (mem_cons_self ..)
    · rw [hon.left_eq, todo_congr fun q hq => h.spaSync_hdr_lt hnum hrep hfresh hleft fun e he =>
        hon.at_records.behind e he q (mem_cons_of_mem _ hq)]
  have hnil' : s.effects = [] → s'.effects = [] := by
    intro hnil
    rw [heffects, hnil]
    rfl
  rw [Thread] at ht ⊢
  rw [hph]
  generalize hphase : s.phase = phase at ht
  cases phase with
  | start | drain _ =>
    exact ⟨hrep' ht.1, hstop.trans ht.2.1, hnil' ht.2.2⟩
  | parse rest =>
    obtain ⟨hat, hl⟩ := ht
    refine ⟨hat' hat, ?_⟩
    rw [hstop]
    cases hst : s.stop with
    | none =>
      rw [hst] at hl
      refine Eq.trans hl (todo_congr fun q hq => ?_)
      exact h.spaSync_hdr_lt hnum hat.replaying hfresh hleft fun e he => hat.behind e he q hq
    | some q =>
      rw [hst] at hl
      exact hl
  | attempt _ _ _ _ | sink _ _ _ _ | reopen _ _ _ _ _ =>
    exact hon' ht
  | running r rest pass sunk txg =>
    obtain ⟨hon, h1, h2, h3⟩ := ht
    have hne : txg ≠ s.syncedTxg + 1 := by
      rintro rfl
      exact hheld (by rw [State.held, hphase])
    refine ⟨hon' hon, ?_, ?_, fun e he => h3 e (mem_of_mem_filter he)⟩
    · omega
    · rw [hopen]
      exact h2
  | destroy =>
    exact ⟨hrep' ht.1, hstop.symm ▸ ht.2⟩
  | finish txg =>
    obtain ⟨hd, ⟨hnone, hmem, hlt, hle, hend⟩ | ⟨stop, hsome, hle, hnil, hend⟩⟩ := ht
    · refine ⟨hdes.trans hd, ?_⟩
      by_cases hx : txg = s.syncedTxg + 1
      · -- the destroy syncs, and everything replayed with it
        subst hx
        refine .inr ⟨s.stop, hfin.trans (if_pos ⟨hmem, hd⟩), le_rfl, ?_, hend⟩
        refine filter_eq_nil_iff.mpr fun e he => ?_
        have h1 := (h.range e he).1
        have h2 := hle e he
        simp
        omega
      · refine .inl ⟨?_, hdirty.symm ▸ hmem, ?_, fun e he => hle e (mem_of_mem_filter he),
          hstop.symm ▸ hend⟩
        · rw [hfin, if_neg fun hc => hx (Option.some.inj (hd.symm.trans hc.2)), hnone]
        · omega
    · refine ⟨hdes.trans hd, .inr ⟨stop, ?_, le_succ_of_le hle, hnil' hnil, hend⟩⟩
      rw [hfin, if_neg fun hc => ?_, hsome]
      have := Option.some.inj (hd.symm.trans hc.2)
      omega
  | done =>
    obtain ⟨hd, stop, hsome, hnil, hend⟩ := ht
    refine ⟨fun t hdt => le_succ_of_le (hd t (hdes ▸ hdt)), stop, ?_, hnil' hnil, hend⟩
    rw [hfin, if_neg fun hc => ?_, hsome]
    have := hd _ hc.2
    omega

omit h in
theorem seqsIn_filter_ne (l : List (Nat × Nat)) {y : Nat} (h : y ≠ x) :
    seqsIn (l.filter fun e => e.1 ≠ x) y = seqsIn l y := by
  rw [seqsIn, filter_filter]
  congr 1
  refine filter_congr fun e _ => ?_
  by_cases he : e.1 = y
  · simp [he, h]
  · simp [he]

omit h in
theorem Thread.stage (h : Thread claimTxg log s left) : s.Replaying ∨
    (∃ txg, s.destroyTxg = some txg ∧ s.disk.finished = none ∧ ∀ e ∈ s.effects, e.1 ≤ txg) ∨
    ∃ stop, s.disk.finished = some stop ∧ s.effects = [] ∧ Ended stop left := by
  rw [Thread] at h
  split at h
  · exact .inl h.1
  · exact .inl h.1
  · exact .inl h.1.replaying
  · exact .inl h.at_records.replaying
  · exact .inl h.1.at_records.replaying
  · exact .inl h.at_records.replaying
  · exact .inl h.at_records.replaying
  · exact .inl h.1
  · obtain ⟨hd, ⟨hnone, -, -, hle, -⟩ | ⟨stop, hsome, -, hrest⟩⟩ := h
    · exact .inr (.inl ⟨_, hd, hnone, hle⟩)
    · exact .inr (.inr ⟨stop, hsome, hrest⟩)
  · exact .inr (.inr h.2)

omit h in
theorem Thread.le_destroy (h : Thread claimTxg log s left) {txg : Nat}
    (hd : s.destroyTxg = some txg) : ∀ e ∈ s.effects, e.1 ≤ txg := by
  rcases h.stage with hrep | ⟨txg', hd', -, hle⟩ | ⟨stop, -, heff, -⟩
  · cases hd.symm.trans hrep.1
  · obtain rfl := Option.some.inj (hd.symm.trans hd')
    exact hle
  · rw [heff]
    exact nofun

/-- **A SYNC** moves the effects of its txg to disk, with the number of the last of them. -/
theorem Inv.spaSync (hnum : Numbered log) (hfresh : Fresh s .sync)
    (hopen : s.syncedTxg + 1 < s.openTxg) (hheld : s.held ≠ some (s.syncedTxg + 1)) :
    Inv claimTxg log (s.spaSync (s.syncedTxg + 1)) := by
  obtain ⟨left, hleft, ht⟩ := h.progress
  obtain ⟨hopen', hdirty, -, -, -⟩ := spaSync_rest s (s.syncedTxg + 1)
  have hwin := h.window
  have hmem : ∀ e ∈ (s.spaSync (s.syncedTxg + 1)).effects, e ∈ s.effects ∧
    e.1 ≠ s.syncedTxg + 1 := by
    intro e he
    obtain ⟨he, hne⟩ := mem_filter.mp he
    exact ⟨he, by simpa using hne⟩
  constructor
  · rw [hopen']
    exact ⟨hopen, le_trans hwin.2 (Nat.add_le_add_right (le_succ _) _)⟩
  · intro e he
    obtain ⟨he, hne⟩ := hmem e he
    have := h.range e he
    rw [hopen']
    exact ⟨lt_of_le_of_ne this.1 (Ne.symm hne), this.2⟩
  · exact h.sorted.sublist (filter_sublist ..)
  · intro e he
    rw [hdirty]
    exact h.dirtied e (hmem e he).1
  · intro x hx hx' hne
    have hx : s.syncedTxg + 1 < x := hx
    have hseq : seqsIn (s.spaSync (s.syncedTxg + 1)).effects x = seqsIn s.effects x :=
      seqsIn_filter_ne _ (ne_of_gt hx)
    rw [hseq] at hne ⊢
    rw [spaSync_slots]
    · exact h.slots x (lt_of_succ_lt hx) (hopen' ▸ hx') hne
    · -- no record is replayed in a txg after that of the destroy
      intro hd
      obtain ⟨e, he, hex⟩ := exists_of_seqsIn hne
      have := ht.le_destroy hd e he
      omega
  · rfl
  · intro hfin
    have hfin : (if s.syncedTxg + 1 ∈ s.dirty ∧ s.destroyTxg = some (s.syncedTxg + 1)
      then some s.stop else s.disk.finished) = none := hfin
    split_ifs at hfin with hnd
    exact h.spaSync_hdr_eq hfin hnd hfresh
  · refine ⟨left, ?_, h.spaSync_thread hnum hfresh hheld hleft ht⟩
    have hsplit := filter_append_filter h.sorted fun e he => (h.range e he).1
    rw [← hleft]
    conv_rhs => rw [← hsplit]
    simp only [State.spaSync, map_append, append_assoc]

omit h in
theorem Thread.mono (h : Thread claimTxg log s left) {openTxg : Nat} {dirty : List Nat}
    (hopen : s.openTxg ≤ openTxg) (hdirty : s.dirty ⊆ dirty) :
    Thread claimTxg log { s with openTxg := openTxg, dirty := dirty } left := by
  have hat : ∀ {rest phase}, AtRecords log s rest →
      AtRecords log { s with openTxg := openTxg, dirty := dirty, phase := phase } rest := fun hat =>
    { hat with }
  have hon : ∀ {r rest phase}, OnRecord claimTxg log s left r rest →
      OnRecord claimTxg log { s with openTxg := openTxg, dirty := dirty, phase := phase } left r
        rest := fun hon =>
    { hon with at_records := hat hon.at_records }
  rw [Thread] at h ⊢
  generalize s.phase = phase at h ⊢
  cases phase with
  | start | drain _ | destroy | done =>
    exact h
  | parse rest =>
    exact ⟨hat h.1, h.2⟩
  | attempt _ _ _ _ | sink _ _ _ _ | reopen _ _ _ _ _ =>
    exact hon h
  | running _ _ _ _ txg =>
    exact ⟨hon h.1, h.2.1, le_trans h.2.2.1 hopen, h.2.2.2⟩
  | finish txg =>
    obtain ⟨hd, ⟨hnone, hmem, hrest⟩ | hfin⟩ := h
    · exact ⟨hd, .inl ⟨hnone, hdirty hmem, hrest⟩⟩
    · exact ⟨hd, .inr hfin⟩

omit h in
theorem Thread.finished (h : Thread claimTxg log s left) {stop : Option Nat}
    (hfin : s.disk.finished = some stop) : s.effects = [] ∧ Ended stop left := by
  rcases h.stage with hrep | ⟨_, -, hnone, -⟩ | ⟨stop', hsome, hrest⟩
  · cases hfin.symm.trans hrep.2
  · cases hfin.symm.trans hnone
  · obtain rfl := Option.some.inj (hsome.symm.trans hfin)
    exact hrest

theorem Inv.open (hlt : s.openTxg + 1 - s.syncedTxg ≤ txgConcurrentStates) :
    Inv claimTxg log { s with openTxg := s.openTxg + 1 } := by
  obtain ⟨left, hleft, ht⟩ := h.progress
  have hwin := h.window
  refine ⟨⟨by dsimp only; omega, by dsimp only; omega⟩, ?_, h.sorted, h.dirtied, ?_, h.header,
    h.exact, left, hleft, ht.mono (le_succ _) (.refl _)⟩
  · intro e he
    have := h.range e he
    exact ⟨this.1, le_succ_of_le this.2⟩
  · intro x hx hx' hne
    refine h.slots x hx ?_ hne
    obtain ⟨e, he, hex⟩ := exists_of_seqsIn hne
    exact hex ▸ (h.range e he).2

theorem Inv.dirty (txg : Nat) : Inv claimTxg log { s with dirty := txg :: s.dirty } := by
  obtain ⟨left, hleft, ht⟩ := h.progress
  exact { h with dirtied := fun e he => mem_cons_of_mem _ (h.dirtied e he), progress := ⟨left,
    hleft, ht.mono (le_refl _) (subset_cons_self _ _)⟩ }

omit h in
theorem Inv.boot {disk : Disk} (hleft : disk.applied ++ left = eligible claimTxg log)
    (hexact : disk.finished = none → disk.replaySeq = lastSeq disk.applied)
    (hfin : ∀ stop, disk.finished = some stop → Ended stop left) (syncedTxg : Nat) :
    Inv claimTxg log (boot disk syncedTxg) := by
  have hnil : ∀ e : Nat × Nat, e ∉ (Replay.boot disk syncedTxg).effects := nofun
  refine ⟨⟨lt_succ_self _, Nat.add_le_add_left (by decide) _⟩, fun e he => absurd he (hnil e),
    .nil, fun e he => absurd he (hnil e), fun x _ _ hne => absurd rfl hne, rfl, hexact,
    left, hleft, ?_⟩
  cases hf : disk.finished with
  | none =>
    rw [Thread, show (Replay.boot disk syncedTxg).phase = .start from if_pos hf]
    exact ⟨⟨rfl, hf⟩, rfl, rfl⟩
  | some stop =>
    rw [Thread, show (Replay.boot disk syncedTxg).phase = .done from
      if_neg fun hc => some_ne_none _ (hf.symm.trans hc)]
    exact ⟨fun _ hd => absurd hd.symm (some_ne_none _), stop, hf, rfl, hfin stop hf⟩

/-- **A CRASH** leaves a header that tells where the next replay begins. -/
theorem Inv.crash : Inv claimTxg log (Replay.boot s.disk s.syncedTxg) := by
  obtain ⟨left, hleft, ht⟩ := h.progress
  refine Inv.boot hleft (fun hfin => h.header ▸ h.exact hfin) ?_ _
  intro stop hstop
  obtain ⟨heff, hend⟩ := ht.finished hstop
  rw [heff]
  exact hend

theorem Inv.step (hnum : Numbered log) {ev : Event} (hfresh : Fresh s ev)
    (hstep : step claimTxg log s ev = some s') : Inv claimTxg log s' := by
  cases ev with
  | thread assign result => exact h.thread hnum hstep
  | «open» =>
    obtain ⟨hlt, ⟨⟩⟩ := ite_none_right_eq_some.mp hstep
    exact h.open hlt
  | dirty txg =>
    obtain ⟨-, ⟨⟩⟩ := ite_none_right_eq_some.mp hstep
    exact h.dirty txg
  | sync =>
    obtain ⟨⟨hopen, hheld⟩, ⟨⟩⟩ := ite_none_right_eq_some.mp hstep
    exact h.spaSync hnum hfresh hopen hheld
  | crash =>
    obtain rfl := Option.some.inj hstep
    exact h.crash

end

end Steps

/-- No `zil_sync` of the run goes back. -/
def FreshRun (claimTxg : Nat) (log : List Record) : State → List Event → Prop
  | _, [] => True
  | s, ev :: evs => Fresh s ev ∧ ∀ s' ∈ step claimTxg log s ev, FreshRun claimTxg log s' evs

instance decidableFreshRun (claimTxg : Nat) (log : List Record) :
    (s : State) → (evs : List Event) → Decidable (FreshRun claimTxg log s evs)
  | _, [] => isTrue trivial
  | s, ev :: evs =>
    have := fun s' => decidableFreshRun claimTxg log s' evs
    inferInstanceAs (Decidable (_ ∧ ∀ s' ∈ step claimTxg log s ev, _))

theorem Inv.run {log : List Record} (hnum : Numbered log) {evs : List Event} :
    ∀ {s s' : State}, Inv claimTxg log s → FreshRun claimTxg log s evs →
      run claimTxg log s evs = some s' → Inv claimTxg log s' := by
  induction evs with
  | nil =>
    intro s s' h _ hrun
    obtain rfl := Option.some.inj hrun
    exact h
  | cons ev evs ih =>
    intro s s' h hfresh hrun
    obtain ⟨t, hstep, hrun⟩ := Option.bind_eq_some_iff.mp hrun
    exact ih (h.step hnum hfresh.1 hstep) (hfresh.2 t hstep) hrun

/-- **REPLAY IS EXACTLY ONCE**: in every run whose syncs are fresh, what is on disk is the first
    records of the log in order, the header names the last of them, and when the log is destroyed
    only the record at which the replay stopped and those behind it are missing. -/
theorem replay_exactly_once {claimTxg : Nat} {log : List Record} (hnum : Numbered log)
    (syncedTxg : Nat) {evs : List Event} {s : State}
    (hfresh : FreshRun claimTxg log (boot ⟨[], 0, none⟩ syncedTxg) evs)
    (hrun : run claimTxg log (boot ⟨[], 0, none⟩ syncedTxg) evs = some s) :
    ∃ left, s.disk.applied ++ left = eligible claimTxg log ∧
      (s.disk.finished = none → s.disk.replaySeq = lastSeq s.disk.applied) ∧
      ∀ stop, s.disk.finished = some stop → Ended stop left := by
  have h0 : Inv claimTxg log (boot ⟨[], 0, none⟩ syncedTxg) :=
    Inv.boot (nil_append _) (fun _ => rfl) (fun _ hc => absurd hc.symm (some_ne_none _)) _
  have h := h0.run hnum hfresh hrun
  obtain ⟨left, hleft, ht⟩ := h.progress
  refine ⟨_, hleft, fun hfin => h.header ▸ h.exact hfin, fun stop hstop => ?_⟩
  obtain ⟨heff, hend⟩ := ht.finished hstop
  rw [heff]
  exact hend

def twoRecords : List Record := [⟨192, 5, 1, .other 1⟩, ⟨192, 5, 2, .other 1⟩]

def go (result : Result) : Event := .thread true result

/-- The first record is replayed in txg 6, the second fails twice and the log is destroyed in
    txg 7. -/
def stoppedRun : List Event :=
  [go .ok, .open, .sync, go .ok, go .ok, go .ok, go .ok, go .ok, go .ok, go .error, .open, .sync,
    go .ok, go .ok, go .error, go .ok, go .ok, .open, .sync, go .ok]

theorem replay_exactly_once_stopped :
    ∃ s, run 5 twoRecords (boot ⟨[], 0, none⟩ 4) stoppedRun = some s ∧
      s.disk = ⟨[1], 0, some (some 2)⟩ ∧ ∃ left, s.disk.applied ++ left = [1, 2] ∧
        (s.disk.finished = none → s.disk.replaySeq = lastSeq s.disk.applied) ∧
        ∀ stop, s.disk.finished = some stop → Ended stop left := by
  obtain ⟨s, hs, hdisk⟩ : ∃ s, run 5 twoRecords (boot ⟨[], 0, none⟩ 4) stoppedRun = some s ∧
      s.disk = ⟨[1], 0, some (some 2)⟩ :=
    Option.map_eq_some_iff.mp (by decide)
  exact ⟨s, hs, hdisk, replay_exactly_once ⟨by decide, by decide⟩ 4 (by decide) hs⟩

/-- The first record is replayed in txg 6.  Txg 7 is dirtied by something else, the pool crashes
    after it and the log is replayed again. -/
def staleSlotRun : List Event :=
  [go .ok, .open, .sync, go .ok, go .ok, go .ok, go .ok, .open, .sync, .dirty 7, .open, .sync,
    .crash, go .ok, .open, .sync, go .ok, go .ok, go .ok, go .ok, .open, .sync]

/-- **A STALE SLOT REPLAYS A RECORD TWICE**: `zil_sync` of a txg without replay copies an empty
    slot to the header. -/
theorem record_replayed_twice :
    (run 5 twoRecords (boot ⟨[], 0, none⟩ 4) (staleSlotRun.take 9)).map State.disk
        = some ⟨[1], 1, none⟩ ∧
      (run 5 twoRecords (boot ⟨[], 0, none⟩ 4) (staleSlotRun.take 13)).map State.disk
        = some ⟨[1], 0, none⟩ ∧
      (run 5 twoRecords (boot ⟨[], 0, none⟩ 4) staleSlotRun).map State.disk
        = some ⟨[1, 1], 1, none⟩ := by
  decide

end Sirius.Zil.Replay
