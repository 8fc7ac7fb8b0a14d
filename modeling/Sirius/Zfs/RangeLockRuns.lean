import Sirius.Zfs.RangeLockSafety

/-! # Range locks under any interleaving

    Threads lock, wait, are woken, unlock and reduce in any order.  In every state
    they reach, the lock table is sound and agrees with the ledger of what the
    threads hold; so writers are alone on their ranges, a shared reader is tiled
    by proxies, and no `ASSERT` fires. -/

namespace Sirius.Rlock

open Sirius.Lib List

variable {w w' : World} {op : Op}

def Request.Legit (r : Request) : Prop := 0 < r.len ∧ r.off + r.len < 2 ^ 64

def Zpl.Room (z : Option Zpl) (r : Request) : Prop := ∀ f ∈ z, f.zpSize + r.len < 2 ^ 64

/-- What the callers promise: ranges of the file; only locks that are held are given
    back; only a writer's lock on the whole file is reduced.  And there are fewer
    than 2^32 locks at any time, as `r_cnt` can count. -/
def Allowed (w : World) : Op → Prop
  | .lock r z => r.Legit ∧ Zpl.Room z r ∧ w.held.length + 1 < 2 ^ 32
  | .retry i z => (∀ r ∈ w.ready[i]?, Zpl.Room z r) ∧ w.held.length + 1 < 2 ^ 32
  | .wake _ => True
  | .unlock addr => ∃ g ∈ w.held, g.addr = addr
  | .reduce addr off len => (∃ g ∈ w.held, g.addr = addr ∧ g.type = .writer
      ∧ g.stop - g.off = 2 ^ 64 - 1) ∧ 0 < len ∧ off + len < 2 ^ 64

def World.init : World := ⟨⟨[], [], 0⟩, [], [], []⟩

inductive Reachable : World → Prop
  | init : Reachable World.init
  | step {w w' : World} {op : Op} (h : Reachable w) (hop : Allowed w op)
      (hs : step w op = .ok w') : Reachable w'

/-- The table is sound, agrees with the ledger, and every pending call is legitimate. -/
structure Inv (w : World) : Prop where
  sound : Sound w.locks
  ledger : w.held.Perm (granted w.locks)
  waiting : ∀ t ∈ w.waiting, t.1.Legit
  ready : ∀ r ∈ w.ready, r.Legit

theorem Inv.init : Inv World.init := by
  refine ⟨⟨⟨⟨nofun, .nil⟩, .nil, nofun⟩, .nil, nofun, nofun, nofun, fun x => rfl,
    nofun, ?_⟩, .nil, nofun, nofun⟩
  decide

theorem Inv.settle {r : Request} {res : Outcome × Locks} (h : Inv w) (hr : r.Legit)
    (hround : Rounded w.locks res) : Inv (w.settle r res) := by
  obtain ⟨out, st⟩ := res
  cases out with
  | granted g =>
    refine ⟨hround.sound, ?_, h.waiting, h.ready⟩
    exact (h.ledger.cons g).trans hround.grants.symm
  | wait cv =>
    refine ⟨hround.sound, ?_, forall_mem_cons.mpr ⟨hr, h.waiting⟩, h.ready⟩
    exact h.ledger.trans hround.grants.symm

theorem Inv.broadcast (h : Inv w) (cvs : List Cv) : Inv (w.broadcast cvs) := by
  refine ⟨h.sound, h.ledger, fun t ht => h.waiting t (mem_filter.mp ht).1, ?_⟩
  intro r hr
  rcases mem_append.mp hr with hr | hr
  · exact h.ready r hr
  · obtain ⟨t, ht, rfl⟩ := mem_map.mp hr
    exact h.waiting t (mem_filter.mp ht).1

theorem Sound.nodup_granted {st : Locks} (h : Sound st) : ((granted st).map Grant.addr).Nodup := by
  have hmap : (granted st).map Grant.addr = (owned st.zRangeAvl ++ st.away).map Rl.addr := by
    rw [granted, map_map]
    rfl
  rw [hmap]
  exact h.addrs.sublist ((filter_sublist.append_right _).map _)

theorem Inv.nodup_held (h : Inv w) : (w.held.map Grant.addr).Nodup :=
  (h.ledger.map Grant.addr).nodup_iff.mpr h.sound.nodup_granted

theorem held_filter {held gs : List Grant} {g : Grant} (hnd : (held.map Grant.addr).Nodup)
    (hperm : held.Perm (g :: gs)) : (held.filter fun k => k.addr != g.addr).Perm gs := by
  refine (hperm.filter _).trans ?_
  have hnd' : ((g :: gs).map Grant.addr).Nodup := (hperm.map Grant.addr).nodup_iff.mp hnd
  obtain ⟨hg, -⟩ := nodup_cons.mp hnd'
  rw [filter_cons_of_neg (by simp)]
  refine List.Perm.of_eq (filter_eq_self.mpr ?_)
  intro k hk
  refine bne_iff_ne.mpr ?_
  intro heq
  exact hg (heq ▸ mem_map_of_mem hk)

/-- **PROGRESS AND PRESERVATION**: an allowed step does not panic and keeps the invariant. -/
theorem step_spec (h : Inv w) (hop : Allowed w op) : ∃ w', step w op = .ok w' ∧ Inv w' := by
  have hfew : w.held.length + 1 < 2 ^ 32 → (granted w.locks).length + 1 < 2 ^ 32 := by
    rw [h.ledger.length_eq]
    exact id
  cases op with
  | lock r z =>
    obtain ⟨hr, hz, hn⟩ := hop
    obtain ⟨res, hlock, hround⟩ := zfsRangeLock_spec h.sound (hfew hn) hr.1 hr.2 r.type hz
    refine ⟨w.settle r res, ?_, h.settle hr hround⟩
    rw [step, hlock]
    rfl
  | retry i z =>
    obtain ⟨hz, hn⟩ := hop
    rw [step]
    cases hi : w.ready[i]? with
    | none => exact ⟨w, rfl, h⟩
    | some r =>
      have hr := h.ready r (mem_of_getElem? hi)
      obtain ⟨res, hlock, hround⟩ := lockRound_spec h.sound (hfew hn) hr.1 hr.2 r.type (hz r hi)
      have h' : Inv { w with ready := w.ready.eraseIdx i } :=
        { h with ready := fun k hk => h.ready k (eraseIdx_subset hk) }
      refine ⟨_, ?_, h'.settle hr hround⟩
      dsimp only
      rw [hlock]
      rfl
  | wake i =>
    rw [step]
    cases hi : w.waiting[i]? with
    | none => exact ⟨w, rfl, h⟩
    | some t =>
      refine ⟨_, rfl, h.sound, h.ledger, fun k hk => h.waiting k (eraseIdx_subset hk), ?_⟩
      refine forall_mem_append.mpr ⟨h.ready, forall_mem_singleton.mpr ?_⟩
      exact h.waiting t (mem_of_getElem? hi)
  | unlock addr =>
    obtain ⟨g, hg, rfl⟩ := hop
    obtain ⟨st', cvs, hunlock, hsound, hperm⟩ :=
      zfsRangeUnlock_spec h.sound (h.ledger.mem_iff.mp hg)
    have h' : Inv { w with locks := st', held := w.held.filter fun k => k.addr != g.addr } :=
      ⟨hsound, held_filter h.nodup_held (h.ledger.trans hperm), h.waiting, h.ready⟩
    refine ⟨_, ?_, h'.broadcast cvs⟩
    rw [step, hunlock]
    rfl
  | reduce addr off len =>
    obtain ⟨⟨g, hg, rfl, htype, hall⟩, hlen, hfit⟩ := hop
    obtain ⟨st', cvs, hreduce, hsound, hone, hone'⟩ :=
      zfsRangeReduce_spec h.sound (h.ledger.mem_iff.mp hg) htype hall hlen hfit
    have hheld : w.held = [g] := perm_singleton.mp (hone ▸ h.ledger)
    have h' : Inv { w with
        locks := st'
        held := w.held.map fun k =>
          if k.addr = g.addr then { k with off := off, stop := off + len } else k } := by
      refine ⟨hsound, ?_, h.waiting, h.ready⟩
      rw [hone', hheld, map_singleton, if_pos rfl]
    refine ⟨_, ?_, h'.broadcast cvs⟩
    rw [step, hreduce]
    rfl

theorem Reachable.inv (h : Reachable w) : Inv w := by
  induction h with
  | init => exact Inv.init
  | step h hop hs ih =>
    obtain ⟨w'', hs', hinv⟩ := step_spec ih hop
    rw [hs] at hs'
    cases hs'
    exact hinv

/-! ## What holds under any interleaving -/

/-- **RANGE LOCKS**: in every reachable state, (a) a writer's range meets no other
    granted range; (b) over every byte the counts of the tree add up to the locks
    granted there, the ranges of the tree are disjoint, and a holder whose lock has
    count 0 is tiled by consecutive proxies; and no allowed step panics. -/
theorem range_locks_exclude (h : Reachable w) :
    (∀ a ∈ w.held, a.type = .writer → ∀ g ∈ w.held, g.addr ≠ a.addr →
      g.stop ≤ a.off ∨ a.stop ≤ g.off)
    ∧ (∀ x, refs w.locks.zRangeAvl x = covering w.held x)
    ∧ Ordered Rl.rOff Rl.stop w.locks.zRangeAvl
    ∧ (w.held.map Grant.addr).Nodup
    ∧ (∀ g ∈ w.held, ∃ rl, w.locks.deref g.addr = some rl ∧ rl.grant = g
        ∧ (rl.rCnt = 0 → ∃ A M C, w.locks.zRangeAvl = A ++ (M ++ C)
          ∧ Tiles Rl.rOff Rl.stop M g.off g.stop ∧ ∀ p ∈ M, p.rProxy = true))
    ∧ ∀ op, Allowed w op → ∃ w', step w op = .ok w' := by
  have hinv := h.inv
  refine ⟨?_, ?_, hinv.sound.shape.ordered, hinv.nodup_held, ?_, ?_⟩
  · intro a ha htype g hg hne
    exact hinv.sound.exclusive (hinv.ledger.mem_iff.mp ha) htype (hinv.ledger.mem_iff.mp hg) hne
  · intro x
    rw [hinv.sound.balance x, covering_perm hinv.ledger]
  · intro g hg
    rcases mem_granted (hinv.ledger.mem_iff.mp hg) with ⟨n, hn, -, rfl⟩ | ⟨n, hn, rfl⟩
    · refine ⟨n, hinv.sound.deref (mem_append_left _ hn), rfl, ?_⟩
      intro hzero
      exact absurd hzero (hinv.sound.nodes n hn).cnt.ne'
    · refine ⟨n, hinv.sound.deref (mem_append_right _ hn), rfl, ?_⟩
      intro _
      obtain ⟨A, M, C, htree, ht, hM⟩ := hinv.sound.exists_tiles hn
      exact ⟨A, M, C, htree, ht, fun p hp => (hM p hp).1⟩
  · intro op hop
    obtain ⟨w', hs, -⟩ := step_spec hinv hop
    exact ⟨w', hs⟩

/-! Two readers overlap, and a writer waits for the proxy they share. -/

def demoAlone : World :=
  ⟨⟨[⟨0, 0, 10, 1, .reader, false, false, false⟩], [], 1⟩, [], [], [⟨0, 0, 10, .reader⟩]⟩

def demoShared : World :=
  ⟨⟨[Rl.proxy 3 0 5 1, Rl.proxy 2 5 5 2, Rl.proxy 4 10 5 1],
      [⟨1, 5, 10, 0, .reader, false, false, false⟩, ⟨0, 0, 10, 0, .reader, false, false, false⟩],
      5⟩,
    [], [], [⟨1, 5, 15, .reader⟩, ⟨0, 0, 10, .reader⟩]⟩

def demoWaiting : World :=
  { demoShared with
    locks := { demoShared.locks with
      zRangeAvl := [Rl.proxy 3 0 5 1, { Rl.proxy 2 5 5 2 with rWriteWanted := true },
        Rl.proxy 4 10 5 1] }
    waiting := [(⟨7, 1, .writer⟩, ⟨2, true⟩)] }

theorem demoWaiting_reachable : Reachable demoWaiting := by
  have h1 : Reachable demoAlone := by
    have hop : Allowed World.init (.lock ⟨0, 10, .reader⟩ none) :=
      ⟨⟨by decide, by decide⟩, nofun, by decide⟩
    exact Reachable.init.step hop rfl
  have h2 : Reachable demoShared := by
    have hop : Allowed demoAlone (.lock ⟨5, 10, .reader⟩ none) :=
      ⟨⟨by decide, by decide⟩, nofun, by decide⟩
    exact h1.step hop rfl
  have hop : Allowed demoShared (.lock ⟨7, 1, .writer⟩ none) :=
    ⟨⟨by decide, by decide⟩, nofun, by decide⟩
  exact h2.step hop rfl

theorem range_locks_exclude_shared :
    Reachable demoWaiting
      ∧ (∀ x, refs demoWaiting.locks.zRangeAvl x = covering demoWaiting.held x)
      ∧ ∀ op, Allowed demoWaiting op → ∃ w', step demoWaiting op = .ok w' :=
  ⟨demoWaiting_reachable, (range_locks_exclude demoWaiting_reachable).2.1,
    (range_locks_exclude demoWaiting_reachable).2.2.2.2.2⟩

end Sirius.Rlock
