import Sirius.Zfs.ZilCommit

/-! # A commit that returns is durable

    What the writer knows in each of its phases.  A transaction that was assigned is on the list,
    in the writer's hands or settled; `zil_commit` returns when those it has to push are settled. -/

namespace Sirius.Zil.Commit

open List Option Nat

/-- A transaction is settled: synced, of no concern, or in a block before which all are on disk. -/
def Settled (s : State) (i : Itx) : Prop :=
  i.txg ≤ s.pool.syncedTxg ∨ i ∈ s.unneeded ∨
    ∃ n, (i, n) ∈ s.logged ∧ i.record n ∈ durable s.pool.chain

def Placed (s : State) (i : Itx) : Prop :=
  ∃ n, (i, n) ∈ s.logged ∧ i.record n ∈ recordsOf s.pool.chain

variable {i : Itx} {lwb next : Option Nat} {dva objset : Nat} {p : Pool} {c : Call}

theorem Settled.durable {s : State} (hp : s.pool.Inv) (h : Settled s i) : Durable s i := by
  rcases h with h | h | ⟨n, hn, hr⟩
  · exact .inl h
  · exact .inr (.inl h)
  refine .inr (.inr ⟨n, hn, ?_⟩)
  cases hc : s.pool.chain with
  | nil =>
    rw [hc] at hr
    cases hr
  | cons l c =>
    have hl : l ∈ s.pool.chain.head? := by rw [hc]; rfl
    rcases hp.disk l hl with hd | hcre
    · rw [hd]
      exact reaches_of_durable (hc ▸ hp.linked) (hc ▸ hp.wf) (hc ▸ hp.media) (hc ▸ hr)
    · -- nothing is written of a block that the header does not know
      have hs := (mem_durable_cons.mp (hcre.alone ▸ hr)).1
      simp [Lwb.stable, Lwb.written, hcre.unused] at hs

/-! ## What holds in each phase -/

/-- The transactions that a call has to push are behind `itx_next`. -/
def Scan (s : State) (c : Call) (next : Option Nat) : Prop :=
  ∀ i ∈ s.itxs, i.seq ≤ c.seq → c.selects i → ∃ n, next = some n ∧ n ≤ i.seq

/-- The transactions that a call has to push are not on the list. -/
def Past (s : State) (c : Call) : Prop := ∀ i ∈ s.itxs, c.selects i → c.seq < i.seq

/-- No transaction below `q` is on the list. -/
def UpTo (s : State) (q : Nat) : Prop := q ≤ s.itxSeq ∧ ∀ i ∈ s.itxs, q ≤ i.seq

/-- The writer's buffer is the one that is being filled; without one, none is. -/
def Holding (p : Pool) : Option Nat → Prop
  | some dva => ∃ zio, p.OpenAt dva zio
  | none => p.Shut

def Reported (s : State) : Prop := ∀ l ∈ s.pool.chain, l.failed → s.logError

structure Working (s : State) (c : Call) (lwb : Option Nat) (hand : Option Itx) : Prop where
  capped : c.seq ≤ s.itxSeq
  buffer : Holding s.pool lwb
  anchored : s.pool.Anchored
  reported : Reported s
  pulled : ∀ j ∈ s.pulled, hand = some j ∨ Settled s j ∨ Placed s j ∨ lwb = none

/-- There is room for the record in the buffer, or the buffer is empty. -/
def Room (p : Pool) (dva : Nat) (i : Itx) : Prop :=
  ∀ l ∈ p.find dva, l.nused + i.reclen + i.dlen ≤ l.dataSz ∨ l.nused = 0

def AtPhase (s : State) : Prop :=
  match s.phase with
  | .idle => s.pulled = [] ∧ s.pool.Anchored ∧
      (s.pool.chain = [] ∨ ∃ dva zio, s.pool.OpenAt dva zio)
  | .create c => c.seq ≤ s.itxSeq ∧ s.pulled = [] ∧ s.pool.chain = []
  | .createWait c txg => c.seq ≤ s.itxSeq ∧ s.pulled = [] ∧ (s.pool.chain = [] ∨
        ∃ l, s.pool.chain = [l] ∧ l.write = .filling false ∧ l.maxTxg ≤ txg)
  | .loop c lwb next => Working s c lwb none ∧ Scan s c next
  | .push c lwb next i => Working s c lwb (some i) ∧ Scan s c next ∧ i ∈ s.assigned
  | .store c dva next i =>
    Working s c (some dva) (some i) ∧ Scan s c next ∧ i ∈ s.assigned ∧ Room s.pool dva i
  | .waitItx c dva next i => Working s c (some dva) (some i) ∧ Scan s c next
  | .closing c lwb q => Working s c lwb none ∧ Past s c ∧ UpTo s q
  | .waitIo c lwb q => Working s c lwb none ∧ Past s c ∧ UpTo s q ∧
      ∀ dva, lwb = some dva → s.pool.OpenAt dva false
  | .waitSynced c q txg => c.seq ≤ s.itxSeq ∧ Past s c ∧ UpTo s q ∧ s.pool.Anchored ∧
      (∀ j ∈ s.pulled, j.txg ≤ txg) ∧ ((∃ dva zio, s.pool.OpenAt dva zio) ∨
        s.pool.Shut ∧ ∀ l ∈ s.pool.chain, ∀ t, l.cut = some t → t ≤ txg)
  | .panic => False

structure Inv (s : State) : Prop where
  pool : s.pool.Inv
  sorted : s.itxs.Pairwise fun i j => i.seq < j.seq
  listed : ∀ i ∈ s.itxs, i ∈ s.assigned
  held : ∀ i ∈ s.pulled, i ∈ s.assigned
  numbered : ∀ i ∈ s.assigned, 0 < i.seq ∧ i.seq ≤ s.itxSeq
  assignable : ∀ i ∈ s.assigned, i.txg ≤ s.pool.openTxg ∧ 0 < i.reclen
  covered : ∀ i ∈ s.assigned, i ∈ s.itxs ∨ Settled s i ∨ i ∈ s.pulled
  committed : ∀ i ∈ s.assigned, i.seq < s.commitSeq → Settled s i
  commit_le : s.commitSeq ≤ s.itxSeq
  waiting : ∀ c ∈ s.waiting, c.seq ≤ s.itxSeq
  promised : ∀ c ∈ s.returned, c.seq ≤ s.itxSeq ∧
    ∀ i ∈ s.assigned, i.seq ≤ c.seq → c.selects i → Settled s i
  phase : AtPhase s

/-! ## What the other threads do -/

structure Undisturbed (s s' : State) : Prop where
  phase : s'.phase = s.phase
  pulled : s'.pulled = s.pulled
  logged : s'.logged = s.logged
  unneeded : s'.unneeded = s.unneeded
  assigned : ∀ i ∈ s.assigned, i ∈ s'.assigned
  itxs : ∀ i ∈ s'.itxs, i ∈ s.itxs ∨ s.itxSeq < i.seq
  itxSeq : s.itxSeq ≤ s'.itxSeq
  pool : s.pool.Interferes s'.pool
  reported : Reported s → Reported s'

section Undisturbed

variable {s s' : State}

theorem Undisturbed.settled (h : Undisturbed s s') (hi : Settled s i) : Settled s' i := by
  rcases hi with hi | hi | ⟨n, hn, hr⟩
  · exact .inl (le_trans hi h.pool.synced)
  · exact .inr (.inl (h.unneeded ▸ hi))
  · rcases h.pool.durable _ hr with ht | hr
    · exact .inl ht
    · exact .inr (.inr ⟨n, h.logged ▸ hn, hr⟩)

theorem Undisturbed.placed (h : Undisturbed s s') (hi : Placed s i) :
    Settled s' i ∨ Placed s' i := by
  obtain ⟨n, hn, hr⟩ := hi
  rcases h.pool.records _ hr with ht | hr
  · exact .inl (.inl ht)
  · exact .inr ⟨n, h.logged ▸ hn, hr⟩

variable {c : Call}

section

variable (h : Undisturbed s s')

include h

theorem Undisturbed.working {hand : Option Itx}
    (hw : Working s c lwb hand) : Working s' c lwb hand := by
  refine ⟨le_trans hw.capped h.itxSeq, ?_, h.pool.anchored hw.anchored, h.reported hw.reported, ?_⟩
  · cases lwb with
    | none => exact h.pool.shut hw.buffer
    | some dva =>
      obtain ⟨zio, ho⟩ := hw.buffer
      exact ⟨zio, h.pool.openAt ho⟩
  intro j hj
  rcases hw.pulled j (h.pulled ▸ hj) with hh | hset | hpl | hn
  · exact .inl hh
  · exact .inr (.inl (h.settled hset))
  · rcases h.placed hpl with hset | hpl
    · exact .inr (.inl hset)
    · exact .inr (.inr (.inl hpl))
  · exact .inr (.inr (.inr hn))

theorem Undisturbed.scan (hc : c.seq ≤ s.itxSeq) (hs : Scan s c next) : Scan s' c next := by
  intro i hi hle hsel
  rcases h.itxs i hi with hi | hlt
  · exact hs i hi hle hsel
  · omega

theorem Undisturbed.past (hc : c.seq ≤ s.itxSeq) (hp : Past s c) : Past s' c := by
  intro i hi hsel
  rcases h.itxs i hi with hi | hlt
  · exact hp i hi hsel
  · omega

theorem Undisturbed.upTo {q : Nat} (hu : UpTo s q) : UpTo s' q := by
  refine ⟨le_trans hu.1 h.itxSeq, fun i hi => ?_⟩
  rcases h.itxs i hi with hi | hlt
  · exact hu.2 i hi
  · exact le_of_lt (lt_of_le_of_lt hu.1 hlt)

theorem Undisturbed.room (hp : s.pool.Inv) (hp' : s'.pool.Inv)
    (hb : Holding s.pool (some dva)) (hr : Room s.pool dva i) : Room s'.pool dva i := by
  obtain ⟨zio, ho⟩ := hb
  obtain ⟨l, c, hfind, -, hd, hw, hc⟩ := ho.find hp
  obtain ⟨c', hc'⟩ := h.pool.tail c l zio hc hw
  have hfind' : s'.pool.find dva = some l := hd ▸ Pool.find_of_mem hp' (by simp [hc'])
  intro m hm
  rw [hfind'] at hm
  exact hr m (hfind.trans hm)

theorem Undisturbed.atPhase (hp : s.pool.Inv) (hp' : s'.pool.Inv)
    (ha : AtPhase s) : AtPhase s' := by
  revert ha
  rw [AtPhase, AtPhase, h.phase]
  cases s.phase with
  | idle =>
    rintro ⟨hpu, hanch, hn | ⟨dva, zio, ho⟩⟩
    · exact ⟨h.pulled.trans hpu, h.pool.anchored hanch, .inl (h.pool.empty hn)⟩
    · exact ⟨h.pulled.trans hpu, h.pool.anchored hanch, .inr ⟨dva, zio, h.pool.openAt ho⟩⟩
  | create c =>
    intro ha
    exact ⟨le_trans ha.1 h.itxSeq, h.pulled.trans ha.2.1, h.pool.empty ha.2.2⟩
  | createWait c txg =>
    rintro ⟨hc, hpu, hn | ⟨l, hl, hw, hm⟩⟩
    · exact ⟨le_trans hc h.itxSeq, h.pulled.trans hpu, .inl (h.pool.empty hn)⟩
    · exact ⟨le_trans hc h.itxSeq, h.pulled.trans hpu, .inr ⟨l, h.pool.alone l hl hw, hw, hm⟩⟩
  | loop c lwb next | waitItx c dva next i =>
    intro ha
    exact ⟨h.working ha.1, h.scan ha.1.capped ha.2⟩
  | push c lwb next i =>
    intro ha
    exact ⟨h.working ha.1, h.scan ha.1.capped ha.2.1, h.assigned i ha.2.2⟩
  | store c dva next i =>
    rintro ⟨hw, hs, hi, hr⟩
    exact ⟨h.working hw, h.scan hw.capped hs, h.assigned i hi, h.room hp hp' hw.buffer hr⟩
  | closing c lwb q =>
    intro ha
    exact ⟨h.working ha.1, h.past ha.1.capped ha.2.1, h.upTo ha.2.2⟩
  | waitIo c lwb q =>
    rintro ⟨hw, hpa, hu, ho⟩
    exact ⟨h.working hw, h.past hw.capped hpa, h.upTo hu, fun dva hd => h.pool.openAt (ho dva hd)⟩
  | waitSynced c q txg =>
    rintro ⟨hc, hpa, hu, hanch, hj, htail⟩
    refine ⟨le_trans hc h.itxSeq, h.past hc hpa, h.upTo hu, h.pool.anchored hanch,
      h.pulled ▸ hj, ?_⟩
    rcases htail with ⟨dva, zio, ho⟩ | ⟨hshut, hcut⟩
    · exact .inl ⟨dva, zio, h.pool.openAt ho⟩
    · refine .inr ⟨h.pool.shut hshut, fun l hl t ht => ?_⟩
      obtain ⟨m, hm, ht⟩ := h.pool.cuts l hl t ht
      exact hcut m hm t ht
  | panic =>
    exact id

end

end Undisturbed

section Others

variable {s s' : State}

theorem AtPhase.queue (h : AtPhase s) (hp : s.pool.Inv) (waiting returned : List Call)
    (curUsed : Nat) :
    AtPhase { s with waiting := waiting, returned := returned, curUsed := curUsed } := by
  have hu : Undisturbed s { s with waiting := waiting, returned := returned, curUsed := curUsed } :=
    ⟨rfl, rfl, rfl, rfl, fun _ hi => hi, fun _ hi => .inl hi, le_rfl, .refl _, id⟩
  exact hu.atPhase hp hp h

section

variable (h : Inv s)

include h

theorem Inv.onPool {err : Bool} (hp : p.Inv) (hi : s.pool.Interferes p)
    (hr : Reported s → Reported { s with pool := p, logError := err }) :
    Inv { s with pool := p, logError := err } := by
  have hu : Undisturbed s { s with pool := p, logError := err } :=
    ⟨rfl, rfl, rfl, rfl, fun _ hi => hi, fun _ hi => .inl hi, le_rfl, hi, hr⟩
  refine ⟨hp, h.sorted, h.listed, h.held, h.numbered, ?_, ?_, ?_, h.commit_le, h.waiting, ?_,
    hu.atPhase h.pool hp h.phase⟩
  · intro i hi
    exact ⟨le_trans (h.assignable i hi).1 hu.pool.opened, (h.assignable i hi).2⟩
  · intro i hi
    exact (h.covered i hi).imp_right (.imp_left hu.settled)
  · exact fun i hi hlt => hu.settled (h.committed i hi hlt)
  · intro c hc
    exact ⟨(h.promised c hc).1, fun i hi hle hsel => hu.settled ((h.promised c hc).2 i hi hle hsel)⟩

theorem Inv.assign (hs : s.assign i = some s') : Inv s' := by
  obtain ⟨⟨hass, hpos⟩, ⟨⟩⟩ := ite_none_right_eq_some.mp hs
  have hle : ∀ j ∈ s.itxs, j.seq ≤ s.itxSeq := fun j hj => (h.numbered j (h.listed j hj)).2
  have hu : Undisturbed s { s with
      itxs := s.itxs ++ [{ i with seq := s.itxSeq + 1 }], itxSeq := s.itxSeq + 1,
      assigned := s.assigned ++ [{ i with seq := s.itxSeq + 1 }] } := by
    refine ⟨rfl, rfl, rfl, rfl, fun j hj => mem_append_left _ hj, fun j hj => ?_, le_succ _,
      .refl _, id⟩
    rcases mem_append.mp hj with hj | hj
    · exact .inl hj
    · rw [mem_singleton.mp hj]
      exact .inr (lt_succ_self _)
  have hnew : ∀ {j : Itx}, j ∈ s.assigned ++ [{ i with seq := s.itxSeq + 1 }] →
      j ∈ s.assigned ∨ j = { i with seq := s.itxSeq + 1 } := fun hj =>
    (mem_append.mp hj).imp_right mem_singleton.mp
  constructor
  · exact h.pool
  · refine pairwise_append.mpr ⟨h.sorted, pairwise_singleton .., fun a ha b hb => ?_⟩
    rw [mem_singleton.mp hb]
    exact lt_succ_of_le (hle a ha)
  · intro j hj
    rcases mem_append.mp hj with hj | hj
    · exact mem_append_left _ (h.listed j hj)
    · exact mem_append_right _ hj
  · exact fun j hj => mem_append_left _ (h.held j hj)
  · intro j hj
    rcases hnew hj with hj | rfl
    · exact ⟨(h.numbered j hj).1, le_succ_of_le (h.numbered j hj).2⟩
    · exact ⟨succ_pos _, le_rfl⟩
  · intro j hj
    rcases hnew hj with hj | rfl
    · exact h.assignable j hj
    · exact ⟨hass.2.2, hpos⟩
  · intro j hj
    rcases hnew hj with hj | rfl
    · rcases h.covered j hj with hl | hset | hpul
      · exact .inl (mem_append_left _ hl)
      · exact .inr (.inl (hu.settled hset))
      · exact .inr (.inr hpul)
    · exact .inl (mem_append_right _ (mem_singleton.mpr rfl))
  · intro j hj hlt
    rcases hnew hj with hj | rfl
    · exact hu.settled (h.committed j hj hlt)
    · exact absurd hlt (not_lt.mpr (le_succ_of_le h.commit_le))
  · exact le_succ_of_le h.commit_le
  · exact fun c hc => le_succ_of_le (h.waiting c hc)
  · intro c hc
    obtain ⟨hcap, hkept⟩ := h.promised c hc
    refine ⟨le_succ_of_le hcap, fun j hj hle hsel => ?_⟩
    rcases hnew hj with hj | rfl
    · exact hu.settled (hkept j hj hle hsel)
    · exact absurd (le_trans hle hcap) (not_succ_le_self _)
  · exact hu.atPhase h.pool h.pool h.phase

theorem Inv.clean (hs : s.clean = some s') : Inv s' := by
  obtain ⟨-, ⟨⟩⟩ := ite_none_right_eq_some.mp hs
  have hsub : ∀ j ∈ s.itxs.dropWhile fun i => i.txg ≤ s.pool.syncedTxg, j ∈ s.itxs :=
    fun j hj => (dropWhile_suffix _).subset hj
  have hu : Undisturbed s { s with itxs := s.itxs.dropWhile fun i => i.txg ≤ s.pool.syncedTxg } :=
    ⟨rfl, rfl, rfl, rfl, fun _ hi => hi, fun j hj => .inl (hsub j hj), le_rfl, .refl _, id⟩
  refine ⟨h.pool, h.sorted.sublist (dropWhile_sublist _), fun j hj => h.listed j (hsub j hj),
    h.held, h.numbered, h.assignable, ?_, h.committed, h.commit_le, h.waiting, h.promised,
    hu.atPhase h.pool h.pool h.phase⟩
  intro j hj
  rcases h.covered j hj with hl | hrest
  · rw [← takeWhile_append_dropWhile (p := fun i : Itx => decide (i.txg ≤ s.pool.syncedTxg))
      (l := s.itxs)] at hl
    rcases mem_append.mp hl with hl | hl
    · refine .inr (.inl (.inl ?_))
      simpa using mem_takeWhile_imp hl
    · exact .inl hl
  · exact .inr hrest

theorem Inv.ret (hc : c.seq ≤ s.itxSeq)
    (hset : ∀ i ∈ s.assigned, i.seq ≤ c.seq → c.selects i → Settled s i) : Inv (s.ret c) := by
  refine { h with promised := fun d hd => ?_, phase := h.phase.queue h.pool _ _ _ }
  rcases mem_cons.mp hd with rfl | hd
  · exact ⟨hc, hset⟩
  · exact h.promised d hd

/-- **A ROUND BEGINS** at the end of a chain without a failed block. -/
theorem Inv.start (hidle : s.phase = .idle) (hunb : s.pool.Unbroken)
    (hc : c.seq ≤ s.itxSeq) : Inv (s.start c) := by
  have hph := h.phase
  simp only [AtPhase, hidle] at hph
  obtain ⟨hpu, hanch, htail⟩ := hph
  have hcov : ∀ i ∈ s.assigned, i ∈ s.itxs ∨ Settled s i := by
    intro i hi
    rcases h.covered i hi with hl | hset | hp
    · exact .inl hl
    · exact .inr hset
    · rw [hpu] at hp
      cases hp
  rw [State.start]
  cases hlast : s.pool.lwbs.getLast? with
  | some l =>
    refine { h with held := nofun, covered := fun i hi => (hcov i hi).imp_right .inl, phase := ⟨⟨hc,
      ?_, hanch, ?_, nofun⟩, ?_⟩ }
    · rcases htail with hn | ⟨dva, zio, c', m, hm, -, hw⟩
      · rw [(append_eq_nil_iff.mp hn).2] at hlast
        cases hlast
      · rw [hm, getLast?_concat] at hlast
        obtain rfl := some.inj hlast
        exact ⟨zio, c', m, hm, rfl, hw⟩
    · exact fun m hm hf => absurd hf (hunb m hm)
    · exact fun i _ _ _ => ⟨0, rfl, zero_le _⟩
  | none =>
    have hnil : s.pool.chain = [] := by
      rcases htail with hn | ⟨dva, zio, c', m, hm, -⟩
      · exact hn
      · rw [hm, getLast?_concat] at hlast
        cases hlast
    by_cases hi : s.itxs = []
    · rw [if_pos hi]
      refine h.ret hc fun i hia _ _ => (hcov i hia).resolve_left ?_
      rw [hi]
      exact not_mem_nil
    · rw [if_neg hi]
      exact { h with held := nofun, covered := fun i hi => (hcov i hi).imp_right .inl, phase := ⟨hc,
        rfl, hnil⟩ }

theorem Inv.call (seq foid : Nat)
    (hord : seq ≠ 0 → s.phase = .idle → s.pool.Unbroken) : Inv (s.call seq foid) := by
  rw [State.call]
  split
  · refine h.ret (zero_le _) fun i hi hle _ => ?_
    exact absurd hle (not_le.mpr (h.numbered i hi).1)
  · next hne =>
      split
      · next hidle => exact h.start hidle (hord hne hidle) (min_le_right ..)
      refine { h with waiting := fun c hc => ?_, phase := h.phase.queue h.pool _ _ _ }
      rcases mem_append.mp hc with hc | hc
      · exact h.waiting c hc
      · rw [mem_singleton.mp hc]
        exact min_le_right ..

theorem Inv.wake {k : Nat}
    (hord : s.phase = .idle → (∃ c ∈ s.waiting[k]?, ¬ c.seq < s.commitSeq) → s.pool.Unbroken)
    (hs : s.wake k = some s') : Inv s' := by
  rw [State.wake] at hs
  split at hs
  · cases hs
  · next c hk =>
      have hc : c.seq ≤ s.itxSeq := h.waiting c (mem_of_getElem? hk)
      have h1 : Inv { s with waiting := s.waiting.eraseIdx k } :=
        { h with
          waiting := fun d hd => h.waiting d (mem_of_mem_eraseIdx hd)
          phase := h.phase.queue h.pool _ _ _ }
      by_cases hlt : c.seq < s.commitSeq
      · rw [if_pos hlt] at hs
        obtain rfl := some.inj hs
        exact h1.ret hc fun i hi hle _ => h.committed i hi (lt_of_le_of_lt hle hlt)
      · rw [if_neg hlt] at hs
        obtain ⟨hidle, ⟨⟩⟩ := ite_none_right_eq_some.mp hs
        exact h1.start hidle (hord hidle ⟨c, hk, hlt⟩) hc

end

end Others

section Writer

variable {s s' : State}

/-- What a step of the writer does with the transactions it does not take from the list. -/
structure Onward (s s' : State) : Prop where
  itxs : s'.itxs = s.itxs
  itxSeq : s'.itxSeq = s.itxSeq
  commitSeq : s'.commitSeq = s.commitSeq
  waiting : s'.waiting = s.waiting
  assigned : s'.assigned = s.assigned
  pulled : s'.pulled = s.pulled
  returned : s'.returned = s.returned
  logged : s.logged ⊆ s'.logged
  unneeded : s.unneeded ⊆ s'.unneeded
  pool : s.pool.Grows s'.pool
  error : s'.logError = s.logError

theorem Pool.Grows.refl (p : Pool) : p.Grows p :=
  ⟨rfl, rfl, fun _ => id, fun _ => id, fun _ hl _ => hl⟩

section

variable (h : Onward s s')

include h

theorem Onward.settled (hi : Settled s i) : Settled s' i := by
  rcases hi with hi | hi | ⟨n, hn, hr⟩
  · exact .inl (h.pool.synced ▸ hi)
  · exact .inr (.inl (h.unneeded hi))
  · exact .inr (.inr ⟨n, h.logged hn, h.pool.durable _ hr⟩)

theorem Onward.placed (hi : Placed s i) : Placed s' i := by
  obtain ⟨n, hn, hr⟩ := hi
  exact ⟨n, h.logged hn, h.pool.records _ hr⟩

theorem Onward.scan (hs : Scan s c next) : Scan s' c next := by
  rw [Scan, h.itxs]
  exact hs

theorem Onward.past (hp : Past s c) : Past s' c := by
  rw [Past, h.itxs]
  exact hp

theorem Onward.upTo {q : Nat} (hu : UpTo s q) : UpTo s' q := by
  rw [UpTo, h.itxs, h.itxSeq]
  exact hu

theorem Onward.working {lwb' : Option Nat} {hand hand' : Option Itx}
    (hw : Working s c lwb hand) (hb : Holding s'.pool lwb') (ha : s'.pool.Anchored)
    (hhand : ∀ j, hand = some j → hand' = some j ∨ Settled s' j ∨ Placed s' j ∨ lwb' = none)
    (hnone : lwb = none → lwb' = none) : Working s' c lwb' hand' := by
  refine ⟨h.itxSeq ▸ hw.capped, hb, ha, fun l hl hf => ?_, fun j hj => ?_⟩
  · rw [h.error]
    exact hw.reported l (h.pool.failed l hl hf) hf
  rcases hw.pulled j (h.pulled ▸ hj) with hh | hset | hpl | hn
  · exact hhand j hh
  · exact .inr (.inl (h.settled hset))
  · exact .inr (.inr (.inl (h.placed hpl)))
  · exact .inr (.inr (.inr (hnone hn)))

end

theorem Inv.onward (h : Inv s) (ho : Onward s s') (hp : s'.pool.Inv) (hph : AtPhase s') :
    Inv s' := by
  have hset : ∀ i, Settled s i → Settled s' i := fun _ => ho.settled
  cases s'
  obtain ⟨rfl, rfl, rfl, rfl, rfl, rfl, rfl, -, -, hg, rfl⟩ := ho
  refine ⟨hp, h.sorted, h.listed, h.held, h.numbered, hg.opened ▸ h.assignable, ?_, ?_, h.commit_le,
    h.waiting, ?_, hph⟩
  · exact fun i hi => (h.covered i hi).imp_right (.imp_left (hset i))
  · exact fun i hi hlt => hset i (h.committed i hi hlt)
  · exact fun c hc => ⟨(h.promised c hc).1,
      fun i hi hle hsel => hset i ((h.promised c hc).2 i hi hle hsel)⟩

theorem Onward.of_grows {pool : Pool} (hg : s.pool.Grows pool) (lrSeq curUsed prevUsed : Nat)
    (phase : Phase) : Onward s { s with
      pool := pool, lrSeq := lrSeq, curUsed := curUsed, prevUsed := prevUsed, phase := phase } :=
  ⟨rfl, rfl, rfl, rfl, rfl, rfl, rfl, .refl _, .refl _, hg, rfl⟩

theorem Onward.of_phase (s : State) (phase : Phase) : Onward s { s with phase := phase } :=
  .of_grows (.refl _) ..

theorem Inv.create (h : Inv s) (hph : s.phase = .create c) (alloc : Option Alloc)
    (objset : Nat) : Inv (s.create c alloc objset) := by
  have hat := h.phase
  simp only [AtPhase, hph] at hat
  obtain ⟨hc, hpu, hnil⟩ := hat
  have hwin := h.pool.window
  obtain ⟨hd, -⟩ := h.pool.setDirty s.pool.openTxg
  have hgd : s.pool.Grows (s.pool.setDirty s.pool.openTxg) :=
    ⟨rfl, rfl, fun _ => id, fun _ => id, fun _ hl _ => hl⟩
  rw [State.create]
  split
  · cases alloc with
    | some a =>
      obtain ⟨hp, hchain, hg, -⟩ := @Pool.Inv.create _ ⟨a.dva, s.pool.openTxg, State.minBlksz,
          ⟨a.guid0, a.guid1, objset, 1⟩⟩ s.pool.openTxg hd hnil le_rfl
        (.inr ⟨hwin.1, hwin.2, mem_cons_self ..⟩)
      refine h.onward (.of_grows (hgd.trans hg) ..) hp ⟨hc, hpu, .inr ⟨_, hchain, rfl, le_rfl⟩⟩
    | none =>
      exact h.onward (.of_grows hgd ..) hd ⟨hc, hpu, .inl hnil⟩
  · obtain ⟨hp, hchain, hg, ha⟩ := @Pool.Inv.create _ s.pool.log 0 h.pool hnil (zero_le _)
      (.inl rfl)
    refine h.onward (.of_grows hg ..)
      hp ⟨⟨hc, ⟨false, s.pool.lwbs, _, rfl, rfl, rfl⟩, ha rfl, ?_, ?_⟩,
        fun i _ _ _ => ⟨0, rfl, zero_le _⟩⟩
    · intro l hl hf
      rw [hchain, mem_singleton] at hl
      rw [hl] at hf
      cases hf
    · intro j hj
      rw [hpu] at hj
      cases hj

theorem Inv.createWait (h : Inv s) {txg : Nat} (hph : s.phase = .createWait c txg)
    (hle : txg ≤ s.pool.syncedTxg) :
    Inv { s with phase := .loop c (s.pool.lwbs.getLast?.map fun l => l.blk.dva) (some 0) } := by
  have hat := h.phase
  simp only [AtPhase, hph] at hat
  obtain ⟨hc, hpu, htail⟩ := hat
  have hno : ∀ m t, s.pool.syncedTxg ≤ t → ¬ s.pool.Created m t := by
    intro m t ht hcre
    rcases htail with hn | ⟨l, hl, -, hmax⟩
    · have := hcre.alone
      rw [hn] at this
      cases this
    · have heq := singleton_inj.mp (hl.symm.trans hcre.alone)
      have := hcre.later
      rw [← heq] at this
      omega
  have hanch : s.pool.Anchored :=
    ⟨fun l hl => (h.pool.disk l hl).resolve_right (hno l _ le_rfl),
      fun hz l hl => (h.pool.memory hz l hl).resolve_right (hno l _ (le_succ _))⟩
  refine h.onward (.of_phase s _) h.pool ⟨⟨hc, ?_, hanch, ?_, ?_⟩,
    fun i _ _ _ => ⟨0, rfl, zero_le _⟩⟩
  · rcases htail with hn | ⟨l, hl, hw, -⟩
    · rw [(append_eq_nil_iff.mp hn).2]
      exact .inl hn
    rcases append_eq_singleton_iff.mp hl with ⟨-, hlw⟩ | ⟨hr, -⟩
    · rw [hlw]
      exact ⟨false, [], l, hlw, rfl, hw⟩
    · have := (h.pool.retired l (by rw [hr]; exact mem_singleton.mpr rfl)).1
      rw [Lwb.hasBuf, hw] at this
      cases this
  · intro l hl hf
    rcases htail with hn | ⟨m, hm, hw, -⟩
    · rw [hn] at hl
      cases hl
    · rw [hm, mem_singleton] at hl
      rw [hl, Lwb.failed, hw] at hf
      cases hf
  · intro j hj
    rw [hpu] at hj
    cases hj

theorem find?_first {l : List Itx} {q : Itx → Bool} (hs : l.Pairwise fun i j => i.seq < j.seq)
    (hf : l.find? q = some i) : ∀ j ∈ l, q j → i.seq ≤ j.seq := by
  obtain ⟨-, a, b, rfl, ha⟩ := find?_eq_some_iff_append.mp hf
  intro j hj hq
  rcases mem_append.mp hj with hj | hj
  · have := ha j hj
    rw [hq] at this
    cases this
  · rcases mem_cons.mp hj with rfl | hj
    · exact le_rfl
    · exact le_of_lt (rel_of_pairwise_cons (pairwise_append.mp hs).2.1 hj)

theorem Inv.eq_of_seq (h : Inv s) {j : Itx} (hi : i ∈ s.itxs) (hj : j ∈ s.itxs)
    (heq : i.seq = j.seq) : i = j := by
  refine inj_on_of_nodup_map (f := Itx.seq) ?_ hi hj heq
  exact (pairwise_map.mpr h.sorted).imp ne_of_lt

theorem Inv.leaveLoop (h : Inv s) (hw : Working s c lwb none)
    (hpast : Past s c) : Inv (s.leaveLoop c lwb) := by
  have ho := Onward.of_phase s (.closing c lwb ((s.itxs.head?.map Itx.seq).getD s.itxSeq))
  refine h.onward ho h.pool ⟨ho.working hw hw.buffer hw.anchored (fun _ => .inl) id,
    ho.past hpast, ?_⟩
  have hle : ∀ i ∈ s.itxs, i.seq ≤ s.itxSeq := fun i hi => (h.numbered i (h.listed i hi)).2
  cases hl : s.itxs with
  | nil =>
    refine ⟨le_rfl, fun i hi => ?_⟩
    have hi : i ∈ s.itxs := hi
    rw [hl] at hi
    cases hi
  | cons a l =>
    refine ⟨hle a (by rw [hl]; exact mem_cons_self ..), fun i hi => ?_⟩
    have hi : i ∈ s.itxs := hi
    have hsort := h.sorted
    rw [hl] at hi hsort
    rcases mem_cons.mp hi with rfl | hi
    · exact le_rfl
    · exact le_of_lt (rel_of_pairwise_cons hsort hi)

/-- **ONE TRANSACTION IS TAKEN** from the list, or the loop is left. -/
theorem Inv.pick (h : Inv s) (hph : s.phase = .loop c lwb next) : Inv (s.pick c lwb next) := by
  have hat := h.phase
  simp only [AtPhase, hph] at hat
  obtain ⟨hw, hscan⟩ := hat
  rw [State.pick]
  split
  · next hnone =>
      refine h.leaveLoop hw fun i hi hsel => not_le.mp fun hle => ?_
      obtain ⟨n, rfl, hn⟩ := hscan i hi hle hsel
      have := find?_eq_none.mp hnone i hi
      simp [hn, hsel] at this
  · next i hfound =>
      obtain ⟨n, rfl, hfind⟩ := bind_eq_some_iff.mp hfound
      have hi := mem_of_find?_eq_some hfind
      have hfirst : ∀ j ∈ s.itxs, j.seq ≤ c.seq → c.selects j → i.seq ≤ j.seq := by
        intro j hj hle hsel
        obtain ⟨m, hm, hmj⟩ := hscan j hj hle hsel
        obtain rfl := some.inj hm
        exact find?_first h.sorted hfind j hj (by simp [hmj, hsel])
      split
      · next hlate =>
          refine h.leaveLoop hw fun j hj hsel => not_le.mp fun hle => ?_
          have := hfirst j hj hle hsel
          omega
      refine ⟨h.pool, h.sorted.sublist erase_sublist,
        fun j hj => h.listed j (mem_of_mem_erase hj), ?_, h.numbered, h.assignable, ?_,
        h.committed, h.commit_le, h.waiting, h.promised,
        { hw with pulled := ?_ }, ?_, h.listed i hi⟩
      · intro j hj
        rcases mem_cons.mp hj with rfl | hj
        · exact h.listed j hi
        · exact h.held j hj
      · intro j hj
        rcases h.covered j hj with hl | hset | hp
        · by_cases hji : j = i
          · exact .inr (.inr (by rw [hji]; exact mem_cons_self ..))
          · exact .inl ((mem_erase_of_ne hji).mpr hl)
        · exact .inr (.inl hset)
        · exact .inr (.inr (mem_cons_of_mem _ hp))
      · intro j hj
        rcases mem_cons.mp hj with rfl | hj
        · exact .inl rfl
        · rcases hw.pulled j hj with hh | hrest
          · cases hh
          · exact .inr hrest
      · -- `itx_next` is the transaction behind the one that was taken
        intro j hj hle hsel
        have hjs : j ∈ s.itxs := mem_of_mem_erase hj
        have hnd : s.itxs.Nodup := h.sorted.imp fun {a b} hlt heq => by
          rw [heq] at hlt
          exact absurd hlt (lt_irrefl _)
        have hne : j ≠ i := fun heq => by
          rw [heq] at hj
          exact hnd.not_mem_erase hj
        have hlt : i.seq < j.seq :=
          lt_of_le_of_ne (hfirst j hjs hle hsel) fun heq => hne (h.eq_of_seq hjs hi heq.symm)
        cases hm : s.itxs.find? fun j => decide (i.seq < j.seq) with
        | none =>
          have := find?_eq_none.mp hm j hjs
          simp [hlt] at this
        | some m => exact ⟨m.seq, rfl, find?_first h.sorted hm j hjs (by simpa using hlt)⟩

/-! ## `zil_lwb_commit` -/

variable {alloc : Option Alloc} {getData : Bool}

section

variable (h : Inv s)

include h

theorem Inv.writeStart {zio : Bool} (ho : s.pool.OpenAt dva zio)
    (ha : s.pool.Anchored) {l : Lwb} (hl : s.pool.find dva = some l)
    (halloc : ∀ a ∈ alloc, s.pool.Unallocated a.dva) :
    let r := s.writeStart l alloc
    Onward s r.1 ∧ r.1.phase = s.phase ∧ r.1.lrSeq = s.lrSeq ∧ r.1.pool.Inv ∧ r.1.pool.Anchored ∧
      match r.2 with
      | some dva' => r.1.pool.OpenAt dva' false
      | none => r.1.pool.Shut := by
  obtain ⟨m, c, hm, hmem, -, hw, hc⟩ := ho.find h.pool
  obtain rfl := some.inj (hl.symm.trans hm)
  cases alloc with
  | some a =>
    obtain ⟨hp, hanch, hg, hopen⟩ := @Pool.Inv.extend zio _ l
      ⟨a.dva, s.pool.openTxg, s.blksz, l.blk.cksum.next⟩ h.pool c hc hw ha rfl rfl (halloc a rfl)
    exact ⟨(.of_grows hg ..), rfl, rfl, hp, hanch, hopen⟩
  | none =>
    obtain ⟨hp, hanch, hg, hshut⟩ := h.pool.writeStart_none hmem hw ha s.blksz
    exact ⟨(.of_grows hg ..), rfl, rfl, hp, hanch, hshut⟩

/-- **A TRANSACTION GETS A BUFFER**: it never finds one that is gone. -/
theorem Inv.push (hph : s.phase = .push c lwb next i)
    (halloc : ∀ a ∈ alloc, s.pool.Unallocated a.dva) : Inv (s.push c lwb next i alloc) := by
  have hat := h.phase
  simp only [AtPhase, hph] at hat
  obtain ⟨hw, hscan, hi⟩ := hat
  rw [State.push.eq_def]
  by_cases hsync : i.txg ≤ s.pool.syncedTxg
  · rw [if_pos hsync]
    have ho := Onward.of_phase s (.loop c lwb next)
    refine h.onward ho h.pool ⟨ho.working hw hw.buffer hw.anchored ?_ id, ho.scan hscan⟩
    intro j hj
    obtain rfl := some.inj hj
    exact .inr (.inl (.inl hsync))
  rw [if_neg hsync]
  cases lwb with
  | none =>
    have ho := Onward.of_phase s (.loop c none next)
    exact h.onward ho h.pool ⟨ho.working hw hw.buffer hw.anchored
      (fun j _ => .inr (.inr (.inr rfl))) id, ho.scan hscan⟩
  | some dva =>
    obtain ⟨zio, hopen⟩ := hw.buffer
    obtain ⟨l, -, hfind, -, -, hwl, -⟩ := hopen.find h.pool
    simp only [hfind, hwl]
    split
    · -- the record does not fit: the next block
      have h1 : Inv { s with curUsed := s.curUsed + (i.reclen + i.dlen) } :=
        h.onward (.of_grows (.refl _) ..) h.pool (h.phase.queue h.pool _ _ _)
      obtain ⟨ho, -, -, hp, hanch, hend⟩ := h1.writeStart hopen hw.anchored hfind halloc
      generalize State.writeStart { s with curUsed := s.curUsed + (i.reclen + i.dlen) } l alloc = r
        at ho hp hanch hend ⊢
      obtain ⟨t, lwb'⟩ := r
      have ho' : ∀ phase, Onward s { t with phase := phase } := fun _ => { ho with }
      cases lwb' with
      | some dva' =>
        refine h.onward (ho' _) hp ⟨(ho' _).working hw ⟨false, hend⟩ hanch (fun _ => .inl)
          nofun, (ho' _).scan hscan, ho.assigned ▸ hi, ?_⟩
        intro m hm
        obtain ⟨l', -, hfind', -, -, hwl', -⟩ := hend.find hp
        obtain rfl := some.inj (hm.symm.trans hfind')
        have hwf := hp.wf m (mem_append_right _ (Pool.find_mem hm).1)
        exact .inr (by rw [hwf.used, hwf.empty hwl']; rfl)
      | none =>
        exact h.onward (ho' _) hp ⟨(ho' _).working hw hend hanch
          (fun j _ => .inr (.inr (.inr rfl))) nofun, (ho' _).scan hscan⟩
    · next hfits =>
        have ho : Onward s { s with
            curUsed := s.curUsed + (i.reclen + i.dlen), phase := .store c dva next i } :=
          (.of_grows (.refl _) ..)
        refine h.onward ho h.pool ⟨ho.working hw ⟨zio, hopen⟩ hw.anchored (fun _ => .inl)
          id, ho.scan hscan, hi, ?_⟩
        intro m hm
        obtain rfl := some.inj (hm.symm.trans hfind)
        exact .inl (not_lt.mp hfits)

/-- **A TRANSACTION IS COPIED** to the buffer, unless it is too large or need not be logged. -/
theorem Inv.store (hph : s.phase = .store c dva next i)
    (hs : s.store c dva next i getData = some s') : Inv s' := by
  have hat := h.phase
  simp only [AtPhase, hph] at hat
  obtain ⟨hw, hscan, hi, hroom⟩ := hat
  obtain ⟨zio, hopen⟩ := hw.buffer
  obtain ⟨hp, hanch, hg, hopen'⟩ := h.pool.init hopen hw.anchored
  rw [State.store] at hs
  split at hs
  · cases hs
  · next l hfind =>
      split at hs
      · obtain rfl := some.inj hs
        have ho : Onward s { s with
            pool := s.pool.modify dva fun l => { l with write := .filling true }
            phase := .waitItx c dva next i } :=
          (.of_grows hg ..)
        exact h.onward ho hp ⟨ho.working hw ⟨true, hopen'⟩ hanch (fun _ => .inl) id, ho.scan hscan⟩
      · next hsmall =>
          split at hs
          · obtain rfl := some.inj hs
            have ho : Onward s { s with
                pool := s.pool.modify dva fun l => { l with write := .filling true }
                lrSeq := s.lrSeq + 1
                unneeded := i :: s.unneeded
                phase := .loop c (some dva) next } :=
              ⟨rfl, rfl, rfl, rfl, rfl, rfl, rfl, .refl _, subset_cons_self _ _, hg, rfl⟩
            refine h.onward ho hp ⟨ho.working hw ⟨true, hopen'⟩ hanch (fun j hj => ?_) id,
              ho.scan hscan⟩
            obtain rfl := some.inj hj
            exact .inr (.inl (.inr (.inl (mem_cons_self ..))))
          · obtain rfl := some.inj hs
            obtain ⟨htxg, hpos⟩ := h.assignable i hi
            obtain ⟨hp, hanch, hg, hopen', hrec⟩ := @Pool.Inv.put zio _ dva h.pool hopen hw.anchored
              (i.record (s.lrSeq + 1)) (Nat.add_pos_left hpos _) htxg (by
                intro m hm
                obtain rfl := some.inj (hm.symm.trans hfind)
                rcases hroom m hm with hr | hr
                · rw [add_assoc] at hr
                  exact hr
                · rw [hr, zero_add]
                  exact not_lt.mp hsmall)
            have ho : Onward s { s with
                pool := s.fill dva i
                lrSeq := s.lrSeq + 1
                logged := (i, s.lrSeq + 1) :: s.logged
                phase := .loop c (some dva) next } :=
              ⟨rfl, rfl, rfl, rfl, rfl, rfl, rfl, subset_cons_self _ _, .refl _, hg, rfl⟩
            refine h.onward ho hp ⟨ho.working hw ⟨true, hopen'⟩ hanch (fun j hj => ?_) id,
              ho.scan hscan⟩
            obtain rfl := some.inj hj
            exact .inr (.inr (.inl ⟨s.lrSeq + 1, mem_cons_self .., hrec⟩))

theorem Inv.waitItx (hph : s.phase = .waitItx c dva next i) (hle : i.txg ≤ s.pool.syncedTxg) :
    Inv { s with phase := .loop c (some dva) next } := by
  have hat := h.phase
  simp only [AtPhase, hph] at hat
  obtain ⟨hw, hscan⟩ := hat
  have ho := Onward.of_phase s (.loop c (some dva) next)
  refine h.onward ho h.pool ⟨ho.working hw hw.buffer hw.anchored (fun j hj => ?_) id, ho.scan hscan⟩
  obtain rfl := some.inj hj
  exact .inr (.inl (.inl hle))

/-- **THE LAST BLOCK** is written out: the buffer that is left is empty. -/
theorem Inv.close {q : Nat} (hph : s.phase = .closing c lwb q)
    (halloc : ∀ a ∈ alloc, s.pool.Unallocated a.dva) : Inv (s.close c lwb q alloc) := by
  have hat := h.phase
  simp only [AtPhase, hph] at hat
  obtain ⟨hw, hpast, hup⟩ := hat
  have hsame : (∀ dva, lwb = some dva → s.pool.OpenAt dva false) →
      Inv { s with prevUsed := s.curUsed, curUsed := 0, phase := .waitIo c lwb q } := by
    intro hfalse
    have ho : Onward s { s with prevUsed := s.curUsed, curUsed := 0, phase := .waitIo c lwb q } :=
      (.of_grows (.refl _) ..)
    exact h.onward ho h.pool ⟨ho.working hw hw.buffer hw.anchored (fun _ => .inl) id,
      ho.past hpast, ho.upTo hup, hfalse⟩
  rw [State.close]
  cases lwb with
  | none => exact hsame nofun
  | some dva =>
    obtain ⟨zio, hopen⟩ := hw.buffer
    obtain ⟨l, -, hfind, -, -, hwl, -⟩ := hopen.find h.pool
    simp only [bind_some, hfind]
    by_cases hz : l.write = .filling true
    · rw [if_pos hz]
      obtain ⟨ho, -, -, hp, hanch, hend⟩ := h.writeStart hopen hw.anchored hfind halloc
      generalize s.writeStart l alloc = r at ho hp hanch hend ⊢
      obtain ⟨t, lwb'⟩ := r
      have ho' : Onward s { t with
          prevUsed := t.curUsed, curUsed := 0, phase := .waitIo c lwb' q } :=
        { ho with }
      refine h.onward ho' hp ⟨ho'.working hw ?_ hanch nofun nofun, ho'.past hpast, ho'.upTo hup, ?_⟩
      · cases lwb' with
        | some dva' => exact ⟨false, hend⟩
        | none => exact hend
      · rintro dva' rfl
        exact hend
    · rw [if_neg hz]
      refine hsame fun dva' hd => ?_
      obtain rfl := some.inj hd
      cases zio
      · exact hopen
      · exact absurd hwl hz

/-! ## The end of a round -/

theorem Inv.finish {q : Nat} (hc : c.seq ≤ s.itxSeq) (hpast : Past s c)
    (hup : UpTo s q) (hanch : s.pool.Anchored) (hset : ∀ j ∈ s.pulled, Settled s j)
    (htail : s.pool.chain = [] ∨ ∃ dva zio, s.pool.OpenAt dva zio) : Inv (s.finish c q) := by
  have hgone : ∀ i ∈ s.assigned, i ∉ s.itxs → Settled s i := by
    intro i hi hni
    rcases h.covered i hi with hl | hst | hp
    · exact absurd hl hni
    · exact hst
    · exact hset i hp
  refine ⟨h.pool, h.sorted, h.listed, nofun, h.numbered, h.assignable,
    ?_, ?_, hup.1, h.waiting, ?_, rfl, hanch, htail⟩
  · intro i hi
    by_cases hl : i ∈ s.itxs
    · exact .inl hl
    · exact .inr (.inl (hgone i hi hl))
  · exact fun i hi hlt => hgone i hi fun hl => absurd (hup.2 i hl) (not_le.mpr hlt)
  · intro d hd
    rcases mem_cons.mp hd with rfl | hd
    · exact ⟨hc, fun i hi hle hsel => hgone i hi fun hl => absurd (hpast i hl hsel)
        (not_lt.mpr hle)⟩
    · exact h.promised d hd

omit h in
/-- **ALL WRITES ARE DONE**: if none failed, what stands in the chain is durable. -/
theorem durable_of_quiet (h : p.Inv) (ho : p.OpenAt dva false)
    (hquiet : ∀ l ∈ p.lwbs, ¬ l.inFlight) (hok : ∀ l ∈ p.chain, ¬ l.failed) {r : Record}
    (hr : r ∈ recordsOf p.chain) : r ∈ durable p.chain := by
  obtain ⟨c, l, hc, -, hw⟩ := ho
  have hchain : p.chain = (p.retired ++ c) ++ [l] := by rw [Pool.chain, hc, append_assoc]
  have hempty : l.records = [] := (h.wf l (by rw [hchain]; simp)).empty hw
  have hstable : ∀ m ∈ p.retired ++ c, m.stable := by
    intro m hm
    have hmem : m ∈ p.chain := by rw [hchain]; exact mem_append_left _ hm
    obtain ⟨a, b, hab⟩ := append_of_mem hm
    have hlink : ∃ bp t, m.trailer = some (some bp, t) := by
      by_contra hno
      have := eq_nil_of_not_linked (a := a) (b := b ++ [l]) (l := m)
        (by
          have := h.linked
          rw [hchain, hab, append_assoc] at this
          exact this)
        fun bp t ht => hno ⟨bp, t, ht⟩
      exact absurd this (append_ne_nil_of_right_ne_nil _ (cons_ne_nil _ _))
    refine Lwb.stable_iff.mpr ⟨?_, hlink⟩
    have hdone : ∃ n t ok, m.write = .done n t ok := by
      cases hmw : m.write with
      | filling zio =>
        obtain ⟨bp, t, ht⟩ := hlink
        rw [Lwb.trailer, hmw] at ht
        cases ht
      | done n t ok => exact ⟨n, t, ok, rfl⟩
      | issued _ _ | released _ _ _ =>
        rcases mem_append.mp hm with hm | hm
        · have := (h.retired m hm).1
          rw [Lwb.hasBuf, hmw] at this
          cases this
        · exact absurd (by rw [Lwb.inFlight, hmw])
            (hquiet m (by rw [hc]; exact mem_append_left _ hm))
    obtain ⟨n, t, ok, hmw⟩ := hdone
    cases ok
    · exact absurd (by rw [Lwb.failed, hmw]) (hok m hmem)
    · rw [Lwb.written, hmw]
  have htake : p.chain.takeWhile Lwb.stable = p.retired ++ c := by
    rw [hchain, takeWhile_append_of_pos hstable,
      takeWhile_cons_of_neg (by simp [Lwb.stable, Lwb.written, hw]), append_nil]
  rw [Commit.durable, htake]
  rw [hchain, recordsOf, flatMap_append, flatMap_singleton, hempty, append_nil] at hr
  exact hr

theorem Inv.writer (hs : s.writer objset alloc getData = some s') : Inv s' := by
  obtain ⟨halloc, hs⟩ := ite_none_right_eq_some.mp hs
  have hat := h.phase
  rw [AtPhase] at hat
  generalize hph : s.phase = phase at hs hat
  cases phase with
  | idle | panic =>
    cases hs
  | create c =>
    obtain rfl := some.inj hs
    exact h.create hph alloc objset
  | createWait c txg =>
    obtain ⟨hle, ⟨⟩⟩ := ite_none_right_eq_some.mp hs
    exact h.createWait hph hle
  | loop c lwb next =>
    obtain rfl := some.inj hs
    exact h.pick hph
  | push c lwb next i =>
    obtain rfl := some.inj hs
    exact h.push hph halloc
  | store c dva next i =>
    exact h.store hph hs
  | waitItx c dva next i =>
    obtain ⟨hle, ⟨⟩⟩ := ite_none_right_eq_some.mp hs
    exact h.waitItx hph hle
  | closing c lwb q =>
    obtain rfl := some.inj hs
    exact h.close hph halloc
  | waitIo c lwb q =>
    obtain ⟨hw, hpast, hup, hopen⟩ := hat
    obtain ⟨hquiet, hs⟩ := ite_none_right_eq_some.mp hs
    split at hs
    · obtain rfl := some.inj hs
      refine { h with phase := ⟨hw.capped, hpast, hup, hw.anchored,
        fun j hj => (h.assignable j (h.held j hj)).1, ?_⟩ }
      cases lwb with
      | some dva => exact .inl ⟨dva, false, hopen dva rfl⟩
      | none => exact .inr ⟨hw.buffer, fun l hl t ht => (h.pool.cut l hl t ht).opened⟩
    · next hgood =>
        obtain rfl := some.inj hs
        obtain ⟨hnoerr, hlwb⟩ := not_or.mp hgood
        obtain ⟨dva, rfl⟩ := ne_none_iff_exists'.mp hlwb
        refine h.finish hw.capped hpast hup hw.anchored (fun j hj => ?_)
          (.inr ⟨dva, false, hopen dva rfl⟩)
        rcases hw.pulled j hj with hh | hset | ⟨n, hn, hr⟩ | hnone
        · cases hh
        · exact hset
        · exact .inr (.inr ⟨n, hn, durable_of_quiet h.pool (hopen dva rfl) hquiet
            (fun l hl hf => hnoerr (hw.reported l hl hf)) hr⟩)
        · cases hnone
  | waitSynced c q txg =>
    obtain ⟨hc, hpast, hup, hanch, hpul, htail⟩ := hat
    obtain ⟨hle, ⟨⟩⟩ := ite_none_right_eq_some.mp hs
    refine h.finish hc hpast hup hanch (fun j hj => .inl (le_trans (hpul j hj) hle)) ?_
    rcases htail with hopen | ⟨hn | ⟨l, hl, hcut⟩, hcuts⟩
    · exact .inr hopen
    · exact .inl hn
    · -- the txg in which the allocation failed has synced
      obtain ⟨t, ht⟩ := isSome_iff_exists.mp hcut
      have h1 := (h.pool.cut l hl t ht).unsynced
      have h2 := hcuts l hl t ht
      omega

end

end Writer

theorem Inv.step {s s' : State} (h : Inv s) {ev : Event} (hord : Orderly s ev)
    (hs : step objset s ev = some s') : Inv s' := by
  cases ev with
  | assign i => exact h.assign hs
  | clean => exact h.clean hs
  | call seq foid =>
    obtain rfl := some.inj hs
    exact h.call seq foid hord
  | wake k => exact h.wake hord hs
  | writer alloc getData => exact h.writer hs
  | release dva ok =>
    obtain ⟨p, hp, rfl⟩ := map_eq_some_iff.mp hs
    obtain ⟨hp, hi, hf⟩ := h.pool.release hp
    exact h.onPool hp hi fun hr l hl hfl => hr l (hf l hl hfl) hfl
  | writeDone dva =>
    obtain ⟨⟨p, err⟩, hp, rfl⟩ := map_eq_some_iff.mp hs
    obtain ⟨hp, hi, hf⟩ := h.pool.writeDone hp
    refine h.onPool hp hi fun hr l hl hfl => ?_
    rcases hf l hl hfl with hl | he
    · rw [hr l hl hfl, Bool.true_or]
    · rw [he, Bool.or_true]
  | dirty txg =>
    obtain ⟨-, ⟨⟩⟩ := ite_none_right_eq_some.mp hs
    obtain ⟨hp, hi⟩ := h.pool.setDirty txg
    exact h.onPool hp hi id
  | openNext | beginSync =>
    obtain ⟨p, hp, rfl⟩ := map_eq_some_iff.mp hs
    have hc : p.chain = s.pool.chain := by
      obtain ⟨-, ⟨⟩⟩ := ite_none_right_eq_some.mp hp
      rfl
    obtain ⟨hp, hi⟩ : p.Inv ∧ s.pool.Interferes p := by
      first | exact h.pool.openNext hp | exact h.pool.beginSync hp
    exact h.onPool hp hi fun hr l hl => hr l (hc ▸ hl)
  | zilSync =>
    obtain ⟨p, hp, rfl⟩ := map_eq_some_iff.mp hs
    obtain ⟨hp, hi, hc⟩ := h.pool.zilSync hp hord
    exact h.onPool hp hi fun hr l hl => hr l (hc ▸ hl)
  | commitTxg =>
    obtain ⟨p, hp, rfl⟩ := map_eq_some_iff.mp hs
    obtain ⟨hp, hi, hc⟩ := h.pool.commitTxg hp
    exact h.onPool hp hi fun hr l hl => hr l (hc l hl)

theorem Inv.run {evs : List Event} : ∀ {s s' : State}, Inv s →
    OrderlyRun objset s evs → run objset s evs = some s' → Inv s' := by
  induction evs with
  | nil =>
    intro s s' h _ hrun
    obtain rfl := some.inj hrun
    exact h
  | cons ev evs ih =>
    intro s s' h hord hrun
    obtain ⟨t, hstep, hrun⟩ := bind_eq_some_iff.mp hrun
    exact ih (h.step hord.1 hstep) (hord.2 t hstep) hrun

theorem Inv.mount (syncedTxg : Nat) (media : Media) (log : Blkptr) :
    Inv (mount syncedTxg media log) := by
  have hnil : ∀ {α : Type} {P : α → Prop}, ∀ x ∈ ([] : List α), P x := fun _ hx =>
    absurd hx not_mem_nil
  have hpool : (Commit.mount syncedTxg media log).pool.Inv :=
    ⟨⟨lt_succ_self _, nofun⟩, nofun, isChain_nil,
      nodup_nil, hnil, hnil, hnil, hnil, hnil, fun hc => absurd rfl hc, hnil,
      nofun, nofun, fun _ => rfl⟩
  exact ⟨hpool, .nil, hnil, hnil, hnil, hnil, hnil, hnil, le_rfl, hnil, hnil, rfl,
    ⟨nofun, nofun⟩, .inl rfl⟩

/-- **A COMMIT THAT RETURNS IS DURABLE**: in every run in which no commit starts behind a block that
    failed to be written, and `zil_sync` does not overtake the write of a terminated block, what
    every returned `zil_commit` had to push is on disk or can be reached from the header there, and
    no buffer that is gone is filled. -/
theorem zil_commit_durable (objset syncedTxg : Nat) (media : Media) (log : Blkptr)
    {evs : List Event} {s : State} (hord : OrderlyRun objset (mount syncedTxg media log) evs)
    (hrun : run objset (mount syncedTxg media log) evs = some s) : Kept s ∧ s.phase ≠ .panic := by
  have h := (Inv.mount syncedTxg media log).run hord hrun
  refine ⟨fun c hc i hi hle hsel => ((h.promised c hc).2 i hi hle hsel).durable h.pool,
    fun hph => ?_⟩
  have hat := h.phase
  simp only [AtPhase, hph] at hat

def smallItx (txg : Nat) : Itx := ⟨0, txg, .other, 0, false, .copied, 192, 0, 192, .other 1⟩

/-- The writer goes on without asking the allocator, or gets the block from it. -/
def go : Event := .writer none true

@[inherit_doc go]
def goWith (dva : Nat) : Event := .writer (some ⟨dva, 7, 8⟩) true

def firstBlock : List Event :=
  [.assign (smallItx 5), .call 1 0, goWith 1, .openNext, .beginSync, .zilSync, .commitTxg,
    go, go, go, go, go, go]

def commitRun : List Event :=
  firstBlock ++ [.assign (smallItx 6), .call 2 0, go, go, go, go, goWith 2, .release 1 true,
    .writeDone 1, go]

theorem zil_commit_durable_six :
    ∃ s, run 21 (mount 4 (fun _ => none) hole) commitRun = some s ∧ s.pool.syncedTxg = 5 ∧
      s.returned = [⟨2, 0⟩, ⟨1, 0⟩] ∧ Kept s ∧ s.phase ≠ .panic := by
  have hend : (run 21 (mount 4 (fun _ => none) hole) commitRun).map
      (fun s => (s.pool.syncedTxg, s.returned)) = some (5, [⟨2, 0⟩, ⟨1, 0⟩]) := by decide
  obtain ⟨s, hs, heq⟩ := map_eq_some_iff.mp hend
  obtain ⟨h1, h2⟩ := Prod.mk.inj heq
  exact ⟨s, hs, h1, h2, zil_commit_durable 21 4 (fun _ => none) hole (by decide) hs⟩

/-- The write of the first block fails after `zil_sync` of txg 6; txg 7 does not dirty the dataset.
    A record of txg 8 is committed to the second block. -/
def brokenChainRun : List Event :=
  firstBlock ++ [.assign (smallItx 6), .dirty 6, .call 2 0, .openNext, go, go, go, go, goWith 2,
    .beginSync, .zilSync, .commitTxg, .release 1 false, .writeDone 1, go, .openNext, .beginSync,
    .commitTxg, go, .assign (smallItx 8), .call 3 0, go, go, go, go, goWith 3, .release 2 true,
    .writeDone 2, go]

/-- An allocation fails in txg 6 and its `zil_sync` runs before `zil_lwb_write_done` is through. -/
def windowRun : List Event :=
  firstBlock ++ [.assign (smallItx 6), .call 2 0, go, go, go, go, go, .release 1 true, .openNext,
    .beginSync, .zilSync, .writeDone 1, .commitTxg, go, .openNext, .beginSync, .commitTxg, go,
    .assign (smallItx 8), .call 3 0, go, go]

/-- **A RECORD BEHIND A BROKEN BLOCK IS LOST, AND A BUFFER THAT IS GONE IS FILLED.** -/
theorem commit_behind_broken_block :
    (∃ s, run 21 (mount 4 (fun _ => none) hole) brokenChainRun = some s ∧ ¬ Kept s) ∧
      (run 21 (mount 4 (fun _ => none) hole) windowRun).map State.phase = some .panic := by
  refine ⟨?_, by decide⟩
  have hend : (run 21 (mount 4 (fun _ => none) hole) brokenChainRun).map
      (fun s => (s.pool.syncedTxg, decide (⟨3, 0⟩ ∈ s.returned), s.assigned.getLast?, s.unneeded,
        s.pool.media s.pool.diskLog.dva))
        = some (7, true, some { smallItx 8 with seq := 3 }, [], none) := by decide
  obtain ⟨s, hs, heq⟩ := map_eq_some_iff.mp hend
  obtain ⟨h1, heq⟩ := Prod.mk.inj heq
  obtain ⟨h2, heq⟩ := Prod.mk.inj heq
  obtain ⟨h3, heq⟩ := Prod.mk.inj heq
  obtain ⟨h4, h5⟩ := Prod.mk.inj heq
  refine ⟨s, hs, fun hkept => ?_⟩
  have hread : readLogBlock s.pool.media s.pool.diskLog = .error .io := by rw [readLogBlock, h5]
  rcases hkept ⟨3, 0⟩ (of_decide_eq_true h2) _ (mem_of_getLast? h3) le_rfl rfl
    with hd | hd | ⟨n, -, hd⟩
  · rw [h1] at hd
    exact absurd hd (by decide)
  · rw [h4] at hd
    cases hd
  · cases hd with
    | here h _ | next h _ =>
      rw [hread] at h
      cases h

end Sirius.Zil.Commit
