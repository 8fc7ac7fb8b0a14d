import Sirius.Dtrace.Speculation

/-! # Speculations deliver each record once, and only their own

    The state of a speculation says which CPUs may have something in their buffers: while it
    is ACTIVE none, while ACTIVEONE one, while COMMITTING the one that commits.  A CPU that
    has made it INACTIVE and not yet reset its offset does not count.  The cleaner makes it
    INACTIVE when each CPU has answered since it was marked; nobody can trace into it in
    between. -/

namespace Sirius.Dtrace.Spec

open Function Option Nat

variable {C : Type}

/-! ## What a CPU holds -/

/-- Where `dtrace_speculation_clean_here` is, if it is the caller. -/
def Caller.at (i : ℕ) : Caller → Option ℕ
  | .probe => none
  | .cleanHere => some i

namespace Mode

/-- The CPU is the one that commits speculation `i`. -/
def owns (i : ℕ) : Mode → Prop
  | .commitCopy _ j current new | .commitEnd _ j current new => j = i ∧ sole current new = true
  | _ => False

/-- What is in the buffer has been committed. -/
def spent (i : ℕ) : Mode → Prop
  | .commitEnd _ j _ _ | .commitReset _ j => j = i
  | _ => False

/-- What is in the buffer has been committed or discarded; the offset is about to be reset. -/
def dead (i : ℕ) : Mode → Prop
  | .commitEnd _ j _ _ | .commitReset _ j | .discardReset j => j = i
  | _ => False

/-- The CPU is about to reserve space in the buffer. -/
def reserves (i : ℕ) : Mode → Prop
  | .reserve j => j = i
  | _ => False

/-- The CPU is in `dtrace_speculation_discard`. -/
def discards (i : ℕ) : Mode → Prop
  | .discard j | .discardCas j _ _ | .discardReset j => j = i
  | _ => False

/-- The places where an ECB can be while it stores a record. -/
def flies : Mode → Prop
  | .probe | .speculation _ _ | .speculationCas _ _ | .discard _ | .discardCas _ _ _
  | .discardReset _ => True
  | _ => False

/-- How far `dtrace_speculation_clean_here` has come. -/
def cleanAt : Mode → Option ℕ
  | .cleanHere i | .cleanMany i => some i
  | .commit caller i | .commitCas caller i _ _ | .commitCopy caller i _ _
  | .commitEnd caller i _ _ | .commitReset caller i => caller.at i
  | _ => none

/-- `dtrace_speculation_clean_here` has seen that speculation `i` is not DISCARDING. -/
def manyAt : Mode → Option ℕ
  | .cleanHere _ => none
  | m => m.cleanAt

/-- Places where a CPU has got hold of nothing and decided nothing. -/
def plain : Mode → Prop
  | .idle | .probe | .speculation _ _ | .speculationCas _ _ | .buffer _ | .discard _ => True
  | _ => False

/-- What is about to be swapped was computed from the offset of the CPU's own buffer. -/
def swapOk (offset : ℕ → ℕ) : Mode → Prop
  | .bufferCas _ current new =>
    current = .activeOne ∧ new = .activeMany ∨ current = .active ∧ new = .activeOne
  | .commitCas _ i current new => commitNew current (offset i) = some new
  | .commitCopy _ i current new =>
    current = .committingMany ∨ commitNew current (offset i) = some new
  | .commitEnd _ i current new =>
    current = .committingMany ∨ commitNew current (offset i) = some new
  | .discardCas i current new => discardNew current (offset i) = some new
  | _ => True

end Mode

/-- A CPU has nothing in its buffer for speculation `i`, and is not about to. -/
structure Quiet (p : Cpu C) (i : ℕ) : Prop where
  owns : ¬ p.mode.owns i
  reserves : ¬ p.mode.reserves i
  flight : ∀ f, p.flight = some f → f.spec ≠ i
  empty : p.offset i = 0 ∨ p.mode.dead i

/-- Who may have something in a buffer, by the state of the speculation. -/
def SpecOk (cpu : C → Cpu C) (i : ℕ) : SpecState → Prop
  | .inactive | .active => ∀ c, Quiet (cpu c) i
  | .activeOne => ∃ o, ¬ (cpu o).mode.owns i ∧ ∀ c, c ≠ o → Quiet (cpu c) i
  | .committing => ∃ o, (cpu o).mode.owns i ∧ ∀ c, c ≠ o → Quiet (cpu c) i
  | .activeMany | .committingMany | .discarding => ∀ c, ¬ (cpu c).mode.owns i

/-- A record of this buffer that has been neither committed nor discarded. -/
structure Fresh (sh : Shared C) (c : C) (i : ℕ) (r : Record C) : Prop where
  spec : r.spec = i
  cpu : r.cpu = c
  id : r.id < sh.next
  copied : sh.copied r = 0
  discarded : sh.discarded r = false

/-- A record that is being stored lies behind the offset, after some filler. -/
structure FlightOk (sh : Shared C) (c : C) (p : Cpu C) (f : Flight C) : Prop where
  mode : p.mode.flies
  offset_le : p.offset f.spec ≤ f.offs
  padding : ∀ k, p.offset f.spec ≤ k → k < f.offs → p.tags f.spec k = none
  bytes : ∀ k, f.offs ≤ k → k < f.offs + f.size → p.tags f.spec k = some f.record
  fresh : Fresh sh c f.spec f.record
  gen : f.record.gen = sh.gen f.spec
  kept : p.mode.discards f.spec → p.offset f.spec = 0

/-- What holds of each CPU by itself. -/
structure CpuOk (cfg : Config C) (sh : Shared C) (c : C) (p : Cpu C) : Prop where
  fresh : ∀ i k r, k < p.offset i → p.tags i k = some r → ¬ p.mode.spent i → Fresh sh c i r
  gen : ∀ i k r, k < p.offset i → p.tags i k = some r → ¬ p.mode.dead i → r.gen = sh.gen i
  flight : ∀ f, p.flight = some f → FlightOk sh c p f
  swap : p.mode.swapOk p.offset
  dest : cfg.hasDest c = false → p.mode = .idle ∧ ∀ i, p.offset i = 0
  src : ∀ i, cfg.hasSrc i c = false → p.offset i = 0 ∧ ∀ f, p.flight = some f → f.spec ≠ i

/-- Speculation `i` may be marked while the cleaner is here. -/
def Cleaner.covers (i : ℕ) : Cleaner C → Prop
  | .idle => False
  | .marking j work | .markingMany j work => i < j ∧ work = true
  | .calling _ => True
  | .finishing j | .finishCas j _ => j ≤ i

/-- The CPU has answered the cross call. -/
def Cleaner.answered (c : C) : Cleaner C → Prop
  | .calling done => done c = true
  | .finishing _ | .finishCas _ _ => True
  | _ => False

/-- What the cleaner has seen of the speculation that it is at. -/
def Cleaner.sees (cfg : Config C) (cleaning : ℕ → Bool) (state : ℕ → SpecState) :
    Cleaner C → Prop
  | .markingMany i _ => i < cfg.nspec
  | .finishCas i current => cleaning i = true ∧ state i = current
  | _ => True

/-- What holds between the cleaner, its marks and the CPUs. -/
structure CleanOk (cfg : Config C) (sh : Shared C) (cpu : C → Cpu C) : Prop where
  marked : ∀ i, sh.cleaning i = true → i < cfg.nspec ∧ sh.cleaner.covers i
    ∧ (sh.state i = .discarding ∨ sh.state i = .committingMany)
  answered : ∀ c, sh.cleaner.answered c → ∀ i, sh.cleaning i = true → Quiet (cpu c) i
  here : ∀ c j, (cpu c).mode.cleanAt = some j → ∃ done, sh.cleaner = .calling done ∧ done c = false
  past : ∀ c j, (cpu c).mode.cleanAt = some j → ∀ i, i < j → sh.cleaning i = true → Quiet (cpu c) i
  many : ∀ c j, (cpu c).mode.manyAt = some j → sh.cleaning j = true → sh.state j = .committingMany
  sees : sh.cleaner.sees cfg sh.cleaning sh.state

/-- What holds of the records that have been copied and discarded. -/
structure LedgerOk (sh : Shared C) : Prop where
  once : ∀ r, sh.copied r ≤ 1
  either : ∀ r, sh.copied r = 0 ∨ sh.discarded r = false
  old : ∀ r, sh.copied r ≠ 0 ∨ sh.discarded r = true → r.id < sh.next

/-- **THE INVARIANT** of every run. -/
structure Inv (cfg : Config C) (w : World C) : Prop where
  spec : ∀ i, SpecOk w.cpu i (w.sh.state i)
  cpu : ∀ c, CpuOk cfg w.sh c (w.cpu c)
  clean : CleanOk cfg w.sh w.cpu
  ledger : LedgerOk w.sh

variable {cfg : Config C} {w : World C} {sh sh' : Shared C} {cpu : C → Cpu C} {p p' : Cpu C}
  {c o : C} {i j needed : ℕ} {s : SpecState} {a m : Mode} {k : Cleaner C}

theorem init_inv (cfg : Config C) : Inv cfg (World.init : World C) := by
  have hquiet : ∀ (c : C) i, Quiet ((World.init : World C).cpu c) i :=
    fun c i => ⟨id, id, fun _ => nofun, .inl rfl⟩
  refine ⟨fun i c => hquiet c i, fun c => ?_, ?_, ?_⟩
  · exact ⟨fun _ _ _ hk => absurd hk (not_lt_zero _), fun _ _ _ hk => absurd hk (not_lt_zero _),
      fun _ => nofun, trivial, fun _ => ⟨rfl, fun _ => rfl⟩, fun _ _ => ⟨rfl, fun _ => nofun⟩⟩
  · exact ⟨fun _ => nofun, fun _ => False.elim, fun _ _ => nofun, fun _ _ => nofun,
      fun _ _ => nofun, trivial⟩
  · exact ⟨fun _ => zero_le 1, fun _ => .inl rfl, fun r hr => hr.elim (absurd rfl ·) nofun⟩

/-! ## What a CPU knows about itself -/

section

variable (h : SpecOk cpu i s)

include h

theorem SpecOk.not_owns (hs : s ≠ .committing) (c : C) : ¬ (cpu c).mode.owns i := by
  cases s with
  | inactive | active => exact (h c).owns
  | activeOne =>
    obtain ⟨o, ho, hr⟩ := h
    rcases eq_or_ne c o with rfl | hne
    · exact ho
    · exact (hr c hne).owns
  | committing => exact absurd rfl hs
  | activeMany | committingMany | discarding => exact h c

theorem SpecOk.others (hs : s = .active ∨ s = .activeOne ∧ ¬ Quiet (cpu c) i
      ∨ s = .committing ∧ (cpu c).mode.owns i) (c' : C) (hne : c' ≠ c) : Quiet (cpu c') i := by
  rcases hs with rfl | ⟨rfl, hc⟩ | ⟨rfl, hc⟩
  · exact h c'
  · obtain ⟨o, -, hr⟩ := h
    obtain rfl : c = o := not_imp_comm.mp (hr c) hc
    exact hr c' hne
  · obtain ⟨o, -, hr⟩ := h
    obtain rfl : c = o := not_imp_comm.mp (fun hco => (hr c hco).owns) (not_not.mpr hc)
    exact hr c' hne

end

/-- A record that is being stored may go on being stored in this place. -/
def Mode.Holds (m : Mode) (p : Cpu C) : Prop :=
  ∀ f, p.flight = some f → m.flies ∧ (m.discards f.spec → p.offset f.spec = 0)

theorem none_flies {P : Flight C → Prop} (hnone : p.flight = none) (f : Flight C)
    (hf : p.flight = some f) : P f := nomatch hnone.symm.trans hf

theorem Mode.holds_of_flies (hm : m.flies) (hd : ∀ i, ¬ m.discards i) : m.Holds p :=
  fun f _ => ⟨hm, fun h => absurd h (hd f.spec)⟩

/-- `p'` is `p` after its ECB is through with the record that it was storing. -/
structure Settles (cfg : Config C) (sh : Shared C) (c : C) (p p' : Cpu C) : Prop where
  ok : CpuOk cfg sh c p'
  mode : p'.mode = p.mode
  none : p'.flight = none
  offset : ∀ i, (∀ f, p.flight = some f → f.spec ≠ i) → p'.offset i = p.offset i

section

variable (h : CpuOk cfg sh c p)

include h

theorem CpuOk.frame (hnext : sh.next ≤ sh'.next) (hlog : ∀ r : Record C, r.cpu = c →
      sh'.copied r = sh.copied r ∧ sh'.discarded r = sh.discarded r)
    (hgen : ∀ i, Quiet p i ∨ sh'.gen i = sh.gen i) : CpuOk cfg sh' c p := by
  have hfresh : ∀ {i r}, Fresh sh c i r → Fresh sh' c i r := by
    intro i r hr
    obtain ⟨hcop, hdis⟩ := hlog r hr.cpu
    exact ⟨hr.spec, hr.cpu, hr.id.trans_le hnext, hcop.trans hr.copied, hdis.trans hr.discarded⟩
  refine ⟨fun i k r hk ht hs => hfresh (h.fresh i k r hk ht hs), ?_, ?_, h.swap, h.dest, h.src⟩
  · intro i k r hk ht hd
    rcases hgen i with hq | hg
    · rcases hq.empty with h0 | hdead
      · omega
      · exact absurd hdead hd
    · exact (h.gen i k r hk ht hd).trans hg.symm
  · intro f hf
    obtain ⟨hmode, hle, hpad, hbytes, hfr, hg, hkept⟩ := h.flight f hf
    refine ⟨hmode, hle, hpad, hbytes, hfresh hfr, ?_, hkept⟩
    rcases hgen f.spec with hq | hg'
    · exact absurd rfl (hq.flight f hf)
    · exact hg.trans hg'.symm

theorem CpuOk.goto (hspent : ∀ i, p.mode.spent i → m.spent i)
    (hdead : ∀ i, p.mode.dead i → m.dead i) (hfly : m.Holds p) (hswap : m.swapOk p.offset)
    (hdest : p.mode = .idle → cfg.hasDest c = true) : CpuOk cfg sh c (p.goto m) := by
  refine ⟨?_, ?_, ?_, hswap, fun hd => (nomatch (hdest (h.dest hd).1).symm.trans hd), h.src⟩
  · exact fun i k r hk ht hs => h.fresh i k r hk ht fun hs' => hs (hspent i hs')
  · exact fun i k r hk ht hd => h.gen i k r hk ht fun hd' => hd (hdead i hd')
  · intro f hf
    obtain ⟨-, hle, hpad, hbytes, hfr, hg, -⟩ := h.flight f hf
    exact ⟨(hfly f hf).1, hle, hpad, hbytes, hfr, hg, (hfly f hf).2⟩

theorem CpuOk.flight_none (hm : p.mode = m) (hfly : ¬ m.flies) : p.flight = none := by
  cases hf : p.flight with
  | none => rfl
  | some f => exact absurd (hm ▸ (h.flight f hf).mode) hfly

theorem CpuOk.swap_at (hm : p.mode = m) : m.swapOk p.offset := hm ▸ h.swap

theorem CpuOk.reset (hnext : sh'.next = sh.next) (hgen : sh'.gen = sh.gen)
    (hlog : ∀ r : Record C, r.spec ≠ i ∨ p.offset i = 0 →
      sh'.copied r = sh.copied r ∧ sh'.discarded r = sh.discarded r)
    (hmode : ∀ j, j ≠ i → ¬ p.mode.spent j ∧ ¬ p.mode.dead j)
    (hm : m = .probe ∨ ∃ j, m = .cleanHere j)
    (hfly : ∀ f, p.flight = some f → m = .probe ∧ (f.spec = i → p.offset i = 0))
    (hdest : p.mode = .idle → cfg.hasDest c = true) :
    CpuOk cfg sh' c ((p.setOffset i 0).goto m) := by
  have hoff : ∀ {j k}, k < update p.offset i 0 j → j ≠ i ∧ k < p.offset j := by
    intro j k hk
    rcases eq_or_ne j i with rfl | hne
    · rw [update_self] at hk
      exact absurd hk (not_lt_zero k)
    · rw [update_of_ne hne] at hk
      exact ⟨hne, hk⟩
  have hfresh : ∀ {j r}, Fresh sh c j r → (j ≠ i ∨ p.offset i = 0) → Fresh sh' c j r := by
    intro j r hr hj
    obtain ⟨hcop, hdis⟩ := hlog r (hj.imp_left fun hne => hr.spec ▸ hne)
    exact ⟨hr.spec, hr.cpu, hnext ▸ hr.id, hcop.trans hr.copied, hdis.trans hr.discarded⟩
  refine ⟨?_, ?_, ?_, ?_, fun hd => (nomatch (hdest (h.dest hd).1).symm.trans hd), ?_⟩
  · intro j k r hk ht _
    obtain ⟨hne, hk'⟩ := hoff hk
    exact hfresh (h.fresh j k r hk' ht (hmode j hne).1) (.inl hne)
  · intro j k r hk ht _
    obtain ⟨hne, hk'⟩ := hoff hk
    rw [hgen]
    exact h.gen j k r hk' ht (hmode j hne).2
  · intro f hf
    obtain ⟨rfl, hzero⟩ := hfly f hf
    obtain ⟨-, hle, hpad, hbytes, hfr, hg, -⟩ := h.flight f hf
    have hp : (p.setOffset i 0).offset f.spec = p.offset f.spec := by
      rcases eq_or_ne f.spec i with rfl | hne
      · -- the record is in the buffer that is reset, which was empty
        exact (update_self _ _ _).trans (hzero rfl).symm
      · exact update_of_ne hne _ _
    exact ⟨trivial, hp ▸ hle, fun k hk => hpad k (hp ▸ hk), hbytes,
      hfresh hfr (not_or_of_imp hzero), hgen ▸ hg, False.elim⟩
  · rcases hm with rfl | ⟨j, rfl⟩ <;> trivial
  · intro j hj
    refine ⟨?_, (h.src j hj).2⟩
    rcases eq_or_ne j i with rfl | hne
    · exact update_self _ _ _
    · exact (update_of_ne hne _ _).trans (h.src j hj).1

theorem CpuOk.crash : Settles cfg sh c p p.crash :=
  ⟨{ h with flight := nofun, src := fun i hi => ⟨(h.src i hi).1, nofun⟩ }, rfl, rfl,
    fun _ _ => rfl⟩

theorem CpuOk.land (hm : p.mode = .probe) : Settles cfg sh c p p.land := by
  rw [Cpu.land]
  cases hf : p.flight with
  | none => exact ⟨h, rfl, hf, fun _ _ => rfl⟩
  | some f =>
    obtain ⟨-, -, hpad, hbytes, hfr, hg, -⟩ := h.flight f hf
    -- a byte below the new offset was there before, or is filler, or is the record's
    have hbelow : ∀ {i k r}, k < update p.offset f.spec (f.offs + f.size) i →
        p.tags i k = some r → k < p.offset i ∨ i = f.spec ∧ r = f.record := by
      intro i k r hk ht
      rcases eq_or_ne i f.spec with rfl | hne
      · rw [update_self] at hk
        rcases lt_or_ge k (p.offset f.spec) with hlt | hge
        · exact .inl hlt
        · rcases lt_or_ge k f.offs with hlt | hge'
          · exact nomatch (hpad k hge hlt).symm.trans ht
          · exact .inr ⟨rfl, (some.inj ((hbytes k hge' hk).symm.trans ht)).symm⟩
      · rw [update_of_ne hne] at hk
        exact .inl hk
    refine ⟨⟨?_, ?_, nofun, ?_, ?_, ?_⟩, rfl, rfl, fun i hi => update_of_ne (hi f hf).symm _ _⟩
    · intro i k r hk ht hs
      rcases hbelow hk ht with hk' | ⟨rfl, rfl⟩
      · exact h.fresh i k r hk' ht hs
      · exact hfr
    · intro i k r hk ht hd
      rcases hbelow hk ht with hk' | ⟨rfl, rfl⟩
      · exact h.gen i k r hk' ht hd
      · exact hg
    · show p.mode.swapOk _
      rw [hm]
      trivial
    · intro hd
      exact nomatch hm.symm.trans (h.dest hd).1
    · intro i hi
      exact ⟨(update_of_ne ((h.src i hi).2 f hf).symm _ _).trans (h.src i hi).1, nofun⟩

theorem CpuOk.landSome (hm : p.mode = .probe) : Settles cfg sh c p p.landSome := by
  rw [Cpu.landSome]
  split
  · exact ⟨h, rfl, by assumption, fun _ _ => rfl⟩
  · split_ifs
    · exact h.land hm
    · exact h.crash

theorem CpuOk.stow {offs size : ℕ} (hled : LedgerOk sh)
    (hm : p.mode = .reserve i) (hsize : size ≤ needed) (hsrc : cfg.hasSrc i c = true)
    (hle : p.offset i ≤ offs) :
    CpuOk cfg { sh with next := sh.next + 1 } c
      ((p.stow i offs needed size ⟨sh.next, c, i, sh.gen i⟩).goto .probe) := by
  have hsame : ∀ {j k}, k < p.offset j →
      (p.stow i offs needed size ⟨sh.next, c, i, sh.gen i⟩).tags j k = p.tags j k := by
    intro j k hk
    rcases eq_or_ne j i with rfl | hne
    · show update p.tags j _ j k = _
      rw [update_self, if_neg (by omega), if_neg (by omega)]
    · show update p.tags i _ j k = _
      rw [update_of_ne hne]
  have hnew : Fresh { sh with next := sh.next + 1 } c i ⟨sh.next, c, i, sh.gen i⟩ := by
    refine ⟨rfl, rfl, lt_succ_self _, ?_, ?_⟩
    · by_contra hcop
      exact lt_irrefl _ (hled.old _ (.inl hcop))
    · by_contra hdis
      exact lt_irrefl _ (hled.old _ (.inr (Bool.not_eq_false _ ▸ hdis)))
  refine ⟨?_, ?_, ?_, trivial, ?_, ?_⟩
  · intro j k r hk ht _
    have hfr := h.fresh j k r hk ((hsame hk).symm.trans ht) (by rw [hm]; exact id)
    exact { hfr with id := hfr.id.trans (lt_succ_self _) }
  · intro j k r hk ht _
    exact h.gen j k r hk ((hsame hk).symm.trans ht) (by rw [hm]; exact id)
  · rintro f hf
    obtain rfl := some.inj hf
    refine ⟨trivial, hle, ?_, ?_, hnew, rfl, False.elim⟩
    · intro k hk hlt
      show update p.tags i _ i k = none
      rw [update_self]
      exact if_pos ⟨hk, hlt⟩
    · intro k hk hlt
      have hk' : offs ≤ k := hk
      show update p.tags i _ i k = _
      rw [update_self, if_neg (by omega)]
      exact if_pos ⟨hk, hlt.trans_le (Nat.add_le_add_left hsize offs)⟩
  · intro hd
    exact nomatch hm.symm.trans (h.dest hd).1
  · intro j hj
    refine ⟨(h.src j hj).1, ?_⟩
    intro f hf
    obtain rfl := some.inj hf
    rintro rfl
    exact nomatch hsrc.symm.trans hj

end

/-- The part of `CleanOk` that is about one CPU. -/
structure CleanAt (sh : Shared C) (c : C) (p : Cpu C) : Prop where
  answered : sh.cleaner.answered c → ∀ i, sh.cleaning i = true → Quiet p i
  here : ∀ j, p.mode.cleanAt = some j → ∃ done, sh.cleaner = .calling done ∧ done c = false
  past : ∀ j, p.mode.cleanAt = some j → ∀ i, i < j → sh.cleaning i = true → Quiet p i
  many : ∀ j, p.mode.manyAt = some j → sh.cleaning j = true → sh.state j = .committingMany

theorem CleanOk.at (h : CleanOk cfg sh cpu) (c : C) : CleanAt sh c (cpu c) :=
  ⟨h.answered c, h.here c, h.past c, h.many c⟩

theorem Quiet.goto (h : Quiet p i) (howns : ¬ m.owns i) (hres : ¬ m.reserves i)
    (hdead : p.mode.dead i → m.dead i) : Quiet (p.goto m) i :=
  ⟨howns, hres, h.flight, h.empty.imp_right hdead⟩

theorem not_quiet (hm : p.mode = m) (hdead : ¬ m.dead i) (hoff : p.offset i ≠ 0) : ¬ Quiet p i := by
  subst hm
  exact fun hq => hq.empty.elim hoff hdead

/-- A CPU that goes from `a` to `b` gets hold of nothing and lets go of nothing. -/
structure Mode.Calm (a b : Mode) : Prop where
  spent : ∀ i, a.spent i → b.spent i
  dead : ∀ i, a.dead i → b.dead i
  owns : ∀ i, b.owns i ↔ a.owns i
  reserves : ∀ i, b.reserves i → a.reserves i

theorem Mode.Calm.quiet (hab : Mode.Calm p.mode m) (h : Quiet p i) : Quiet (p.goto m) i :=
  h.goto ((hab.owns i).not.mpr h.owns) (fun hr => h.reserves (hab.reserves i hr)) (hab.dead i)

theorem Mode.Calm.of_eq {b : Mode} (h : ∀ i, (a.spent i, a.dead i, a.owns i, a.reserves i) =
    (b.spent i, b.dead i, b.owns i, b.reserves i)) : Mode.Calm a b := by
  simp only [Prod.mk.injEq] at h
  exact ⟨fun i => (h i).1.mp, fun i => (h i).2.1.mp, fun i => (h i).2.2.1 ▸ .rfl,
    fun i => (h i).2.2.2.mpr⟩

theorem Mode.cleanAt_of_manyAt (h : m.manyAt = some j) : m.cleanAt = some j := by
  cases m with
  | cleanHere i => exact nomatch h
  | _ => exact h

theorem Mode.plain.spec (h : m.plain) :
    (∀ i, ¬ m.spent i ∧ ¬ m.dead i ∧ ¬ m.owns i ∧ ¬ m.reserves i)
    ∧ (∀ offset, m.swapOk offset) ∧ m.cleanAt = none ∧ m.manyAt = none := by
  cases m with
  | idle | probe | speculation | speculationCas | buffer | discard =>
    exact ⟨fun _ => ⟨id, id, id, id⟩, fun _ => trivial, rfl, rfl⟩
  | _ => exact h.elim

theorem Mode.plain.calm {b : Mode} (ha : a.plain) (hb : ∀ i, ¬ b.owns i ∧ ¬ b.reserves i) :
    Mode.Calm a b :=
  ⟨fun i hs => absurd hs (ha.spec.1 i).1, fun i hd => absurd hd (ha.spec.1 i).2.1,
    fun i => iff_of_false (hb i).1 (ha.spec.1 i).2.2.1, fun i hr => absurd hr (hb i).2⟩

theorem Inv.counters (h : Inv cfg w) (unavail busy : ℕ) :
    Inv cfg ⟨{ w.sh with unavail := unavail, busy := busy }, w.cpu⟩ := by
  refine ⟨h.spec, fun c => (h.cpu c).frame le_rfl (fun r _ => ⟨rfl, rfl⟩) fun i => .inr rfl, ?_, ?_⟩
  · exact { h.clean with }
  · exact { h.ledger with }

theorem Inv.holds (h : Inv cfg w) (hm : (w.cpu c).mode = a) (ha : ¬ a.flies) (m : Mode) :
    m.Holds (w.cpu c) :=
  none_flies ((h.cpu c).flight_none hm ha)

theorem Inv.empty_of_committing (h : Inv cfg w) (hs : w.sh.state i = .committing)
    (hm : (w.cpu c).mode = m) (howns : ¬ m.owns i) (hdead : ¬ m.dead i) :
    (w.cpu c).offset i = 0 := by
  subst hm
  have hok := h.spec i
  rw [hs] at hok
  obtain ⟨o, ho, hr⟩ := hok
  have hne : c ≠ o := by
    rintro rfl
    exact howns ho
  exact (hr c hne).empty.resolve_right hdead

/-! ## One CPU changes -/

variable [DecidableEq C]

section

variable (h : SpecOk cpu i s)

include h

theorem SpecOk.calm (howns : p.mode.owns i ↔ (cpu c).mode.owns i)
    (hquiet : Quiet (cpu c) i → Quiet p i) : SpecOk (update cpu c p) i s := by
  have hfree : (∀ c', ¬ (cpu c').mode.owns i) → ∀ c', ¬ (update cpu c p c').mode.owns i :=
    fun h' => (forall_update_iff cpu fun _ q => ¬ q.mode.owns i).mpr
      ⟨howns.not.mpr (h' c), fun c' _ => h' c'⟩
  have hrest : ∀ Q : C → Prop, (∀ c', Q c' → Quiet (cpu c') i) →
      ∀ c', Q c' → Quiet (update cpu c p c') i :=
    fun Q h' => (forall_update_iff cpu fun c' q => Q c' → Quiet q i).mpr
      ⟨fun hc => hquiet (h' c hc), fun c' _ => h' c'⟩
  have hall : (∀ c', Quiet (cpu c') i) → ∀ c', Quiet (update cpu c p c') i :=
    fun h' c' => hrest (fun _ => True) (fun c' _ => h' c') c' trivial
  have howner : ∀ o, (update cpu c p o).mode.owns i ↔ (cpu o).mode.owns i :=
    (forall_update_iff cpu fun o q => q.mode.owns i ↔ (cpu o).mode.owns i).mpr
      ⟨howns, fun _ _ => .rfl⟩
  cases s with
  | inactive | active => exact hall h
  | activeOne =>
    obtain ⟨o, ho, hr⟩ := h
    exact ⟨o, (howner o).not.mpr ho, hrest (· ≠ o) hr⟩
  | committing =>
    obtain ⟨o, ho, hr⟩ := h
    exact ⟨o, (howner o).mpr ho, hrest (· ≠ o) hr⟩
  | activeMany | committingMany | discarding => exact hfree h

theorem SpecOk.many (hs : s ≠ .committing) (hp : ¬ p.mode.owns i)
    {s' : SpecState} (hs' : s' = .activeMany ∨ s' = .committingMany ∨ s' = .discarding) :
    SpecOk (update cpu c p) i s' := by
  have hfree : ∀ c', ¬ (update cpu c p c').mode.owns i :=
    (forall_update_iff cpu fun _ q => ¬ q.mode.owns i).mpr ⟨hp, fun c' _ => h.not_owns hs c'⟩
  rcases hs' with rfl | rfl | rfl <;> exact hfree

end

section

variable (h : ∀ c', c' ≠ c → Quiet (cpu c') i)

include h

theorem quiet_update (c' : C) (hne : c' ≠ c) : Quiet (update cpu c p c') i := by
  rw [update_of_ne hne]
  exact h c' hne

theorem SpecOk.release (hp : Quiet p i)
    (hs : s = .inactive ∨ s = .active) : SpecOk (update cpu c p) i s := by
  have hall : ∀ c', Quiet (update cpu c p c') i :=
    (forall_update_iff cpu fun _ q => Quiet q i).mpr ⟨hp, h⟩
  rcases hs with rfl | rfl <;> exact hall

theorem SpecOk.one (hp : ¬ p.mode.owns i) : SpecOk (update cpu c p) i .activeOne := by
  refine ⟨c, ?_, quiet_update h⟩
  rw [update_self]
  exact hp

theorem SpecOk.own (hp : p.mode.owns i) : SpecOk (update cpu c p) i .committing := by
  refine ⟨c, ?_, quiet_update h⟩
  rw [update_self]
  exact hp

end

/-! ## Steps of a CPU -/

theorem CleanOk.change (hcpu : CleanAt sh c p) (hothers : ∀ c', c' ≠ c → CleanAt sh c' (cpu c'))
    (marked : ∀ i, sh.cleaning i = true → i < cfg.nspec ∧ sh.cleaner.covers i
      ∧ (sh.state i = .discarding ∨ sh.state i = .committingMany))
    (sees : sh.cleaner.sees cfg sh.cleaning sh.state) : CleanOk cfg sh (update cpu c p) := by
  have hall := (forall_update_iff cpu (CleanAt sh)).mpr ⟨hcpu, hothers⟩
  exact ⟨marked, fun c => (hall c).answered, fun c => (hall c).here, fun c => (hall c).past,
    fun c => (hall c).many, sees⟩

theorem CleanOk.put (h : CleanOk cfg sh cpu) (hcleaner : sh'.cleaner = sh.cleaner)
    (hcleaning : sh'.cleaning = sh.cleaning)
    (hstate : ∀ i, sh.cleaning i = true → sh'.state i = sh.state i)
    (hquiet : ∀ i, sh.cleaning i = true → Quiet (cpu c) i → Quiet p i)
    (hat : ∀ j, p.mode.cleanAt = some j → (∃ j', (cpu c).mode.cleanAt = some j')
      ∧ ∀ i, i < j → sh.cleaning i = true → Quiet p i)
    (hmany : ∀ j, p.mode.manyAt = some j → sh.cleaning j = true → sh.state j = .committingMany) :
    CleanOk cfg sh' (update cpu c p) := by
  cases sh'
  cases hcleaner
  cases hcleaning
  refine .change ⟨fun hc i hi => hquiet i hi (h.answered c hc i hi), ?_, fun j hj => (hat j hj).2,
    fun j hj hi => (hstate j hi).trans (hmany j hj hi)⟩ (fun c' _ => ⟨h.answered c', h.here c',
      h.past c', fun j hj hi => (hstate j hi).trans (h.many c' j hj hi)⟩) ?_ ?_
  · intro j hj
    obtain ⟨j', hj'⟩ := (hat j hj).1
    exact h.here c j' hj'
  · intro i hi
    rw [hstate i hi]
    exact h.marked i hi
  · have hsees := h.sees
    cases hk : sh.cleaner with
    | finishCas i current =>
      rw [hk] at hsees
      exact ⟨hsees.1, (hstate i hsees.1).trans hsees.2⟩
    | _ =>
      rw [hk] at hsees
      exact hsees

/-- Frame rule: what one CPU changes is checked part by part. -/
theorem Inv.put (h : Inv cfg w) (hspec : ∀ i, SpecOk (update w.cpu c p) i (sh'.state i))
    (hcpu : CpuOk cfg sh' c p) (hnext : w.sh.next ≤ sh'.next) (hlog : ∀ r : Record C, r.cpu ≠ c →
      sh'.copied r = w.sh.copied r ∧ sh'.discarded r = w.sh.discarded r)
    (hgen : ∀ i, sh'.gen i = w.sh.gen i ∨ ∀ c', Quiet (w.cpu c') i)
    (hclean : CleanOk cfg sh' (update w.cpu c p)) (hled : LedgerOk sh') :
    Inv cfg (w.put c (sh', p)) := by
  refine ⟨hspec, ?_, hclean, hled⟩
  refine (forall_update_iff w.cpu (CpuOk cfg sh')).mpr ⟨hcpu, fun c' hne => ?_⟩
  refine (h.cpu c').frame hnext (fun r hr => hlog r (hr ▸ hne)) fun i => ?_
  exact (hgen i).symm.imp_left fun hq => hq c'

theorem Inv.move (h : Inv cfg w) {state : ℕ → SpecState}
    (hspec : ∀ i, SpecOk (update w.cpu c p) i (state i)) (hcpu : CpuOk cfg w.sh c p)
    (hclean : CleanOk cfg { w.sh with state := state, cleaner := k } (update w.cpu c p)) :
    Inv cfg (w.put c ({ w.sh with state := state, cleaner := k }, p)) :=
  h.put hspec (hcpu.frame le_rfl (fun _ _ => ⟨rfl, rfl⟩) fun _ => .inr rfl) le_rfl
    (fun _ _ => ⟨rfl, rfl⟩) (fun _ => .inl rfl) hclean
    { h.ledger with }

/-- The CPU goes on at `m`, and nothing else happens. -/
abbrev World.goto (w : World C) (c : C) (m : Mode) : World C := w.put c (w.sh, (w.cpu c).goto m)

theorem Inv.goto (h : Inv cfg w) (hm : (w.cpu c).mode = a) (hcalm : Mode.Calm a m)
    (hfly : m.Holds (w.cpu c)) (hswap : m.swapOk (w.cpu c).offset)
    (hdest : a = .idle → cfg.hasDest c = true)
    (hat : ∀ j, m.cleanAt = some j → (∃ j', a.cleanAt = some j')
      ∧ ∀ i, i < j → w.sh.cleaning i = true → Quiet ((w.cpu c).goto m) i)
    (hmany : ∀ j, m.manyAt = some j → w.sh.cleaning j = true → w.sh.state j = .committingMany) :
    Inv cfg (w.goto c m) := by
  subst hm
  refine h.move ?_ ?_ ?_
  · exact fun i => (h.spec i).calm (hcalm.owns i) fun hq => hcalm.quiet hq
  · exact (h.cpu c).goto hcalm.spent hcalm.dead hfly hswap hdest
  · exact h.clean.put rfl rfl (fun i _ => rfl) (fun i _ hq => hcalm.quiet hq) hat hmany

theorem Inv.goto_off (h : Inv cfg w) (hm : (w.cpu c).mode = a) (hcalm : Mode.Calm a m)
    (hfly : m.Holds (w.cpu c)) (hswap : m.swapOk (w.cpu c).offset)
    (hoff : a ≠ .idle ∧ m.cleanAt = none) : Inv cfg (w.goto c m) :=
  h.goto hm hcalm hfly hswap (absurd · hoff.1) (fun _ hj => nomatch hoff.2.symm.trans hj)
    fun _ hj => nomatch hoff.2.symm.trans (Mode.cleanAt_of_manyAt hj)

section

variable (h : Inv cfg w)

include h

theorem Inv.goto_plain (hm : (w.cpu c).mode = a) (ha : a.plain) (m : Mode)
    (hplain : m.plain) (hfly : m.Holds (w.cpu c))
    (hdest : a = .idle → cfg.hasDest c = true) : Inv cfg (w.goto c m) := by
  obtain ⟨hq, hswap, hat, hmany⟩ := hplain.spec
  exact h.goto hm (ha.calm fun i => (hq i).2.2) hfly (hswap _) hdest
    (fun _ hj => (nomatch hat.symm.trans hj)) fun _ hj => nomatch hmany.symm.trans hj

theorem Inv.goto_commit (hm : (w.cpu c).mode = a) (hcalm : Mode.Calm a m)
    (ha : ¬ a.flies) (hswap : m.swapOk (w.cpu c).offset)
    (hat : a ≠ .idle ∧ m.cleanAt = a.cleanAt ∧ m.manyAt = a.manyAt) :
    Inv cfg (w.goto c m) := by
  subst hm
  refine h.goto rfl hcalm (h.holds rfl ha m) hswap (absurd · hat.1) ?_ ?_
  · intro j hj
    rw [hat.2.1] at hj
    exact ⟨⟨j, hj⟩, fun i hlt hi => hcalm.quiet (h.clean.past c j hj i hlt hi)⟩
  · intro j hj
    exact h.clean.many c j (hat.2.2 ▸ hj)

/-! ### `dtrace_speculation` -/

/-- A step of a CPU that fails no ASSERT and keeps the invariant. -/
def Ticks (cfg : Config C) (w : World C) (c : C) : Prop :=
  ∃ r, tick cfg c w.sh (w.cpu c) = some r ∧ Inv cfg (w.put c r)

theorem tick_speculation {busy : Bool} (hm : (w.cpu c).mode = .speculation i busy) :
    Ticks cfg w c := by
  have go : ∀ m : Mode, m.plain ∧ m.flies ∧ (∀ k, ¬ m.discards k) → ∀ unavail busy : ℕ,
      Inv cfg (w.put c ({ w.sh with unavail := unavail, busy := busy }, (w.cpu c).goto m)) :=
    fun m hm' => (h.goto_plain hm trivial m hm'.1 (Mode.holds_of_flies hm'.2.1 hm'.2.2)
      nofun).counters
  rw [Ticks, tick, hm]
  dsimp only
  by_cases hlt : i < cfg.nspec
  · rw [if_pos hlt]
    cases hs : w.sh.state i with
    | inactive => exact ⟨_, rfl, go (.speculationCas i busy) ⟨trivial, trivial, fun _ => id⟩ _ _⟩
    | active | activeOne | activeMany =>
      exact ⟨_, rfl, go (.speculation (i + 1) busy) ⟨trivial, trivial, fun _ => id⟩ _ _⟩
    | committing | committingMany | discarding =>
      exact ⟨_, rfl, go (.speculation (i + 1) true) ⟨trivial, trivial, fun _ => id⟩ _ _⟩
  · split_ifs
    · exact ⟨_, rfl, go .probe ⟨trivial, trivial, fun _ => id⟩ _ _⟩
    · exact ⟨_, rfl, go .probe ⟨trivial, trivial, fun _ => id⟩ _ _⟩

theorem tick_speculationCas {busy : Bool} (hm : (w.cpu c).mode = .speculationCas i busy) :
    Ticks cfg w c := by
  rw [Ticks, tick, hm]
  dsimp only
  by_cases hs : w.sh.state i = .inactive
  · rw [if_pos hs]
    have hall : ∀ c', Quiet (w.cpu c') i := by
      have hok := h.spec i
      rw [hs] at hok
      exact hok
    have hcalm : Mode.Calm (w.cpu c).mode .probe := hm ▸ .of_eq fun _ => rfl
    refine ⟨_, rfl, h.put ?_ ?_ le_rfl (fun r _ => ⟨rfl, rfl⟩) ?_ ?_ ?_⟩
    · exact (forall_update_iff w.sh.state (SpecOk _)).mpr
        ⟨.release (fun c' _ => hall c') (hcalm.quiet (hall c)) (.inr rfl),
          fun j _ => (h.spec j).calm (hcalm.owns j) fun hq => hcalm.quiet hq⟩
    · have hcpu := (h.cpu c).goto hcalm.spent hcalm.dead
        (Mode.holds_of_flies trivial fun _ => id) trivial (hm ▸ nofun)
      refine hcpu.frame le_rfl (fun r _ => ⟨rfl, rfl⟩) fun j => ?_
      rcases eq_or_ne j i with rfl | hne
      · exact .inl (hcalm.quiet (hall c))
      · exact .inr (update_of_ne hne _ _)
    · intro j
      rcases eq_or_ne j i with rfl | hne
      · exact .inr hall
      · exact .inl (update_of_ne hne _ _)
    · refine h.clean.put rfl rfl ?_ (fun j _ hq => hcalm.quiet hq) (fun _ => nofun) fun _ => nofun
      intro j hj
      refine update_of_ne ?_ _ _
      rintro rfl
      rcases (h.clean.marked j hj).2.2 with hd | hd
      · exact nomatch hs.symm.trans hd
      · exact nomatch hs.symm.trans hd
    · exact { h.ledger with }
  · rw [if_neg hs]
    exact ⟨_, rfl, h.goto_plain hm trivial (.speculation i busy) trivial
      (Mode.holds_of_flies trivial fun _ => id) nofun⟩

/-- A compare-and-swap of one speculation's state that succeeds. -/
theorem Inv.swap (hm : (w.cpu c).mode = a) (s' : SpecState)
    (hs : w.sh.state i ≠ .discarding ∧ w.sh.state i ≠ .committingMany)
    (hspec : SpecOk (update w.cpu c ((w.cpu c).goto m)) i s')
    (hothers : ∀ j, j ≠ i → (m.owns j ↔ a.owns j) ∧ ¬ m.reserves j)
    (hfly : m.Holds (w.cpu c)) (hswap : m.swapOk (w.cpu c).offset)
    (hspent : ∀ j, a.spent j → m.spent j) (hdead : ∀ j, a.dead j → m.dead j)
    (hat : a ≠ .idle ∧ m.cleanAt = a.cleanAt ∧ m.manyAt = a.manyAt) :
    Inv cfg (w.put c (w.sh.setState i s', (w.cpu c).goto m)) := by
  subst hm
  have hmarked : ∀ j, w.sh.cleaning j = true → j ≠ i := by
    rintro j hj rfl
    exact (h.clean.marked j hj).2.2.elim hs.1 hs.2
  have hquiet : ∀ j, j ≠ i → Quiet (w.cpu c) j → Quiet ((w.cpu c).goto m) j :=
    fun j hne hq => hq.goto ((hothers j hne).1.not.mpr hq.owns) (hothers j hne).2 (hdead j)
  refine h.move ?_ ((h.cpu c).goto hspent hdead hfly hswap (absurd · hat.1)) ?_
  · exact (forall_update_iff w.sh.state (SpecOk _)).mpr
      ⟨hspec, fun j hne => (h.spec j).calm (hothers j hne).1 (hquiet j hne)⟩
  refine h.clean.put rfl rfl (fun j hj => update_of_ne (hmarked j hj) _ _)
    (fun j hj => hquiet j (hmarked j hj)) ?_ ?_
  · intro j hj
    rw [Cpu.goto, hat.2.1] at hj
    exact ⟨⟨j, hj⟩, fun k hlt hk => hquiet k (hmarked k hk) (h.clean.past c j hj k hlt hk)⟩
  · intro j hj
    exact h.clean.many c j (hat.2.2 ▸ hj)

/-! ### `dtrace_speculation_buffer` -/

theorem tick_buffer (hm : (w.cpu c).mode = .buffer i) : Ticks cfg w c := by
  have hnofly := h.holds hm id
  have hback : Inv cfg (w.goto c .probe) :=
    h.goto_plain hm trivial .probe trivial (hnofly _) nofun
  have hcas : ∀ current new, Mode.swapOk (w.cpu c).offset (.bufferCas i current new) →
      Inv cfg (w.goto c (.bufferCas i current new)) :=
    fun current new hok => h.goto_off hm (.of_eq fun _ => rfl) (hnofly _) hok ⟨nofun, rfl⟩
  -- the buffer is returned: the state allows it to be filled
  have hreserve : (∀ p, p.mode = .reserve i → SpecOk (update w.cpu c p) i (w.sh.state i)) →
      w.sh.state i ≠ .discarding ∧ w.sh.state i ≠ .committingMany →
      Inv cfg (w.goto c (.reserve i)) := by
    intro hok hs
    have hput := h.swap hm (w.sh.state i) (m := .reserve i) hs (hok _ rfl)
      (fun j hne => ⟨.rfl, fun hr => hne hr.symm⟩) (hnofly _) trivial (fun _ => id) (fun _ => id)
      ⟨nofun, rfl, rfl⟩
    rw [Shared.setState, update_eq_self] at hput
    exact hput
  rw [Ticks, tick, hm]
  dsimp only
  rw [bufferRead]
  have hok := h.spec i
  cases hs : w.sh.state i with
  | inactive | committingMany | discarding => exact ⟨_, rfl, hback⟩
  | committing =>
    rw [if_pos (h.empty_of_committing hs hm id id)]
    exact ⟨_, rfl, hback⟩
  | activeOne =>
    dsimp only
    split_ifs with hoff
    · refine ⟨_, rfl, hreserve (fun p hp => ?_) (hs ▸ ⟨nofun, nofun⟩)⟩
      exact (h.spec i).calm (by rw [hp, hm]; exact .rfl) fun hq =>
        absurd hq (not_quiet hm id hoff)
    · exact ⟨_, rfl, hcas _ _ (.inl ⟨rfl, rfl⟩)⟩
  | activeMany =>
    refine ⟨_, rfl, hreserve (fun p hp => ?_) (hs ▸ ⟨nofun, nofun⟩)⟩
    rw [hs] at hok ⊢
    exact hok.many nofun (by rw [hp]; exact id) (.inl rfl)
  | active => exact ⟨_, rfl, hcas _ _ (.inr ⟨rfl, rfl⟩)⟩

end

variable {current new : SpecState}

theorem tick_bufferCas (h : Inv cfg w)
    (hm : (w.cpu c).mode = .bufferCas i current new) : Ticks cfg w c := by
  have hnofly := h.holds hm id
  have hswap := (h.cpu c).swap_at hm
  rw [Ticks, tick, hm]
  dsimp only
  by_cases hs : w.sh.state i = current
  · rw [if_pos hs]
    have hok := h.spec i
    refine ⟨_, rfl, h.swap hm _ ?_ ?_ (fun j hne => ⟨.rfl, fun hr => hne hr.symm⟩) (hnofly _)
      trivial (fun _ => id) (fun _ => id) ⟨nofun, rfl, rfl⟩⟩
    · rw [hs]
      rcases hswap with ⟨rfl, rfl⟩ | ⟨rfl, rfl⟩
      · exact ⟨nofun, nofun⟩
      · exact ⟨nofun, nofun⟩
    · rcases hswap with ⟨rfl, rfl⟩ | ⟨rfl, rfl⟩
      · exact hok.many (hs ▸ nofun) id (.inl rfl)
      · exact .one (hok.others (.inl hs)) id
  · rw [if_neg hs]
    exact ⟨_, rfl, h.goto_off (m := .buffer i) hm (.of_eq fun _ => rfl) (hnofly _) trivial
      ⟨nofun, rfl⟩⟩

/-! ### `dtrace_speculation_commit` -/

theorem Inv.back (h : Inv cfg w) (caller : Caller) (hm : (w.cpu c).mode = a)
    (ha : a ≠ .idle ∧ ¬ a.flies ∧ ∀ i, ¬ a.spent i ∧ ¬ a.dead i ∧ ¬ a.owns i)
    (hat : caller = .cleanHere → a.cleanAt = some i
      ∧ (w.sh.cleaning i = true → Quiet (w.cpu c) i)) :
    Inv cfg (w.goto c (caller.back i)) := by
  have hnofly := h.holds hm ha.2.1
  have hcalm : ∀ {m : Mode}, (∀ j, ¬ m.owns j ∧ ¬ m.reserves j) → Mode.Calm a m :=
    fun hm' => ⟨fun j hs => absurd hs (ha.2.2 j).1, fun j hd => absurd hd (ha.2.2 j).2.1,
      fun j => iff_of_false (hm' j).1 (ha.2.2 j).2.2, fun j hr => absurd hr (hm' j).2⟩
  cases caller with
  | probe =>
    exact h.goto_off hm (hcalm fun _ => ⟨id, id⟩) (hnofly _) trivial ⟨ha.1, rfl⟩
  | cleanHere =>
    obtain ⟨hi, hquiet⟩ := hat rfl
    refine h.goto hm (hcalm fun _ => ⟨id, id⟩) (hnofly _) trivial (absurd · ha.1) ?_
      fun _ => nofun
    intro j hj
    obtain rfl : i + 1 = j := some.inj hj
    subst hm
    refine ⟨⟨i, hi⟩, fun k hlt hk => (hcalm fun _ => ⟨id, id⟩).quiet ?_⟩
    rcases Nat.lt_succ_iff_lt_or_eq.mp hlt with hlt' | rfl
    · exact h.clean.past c i hi k hlt' hk
    · exact hquiet hk

variable {caller : Caller} {done : C → Bool} {op : Op C}

section

variable (h : Inv cfg w)

include h

theorem tick_commit (hm : (w.cpu c).mode = .commit caller i) : Ticks cfg w c := by
  have hback : w.sh.state i ≠ .committingMany →
      Inv cfg (w.goto c (caller.back i)) := by
    intro hs
    refine h.back caller hm ⟨nofun, id, fun _ => ⟨id, id, id⟩⟩ ?_
    rintro rfl
    exact ⟨rfl, fun hi => absurd (h.clean.many c i (by rw [hm]; rfl) hi) hs⟩
  have hcas : ∀ current new, commitNew current ((w.cpu c).offset i) = some new →
      Inv cfg (w.goto c (.commitCas caller i current new)) := by
    intro current new hnew
    exact h.goto_commit hm (.of_eq fun _ => rfl) id hnew ⟨nofun, rfl, rfl⟩
  rw [Ticks, tick, hm]
  dsimp only
  rw [commitRead]
  cases hs : w.sh.state i with
  | committingMany =>
    exact ⟨_, rfl, h.goto_commit hm ⟨fun _ => id, fun _ => id,
      fun _ => iff_of_false (fun ho => nomatch ho.2) id, fun _ => id⟩ id (.inl rfl)
      ⟨nofun, rfl, rfl⟩⟩
  | inactive | discarding => exact ⟨_, rfl, hback (hs ▸ nofun)⟩
  | committing =>
    rw [if_pos (h.empty_of_committing hs hm id id)]
    exact ⟨_, rfl, hback (hs ▸ nofun)⟩
  | active | activeOne | activeMany => exact ⟨_, rfl, hcas _ _ rfl⟩

theorem tick_commitCas (hm : (w.cpu c).mode = .commitCas caller i current new) : Ticks cfg w c := by
  have hswap' : commitNew current ((w.cpu c).offset i) = some new := (h.cpu c).swap_at hm
  rw [Ticks, tick, hm]
  dsimp only
  by_cases hs : w.sh.state i = current
  · rw [if_pos hs]
    have hok := h.spec i
    refine ⟨_, rfl, h.swap hm _ ?_ ?_ (fun j hne => ⟨iff_of_false (fun ho => hne ho.1.symm) id, id⟩)
      (h.holds hm id _) (.inr hswap') (fun _ => False.elim) (fun _ => False.elim)
      ⟨nofun, rfl, rfl⟩⟩
    · rw [hs]
      cases current with
      | active | activeOne | activeMany => exact ⟨nofun, nofun⟩
      | _ => exact nomatch hswap'
    · -- alone if the speculation was not traced to, or by this CPU only
      cases current with
      | active =>
        obtain rfl := some.inj hswap'
        exact .own (hok.others (.inl hs)) ⟨rfl, rfl⟩
      | activeOne =>
        by_cases hoff : (w.cpu c).offset i ≠ 0
        · obtain rfl : SpecState.committing = new :=
            some.inj ((congrArg some (if_pos hoff)).symm.trans hswap')
          exact .own (hok.others (.inr (.inl ⟨hs, not_quiet hm id hoff⟩))) ⟨rfl, rfl⟩
        · obtain rfl : SpecState.committingMany = new :=
            some.inj ((congrArg some (if_neg hoff)).symm.trans hswap')
          refine hok.many (hs ▸ nofun) ?_ (.inr (.inl rfl))
          exact fun ho => nomatch ho.2
      | activeMany =>
        obtain rfl := some.inj hswap'
        refine hok.many (hs ▸ nofun) ?_ (.inr (.inl rfl))
        exact fun ho => nomatch ho.2
      | _ => exact nomatch hswap'
  · rw [if_neg hs]
    exact ⟨_, rfl, h.goto_commit (m := .commit caller i) hm (.of_eq fun _ => rfl) id trivial
      ⟨nofun, rfl, rfl⟩⟩

theorem tick_commitEnd (hm : (w.cpu c).mode = .commitEnd caller i current new) : Ticks cfg w c := by
  have hnone := (h.cpu c).flight_none hm id
  rw [Ticks, tick, hm]
  dsimp only
  cases hsole : sole current new with
  | true =>
    have howns : (w.cpu c).mode.owns i := by
      rw [hm]
      exact ⟨rfl, hsole⟩
    have hs : w.sh.state i = .committing := by
      by_contra hne
      exact (h.spec i).not_owns hne c howns
    rw [if_pos hs]
    refine ⟨_, rfl, h.swap hm _ (hs ▸ ⟨nofun, nofun⟩) ?_
      (fun j hne => ⟨iff_of_false id fun ho => hne ho.1.symm, id⟩) (none_flies hnone) trivial
      (fun _ => id) (fun _ => id) ⟨nofun, rfl, rfl⟩⟩
    refine .release ((h.spec i).others (.inr (.inr ⟨hs, howns⟩))) ?_ (.inl rfl)
    exact ⟨id, id, none_flies hnone, .inr rfl⟩
  | false =>
    refine ⟨_, rfl, h.goto_commit (m := .commitReset caller i) hm
      ⟨fun _ => id, fun _ => id, fun _ => iff_of_false id ?_, fun _ => id⟩ id trivial
      ⟨nofun, rfl, rfl⟩⟩
    rintro ⟨-, ho⟩
    exact nomatch hsole.symm.trans ho

/-! ### Offsets are reset -/

omit h in
theorem forget_discarded {r : Record C} (hr : ¬ ∃ k < p.offset i, p.tags i k = some r) :
    (sh.forget p i).discarded r = sh.discarded r := by
  show (sh.discarded r || decide _) = _
  rw [decide_eq_false hr, Bool.or_false]

omit h in
theorem LedgerOk.forget (h : LedgerOk sh) (hcpu : CpuOk cfg sh c p) (hspent : ¬ p.mode.spent i) :
    LedgerOk (sh.forget p i) := by
  refine ⟨h.once, ?_, ?_⟩
  · intro r
    by_cases hr : ∃ k < p.offset i, p.tags i k = some r
    · obtain ⟨k, hk, ht⟩ := hr
      exact .inl (hcpu.fresh i k r hk ht hspent).copied
    · rw [forget_discarded hr]
      exact h.either r
  · intro r hor
    by_cases hr : ∃ k < p.offset i, p.tags i k = some r
    · obtain ⟨k, hk, ht⟩ := hr
      exact (hcpu.fresh i k r hk ht hspent).id
    · rw [forget_discarded hr] at hor
      exact h.old r hor

/-- **AN OFFSET IS RESET**: with the end of `dtrace_speculation_commit` or
    `dtrace_speculation_discard`, or in the cross call. -/
theorem Inv.reset (ha : (w.cpu c).mode = a)
    (hsh : sh' = w.sh ∨ sh' = w.sh.forget (w.cpu c) i ∧ ¬ a.spent i)
    (hmode : ∀ j, ¬ a.owns j ∧ (j ≠ i → ¬ a.spent j ∧ ¬ a.dead j))
    (hm : m = .probe ∨ m = .cleanHere (i + 1) ∧ a.cleanAt = some i)
    (hfly : ∀ f, (w.cpu c).flight = some f → m = .probe ∧ (f.spec = i → (w.cpu c).offset i = 0))
    (hdest : a = .idle → cfg.hasDest c = true) :
    Inv cfg (w.put c (sh', ((w.cpu c).setOffset i 0).goto m)) := by
  subst ha
  have hm' : ∀ j, ¬ m.owns j ∧ ¬ m.reserves j := by
    rcases hm with rfl | ⟨rfl, -⟩ <;> exact fun j => ⟨id, id⟩
  have hquiet : ∀ j, Quiet (w.cpu c) j → Quiet (((w.cpu c).setOffset i 0).goto m) j := by
    intro j hq
    refine ⟨(hm' j).1, (hm' j).2, hq.flight, .inl ?_⟩
    rcases eq_or_ne j i with rfl | hne
    · exact update_self _ _ _
    · exact (update_of_ne hne _ _).trans (hq.empty.resolve_right ((hmode j).2 hne).2)
  -- only records of this buffer are recorded as discarded
  have hlog : ∀ r : Record C, r.spec ≠ i ∨ r.cpu ≠ c ∨ (w.cpu c).offset i = 0 →
      sh'.copied r = w.sh.copied r ∧ sh'.discarded r = w.sh.discarded r := by
    intro r hr
    rcases hsh with rfl | ⟨rfl, hspent⟩
    · exact ⟨rfl, rfl⟩
    refine ⟨rfl, forget_discarded ?_⟩
    rintro ⟨k, hk, ht⟩
    have hfr := (h.cpu c).fresh i k r hk ht hspent
    rcases hr with hr | hr | hr
    · exact hr hfr.spec
    · exact hr hfr.cpu
    · omega
  have hsame : sh'.next = w.sh.next ∧ sh'.gen = w.sh.gen ∧ sh'.cleaner = w.sh.cleaner
      ∧ sh'.cleaning = w.sh.cleaning ∧ sh'.state = w.sh.state := by
    rcases hsh with rfl | ⟨rfl, -⟩ <;> exact ⟨rfl, rfl, rfl, rfl, rfl⟩
  obtain ⟨hnext, hgen, hcleaner, hcleaning, hstate⟩ := hsame
  refine h.put ?_ ?_ hnext.ge (fun r hr => hlog r (.inr (.inl hr))) (fun j => .inl (by rw [hgen]))
    ?_ ?_
  · intro j
    rw [hstate]
    exact (h.spec j).calm (iff_of_false (hm' j).1 (hmode j).1) (hquiet j)
  · refine (h.cpu c).reset hnext hgen (fun r hr => hlog r (hr.imp_right .inr))
      (fun j => (hmode j).2) ?_ hfly hdest
    exact hm.imp_right fun hj => ⟨_, hj.1⟩
  · refine h.clean.put hcleaner hcleaning (fun j _ => by rw [hstate]) (fun j _ => hquiet j) ?_ ?_
    · intro j hj
      rcases hm with rfl | ⟨rfl, hat⟩
      · exact nomatch hj
      obtain rfl : i + 1 = j := some.inj hj
      refine ⟨⟨i, hat⟩, fun k hlt hk => ?_⟩
      rcases Nat.lt_succ_iff_lt_or_eq.mp hlt with hlt' | rfl
      · exact hquiet k (h.clean.past c i hat k hlt' hk)
      · refine ⟨id, id, fun f hf => ?_, .inl (update_self _ _ _)⟩
        exact nomatch (hfly f hf).1
    · intro j hj
      rcases hm with rfl | ⟨rfl, -⟩
      · exact nomatch hj
      · exact nomatch hj
  · rcases hsh with rfl | ⟨rfl, hspent⟩
    · exact h.ledger
    · exact h.ledger.forget (h.cpu c) hspent

theorem tick_commitReset (hm : (w.cpu c).mode = .commitReset caller i) : Ticks cfg w c := by
  have hnone := (h.cpu c).flight_none hm id
  rw [Ticks, tick, hm]
  refine ⟨_, rfl, h.reset hm (.inl rfl)
    (fun j => ⟨id, fun hne => ⟨fun hj => hne hj.symm, fun hj => hne hj.symm⟩⟩) ?_
    (none_flies hnone) nofun⟩
  cases caller with
  | probe => exact .inl rfl
  | cleanHere => exact .inr ⟨rfl, rfl⟩

/-! ### `dtrace_speculation_discard` -/

theorem tick_discard (hm : (w.cpu c).mode = .discard i) : Ticks cfg w c := by
  rw [Ticks, tick, hm]
  dsimp only
  rw [discardRead]
  cases hnew : discardNew (w.sh.state i) ((w.cpu c).offset i) with
  | none =>
    exact ⟨_, rfl, h.goto_plain hm trivial .probe trivial (Mode.holds_of_flies trivial fun _ => id)
      nofun⟩
  | some new =>
    refine ⟨_, rfl, h.goto_off (m := .discardCas i (w.sh.state i) new) hm (.of_eq fun _ => rfl) ?_
      hnew ⟨nofun, rfl⟩⟩
    intro f hf
    refine ⟨trivial, fun hd => ((h.cpu c).flight f hf).kept ?_⟩
    rw [hm]
    exact hd

theorem tick_discardCas (hm : (w.cpu c).mode = .discardCas i current new) : Ticks cfg w c := by
  have hswap' : discardNew current ((w.cpu c).offset i) = some new := (h.cpu c).swap_at hm
  have hkept : ∀ f, (w.cpu c).flight = some f → i = f.spec → (w.cpu c).offset f.spec = 0 := by
    intro f hf hspec
    refine ((h.cpu c).flight f hf).kept ?_
    rw [hm]
    exact hspec
  rw [Ticks, tick, hm]
  dsimp only
  by_cases hs : w.sh.state i = current
  · rw [if_pos hs]
    have hok := h.spec i
    refine ⟨_, rfl, h.swap hm _ ?_ ?_ (fun j _ => ⟨.rfl, id⟩)
      (fun f hf => ⟨trivial, hkept f hf⟩) trivial (fun _ => False.elim) (fun _ => False.elim)
      ⟨nofun, rfl, rfl⟩⟩
    · rw [hs]
      cases current with
      | active | activeOne | activeMany => exact ⟨nofun, nofun⟩
      | _ => exact nomatch hswap'
    cases current with
    | active | activeMany =>
      obtain rfl := some.inj hswap'
      exact hok.many (hs ▸ nofun) id (.inr (.inr rfl))
    | activeOne =>
      by_cases hoff : (w.cpu c).offset i ≠ 0
      · obtain rfl : SpecState.inactive = new :=
          some.inj ((congrArg some (if_pos hoff)).symm.trans hswap')
        refine .release (hok.others (.inr (.inl ⟨hs, not_quiet hm id hoff⟩))) ?_ (.inl rfl)
        refine ⟨id, id, fun f hf hspec => ?_, .inr rfl⟩
        exact hoff (hspec ▸ hkept f hf hspec.symm)
      · obtain rfl : SpecState.discarding = new :=
          some.inj ((congrArg some (if_neg hoff)).symm.trans hswap')
        exact hok.many (hs ▸ nofun) id (.inr (.inr rfl))
    | _ => exact nomatch hswap'
  · rw [if_neg hs]
    exact ⟨_, rfl, h.goto_off (m := .discard i) hm (.of_eq fun _ => rfl)
      (fun f hf => ⟨trivial, hkept f hf⟩) trivial ⟨nofun, rfl⟩⟩

theorem tick_discardReset (hm : (w.cpu c).mode = .discardReset i) : Ticks cfg w c := by
  rw [Ticks, tick, hm]
  refine ⟨_, rfl, h.reset hm (.inr ⟨rfl, id⟩)
    (fun j => ⟨id, fun hne => ⟨id, fun hj => hne hj.symm⟩⟩) (.inl rfl) ?_ nofun⟩
  intro f hf
  refine ⟨rfl, ?_⟩
  rintro rfl
  refine ((h.cpu c).flight f hf).kept ?_
  rw [hm]
  rfl

/-! ### `dtrace_speculation_clean_here` -/

theorem Inv.clean_done (hm : (w.cpu c).mode = .cleanHere i) (hi : cfg.nspec ≤ i) :
    Inv cfg (w.put c ({ w.sh with cleaner := w.sh.cleaner.mark c }, (w.cpu c).goto .idle)) := by
  have hcalm : Mode.Calm (w.cpu c).mode .idle := hm ▸ .of_eq fun _ => rfl
  obtain ⟨done, hcall, -⟩ := h.clean.here c i (by rw [hm]; rfl)
  have hmark : w.sh.cleaner.mark c = .calling (update done c true) := by
    rw [hcall]
    rfl
  refine h.move ?_ ?_ ?_
  · exact fun j => (h.spec j).calm (hcalm.owns j) fun hq => hcalm.quiet hq
  · exact (h.cpu c).goto hcalm.spent hcalm.dead (h.holds hm id _) trivial (hm ▸ nofun)
  rw [hmark]
  refine .change ⟨fun _ j hj => ?_, fun _ => nofun, fun _ => nofun, fun _ => nofun⟩
    (fun c' hne => ⟨fun hc' => h.clean.answered c' ?_, fun j hj => ?_, h.clean.past c',
      h.clean.many c'⟩) ?_ trivial
  · refine hcalm.quiet (h.clean.past c i (by rw [hm]; rfl) j ?_ hj)
    exact (h.clean.marked j hj).1.trans_le hi
  · rw [hcall]
    exact (update_of_ne hne _ _).symm.trans hc'
  · obtain ⟨done', hcall', hdone'⟩ := h.clean.here c' j hj
    obtain rfl : done = done' := Cleaner.calling.inj (hcall.symm.trans hcall')
    exact ⟨_, rfl, (update_of_ne hne _ _).trans hdone'⟩
  · exact fun j hj => ⟨(h.clean.marked j hj).1, trivial, (h.clean.marked j hj).2.2⟩

theorem tick_cleanHere (hm : (w.cpu c).mode = .cleanHere i) : Ticks cfg w c := by
  have hnone := (h.cpu c).flight_none hm id
  rw [Ticks, tick, hm]
  dsimp only
  by_cases hlt : i < cfg.nspec
  · rw [if_pos hlt]
    by_cases hsrc : cfg.hasSrc i c = true
    · rw [if_neg (not_not.mpr hsrc)]
      by_cases hs : w.sh.state i = .discarding
      · rw [if_pos hs]
        exact ⟨_, rfl, h.reset hm (.inr ⟨rfl, id⟩) (fun j => ⟨id, fun _ => ⟨id, id⟩⟩)
          (.inr ⟨rfl, rfl⟩) (none_flies hnone) nofun⟩
      rw [if_neg hs]
      have hcalm : Mode.Calm (w.cpu c).mode (.cleanMany i) := hm ▸ .of_eq fun _ => rfl
      refine ⟨_, rfl, h.goto (m := .cleanMany i) rfl hcalm (none_flies hnone) trivial
        (hm ▸ nofun) ?_ ?_⟩
      · intro j hj
        obtain rfl : i = j := some.inj hj
        have hat : (w.cpu c).mode.cleanAt = some i := hm ▸ rfl
        exact ⟨⟨i, hat⟩, fun k hk hmk => hcalm.quiet (h.clean.past c i hat k hk hmk)⟩
      · intro j hj hmj
        obtain rfl : i = j := some.inj hj
        exact (h.clean.marked i hmj).2.2.resolve_left hs
    · rw [if_pos hsrc]
      refine ⟨_, rfl, h.back .cleanHere hm ⟨nofun, id, fun _ => ⟨id, id, id⟩⟩ fun _ =>
        ⟨rfl, fun _ => ?_⟩⟩
      refine ⟨by rw [hm]; exact id, by rw [hm]; exact id, none_flies hnone,
        .inl ((h.cpu c).src i (Bool.not_eq_true _ ▸ hsrc)).1⟩
  · rw [if_neg hlt]
    exact ⟨_, rfl, h.clean_done hm (not_lt.mp hlt)⟩

theorem tick_cleanMany (hm : (w.cpu c).mode = .cleanMany i) : Ticks cfg w c := by
  have hnone := (h.cpu c).flight_none hm id
  rw [Ticks, tick, hm]
  dsimp only
  split_ifs with hskip
  · refine ⟨_, rfl, h.back .cleanHere hm ⟨nofun, id, fun _ => ⟨id, id, id⟩⟩ fun _ =>
      ⟨rfl, fun hi => ?_⟩⟩
    refine ⟨by rw [hm]; exact id, by rw [hm]; exact id, none_flies hnone,
      .inl (hskip.resolve_left fun hs => hs ?_)⟩
    exact h.clean.many c i (by rw [hm]; rfl) hi
  · exact ⟨_, rfl, h.goto_commit (m := .commit .cleanHere i) hm (.of_eq fun _ => rfl) id trivial
      ⟨nofun, rfl, rfl⟩⟩

omit h in
theorem World.put_self (w : World C) (c : C) : w.put c (w.sh, w.cpu c) = w := by
  rw [World.put, update_eq_self]

theorem tick_spec (c : C) : Ticks cfg w c := by
  have hstay : tick cfg c w.sh (w.cpu c) = some (w.sh, w.cpu c) → Ticks cfg w c :=
    fun ht => ⟨_, ht, by rw [World.put_self]; exact h⟩
  cases hm : (w.cpu c).mode with
  | idle | probe | reserve | commitCopy =>
    refine hstay ?_
    rw [tick, hm]
  | speculation i busy => exact tick_speculation h hm
  | speculationCas i busy => exact tick_speculationCas h hm
  | buffer i => exact tick_buffer h hm
  | bufferCas i current new => exact tick_bufferCas h hm
  | commit caller i => exact tick_commit h hm
  | commitCas caller i current new => exact tick_commitCas h hm
  | commitEnd caller i current new => exact tick_commitEnd h hm
  | commitReset caller i => exact tick_commitReset h hm
  | discard i => exact tick_discard h hm
  | discardCas i current new => exact tick_discardCas h hm
  | discardReset i => exact tick_discardReset h hm
  | cleanHere i => exact tick_cleanHere h hm
  | cleanMany i => exact tick_cleanMany h hm

omit h in
theorem World.put_put (w : World C) (c : C) (r r' : Shared C × Cpu C) :
    (w.put c r).put c r' = w.put c r' := by
  rw [World.put, World.put, update_idem]
  rfl

omit h in
theorem World.put_cpu (w : World C) (c : C) (r : Shared C × Cpu C) : (w.put c r).cpu c = r.2 :=
  update_self _ _ _

theorem Inv.settle (hm : (w.cpu c).mode = .probe) (hp : Settles cfg w.sh c (w.cpu c) p) :
    Inv cfg (w.put c (w.sh, p)) := by
  have hmode := hp.mode.trans hm
  have hquiet : ∀ i, Quiet (w.cpu c) i → Quiet p i := by
    intro i hq
    refine ⟨by rw [hmode]; exact id, by rw [hmode]; exact id, none_flies hp.none, ?_⟩
    rw [hp.offset i hq.flight, hp.mode]
    exact hq.empty
  refine h.move (fun i => (h.spec i).calm (by rw [hp.mode]) (hquiet i)) hp.ok ?_
  refine h.clean.put rfl rfl (fun i _ => rfl) (fun i _ => hquiet i) ?_ ?_
  · rw [hmode]
    exact fun _ => nofun
  · rw [hmode]
    exact fun _ => nofun

omit h in
theorem Inv.idle {w : World C} {r : Shared C × Cpu C} (h : Inv cfg (w.put c r))
    (hm : r.2.mode = .probe) (hnone : r.2.flight = none) :
    Inv cfg (w.put c (r.1, r.2.goto .idle)) := by
  have hcpu := w.put_cpu c r
  have hgo := h.goto_plain (a := .probe) (hcpu ▸ hm) trivial .idle trivial
    (none_flies (hcpu ▸ hnone)) nofun
  rw [World.goto, hcpu, World.put_put] at hgo
  exact hgo

theorem Inv.withSpec {m : ℕ → Mode} (which : ℕ)
    (hgo : Inv cfg (w.goto c (m (which - 1)))) :
    Inv cfg (w.put c (w.sh, Spec.withSpec cfg which (w.cpu c) m)) := by
  rw [Spec.withSpec]
  split_ifs
  · rw [World.put_self]
    exact h
  · exact hgo

theorem act_reserve {offs size : ℕ} (hm : (w.cpu c).mode = .reserve i)
    (hsize : size ≤ needed) (hsrc : cfg.hasSrc i c = true) (hle : (w.cpu c).offset i ≤ offs) :
    Inv cfg (w.put c ({ w.sh with next := w.sh.next + 1 },
      ((w.cpu c).stow i offs needed size ⟨w.sh.next, c, i, w.sh.gen i⟩).goto .probe)) := by
  have hquiet : ∀ j, Quiet (w.cpu c) j →
      Quiet (((w.cpu c).stow i offs needed size ⟨w.sh.next, c, i, w.sh.gen i⟩).goto .probe) j := by
    intro j hq
    have hne : i ≠ j := fun hij => hq.reserves (by rw [hm]; exact hij)
    refine ⟨id, id, fun f hf => ?_, .inl (hq.empty.resolve_right (by rw [hm]; exact id))⟩
    obtain rfl := some.inj hf
    exact hne
  refine h.put ?_ ((h.cpu c).stow h.ledger hm hsize hsrc hle) (le_succ _)
    (fun r _ => ⟨rfl, rfl⟩) (fun j => .inl rfl) ?_ ?_
  · exact fun j => (h.spec j).calm (by rw [hm]; exact .rfl) (hquiet j)
  · exact h.clean.put rfl rfl (fun j _ => rfl) (fun j _ => hquiet j) (fun _ => nofun) fun _ => nofun
  · exact { h.ledger with old := fun r hr => (h.ledger.old r hr).trans (lt_succ_self _) }

omit h in
theorem deliver_copied {r : Record C} (hr : ¬ ∃ k < p.offset i, p.tags i k = some r) :
    (sh.deliver p i).copied r = sh.copied r := if_neg hr

omit h in
theorem LedgerOk.deliver (h : LedgerOk sh) (hcpu : CpuOk cfg sh c p) (hspent : ¬ p.mode.spent i) :
    LedgerOk (sh.deliver p i) := by
  have hcases : ∀ r, (∃ k < p.offset i, p.tags i k = some r) ∧ Fresh sh c i r
      ∨ (sh.deliver p i).copied r = sh.copied r := by
    intro r
    by_cases hr : ∃ k < p.offset i, p.tags i k = some r
    · obtain ⟨k, hk, ht⟩ := hr
      exact .inl ⟨⟨k, hk, ht⟩, hcpu.fresh i k r hk ht hspent⟩
    · exact .inr (deliver_copied hr)
  refine ⟨?_, ?_, ?_⟩
  · intro r
    rcases hcases r with ⟨hr, hfr⟩ | hsame
    · have hone : (sh.deliver p i).copied r = sh.copied r + 1 := if_pos hr
      rw [hone, hfr.copied]
    · rw [hsame]
      exact h.once r
  · intro r
    rcases hcases r with ⟨-, hfr⟩ | hsame
    · exact .inr hfr.discarded
    · rw [hsame]
      exact h.either r
  · intro r hor
    rcases hcases r with ⟨-, hfr⟩ | hsame
    · exact hfr.id
    · rw [hsame] at hor
      exact h.old r hor

theorem act_copy (hm : (w.cpu c).mode = .commitCopy caller i current new) (fits : Bool) :
    Inv cfg (w.put c (if fits then w.sh.deliver (w.cpu c) i else w.sh,
      (w.cpu c).goto (.commitEnd caller i current new))) := by
  have hnone := (h.cpu c).flight_none hm id
  have hspent : ¬ (w.cpu c).mode.spent i := by
    rw [hm]
    exact id
  have hcalm : Mode.Calm (w.cpu c).mode (.commitEnd caller i current new) := by
    rw [hm]
    exact ⟨fun _ => False.elim, fun _ => False.elim, fun _ => .rfl, fun _ => id⟩
  have hcommit : Inv cfg (w.goto c (.commitEnd caller i current new)) := by
    have hswap := (h.cpu c).swap_at hm
    rw [hm] at hcalm
    exact h.goto_commit hm hcalm id hswap ⟨nofun, rfl, rfl⟩
  cases fits with
  | false => exact hcommit
  | true =>
    -- the records copied are this buffer's, which is spent now
    have hlog : ∀ r : Record C, r.spec ≠ i ∨ r.cpu ≠ c →
        (w.sh.deliver (w.cpu c) i).copied r = w.sh.copied r := by
      intro r hr
      refine deliver_copied ?_
      rintro ⟨k, hk, ht⟩
      have hfr := (h.cpu c).fresh i k r hk ht hspent
      exact hr.elim (fun h' => h' hfr.spec) fun h' => h' hfr.cpu
    have hcpu := hcommit.cpu c
    rw [World.put_cpu] at hcpu
    refine h.put (fun j => (h.spec j).calm (hcalm.owns j) fun hq => hcalm.quiet hq) ?_ le_rfl
      (fun r hr => ⟨hlog r (.inr hr), rfl⟩) (fun j => .inl rfl) ?_
      (h.ledger.deliver (h.cpu c) hspent)
    · refine { hcpu with fresh := ?_, flight := none_flies hnone }
      intro j k r hk ht hs
      have hfr := hcpu.fresh j k r hk ht hs
      have hne : r.spec ≠ i := fun hij => hs (hij.symm.trans hfr.spec)
      exact { hfr with copied := (hlog r (.inl hne)).trans hfr.copied }
    · exact { hcommit.clean with }

theorem act_xcall (hcall : w.sh.cleaner = .calling done)
    (hm : (w.cpu c).mode = .idle) (hdone : done c = false) (hdest : cfg.hasDest c = true) :
    Inv cfg (w.goto c (.cleanHere 0)) := by
  have hcalm : Mode.Calm (w.cpu c).mode (.cleanHere 0) := hm ▸ .of_eq fun _ => rfl
  refine h.move (fun j => (h.spec j).calm (hcalm.owns j) fun hq => hcalm.quiet hq) ?_ ?_
  · exact (h.cpu c).goto hcalm.spent hcalm.dead (h.holds hm id _) trivial fun _ => hdest
  refine .change ⟨fun hc j hj => hcalm.quiet (h.clean.answered c hc j hj),
    fun _ _ => ⟨done, hcall, hdone⟩, fun j hj k hlt => ?_, fun _ => nofun⟩
    (fun c' _ => h.clean.at c') h.clean.marked h.clean.sees
  obtain rfl : 0 = j := some.inj hj
  exact absurd hlt (not_lt_zero k)

theorem act_xcall_absent (hcall : w.sh.cleaner = .calling done) (hdest : cfg.hasDest c = false) :
    Inv cfg (w.put c ({ w.sh with cleaner := .calling (update done c true) }, w.cpu c)) := by
  obtain ⟨hm, hempty⟩ := (h.cpu c).dest hdest
  have hnone := (h.cpu c).flight_none hm id
  have hself : update w.cpu c (w.cpu c) = w.cpu := update_eq_self _ _
  refine h.move ?_ (h.cpu c) ?_
  · rw [hself]
    exact h.spec
  rw [hself]
  refine ⟨?_, ?_, ?_, h.clean.past, h.clean.many, trivial⟩
  · exact fun j hj => ⟨(h.clean.marked j hj).1, trivial, (h.clean.marked j hj).2.2⟩
  · intro c' hc' j hj
    rcases eq_or_ne c' c with rfl | hne
    · exact ⟨by rw [hm]; exact id, by rw [hm]; exact id, none_flies hnone, .inl (hempty j)⟩
    · refine h.clean.answered c' ?_ j hj
      rw [hcall]
      exact (update_of_ne hne _ _).symm.trans hc'
  · intro c' j hj
    obtain ⟨done', hcall', hdone'⟩ := h.clean.here c' j hj
    obtain rfl : done = done' := Cleaner.calling.inj (hcall.symm.trans hcall')
    have hne : c' ≠ c := by
      rintro rfl
      rw [hm] at hj
      exact nomatch hj
    exact ⟨_, rfl, (update_of_ne hne _ _).trans hdone'⟩

/-- An ECB does not discard the speculation that it is tracing into, once its CPU has
    something in the buffer. -/
def Safe (w : World C) : Op C → Prop
  | .discard c which => ∀ f, (w.cpu c).flight = some f → f.spec = which - 1 →
      (w.cpu c).offset f.spec = 0
  | _ => True

theorem act_spec (hc : op.cpu = some c) (hallow : Allowed cfg w op)
    (hsafe : Safe w op) : Inv cfg (w.put c (act cfg c w.sh (w.cpu c) op)) := by
  have hstay : Inv cfg (w.put c (w.sh, w.cpu c)) := by
    rw [World.put_self]
    exact h
  cases op with
  | fire =>
    cases hc
    rw [act]
    split_ifs with hm
    · exact h.goto_plain hm.1 trivial .probe trivial (h.holds hm.1 id _) fun _ => hm.2
    · exact hstay
  | speculation =>
    rw [act]
    split_ifs with hm
    · exact h.goto_plain hm trivial (.speculation 0 false) trivial
        (Mode.holds_of_flies trivial fun _ => id) nofun
    · exact hstay
  | speculate _ which =>
    cases hc
    rw [act]
    split_ifs with hm
    · exact h.withSpec which (h.goto_plain hm trivial (.buffer (which - 1)) trivial
        (none_flies (isNone_iff_eq_none.mp hallow)) nofun)
    · exact hstay
  | reserve _ offs needed size =>
    cases hc
    obtain ⟨hsize, hallow⟩ := hallow
    unfold act
    cases hm : (w.cpu c).mode with
    | reserve i =>
      rw [hm] at hallow
      cases offs with
      | none =>
        exact h.goto_off (m := .probe) hm ⟨fun _ => id, fun _ => id, fun _ => .rfl,
          fun _ => False.elim⟩ (h.holds hm id _) trivial ⟨nofun, rfl⟩
      | some o =>
        obtain ⟨hsrc, hle⟩ := hallow i rfl o rfl
        exact act_reserve h hm hsize hsrc hle
    | _ => exact hstay
  | commit _ which =>
    cases hc
    rw [act]
    split_ifs with hm
    · -- first the record that is being stored, then the call
      have hp := (h.cpu c).landSome hm
      have hland := h.settle hm hp
      have hcpu := w.put_cpu c (w.sh, (w.cpu c).landSome)
      have hgo := hland.withSpec (c := c) (m := .commit .probe) which ?_
      · rw [hcpu, World.put_put] at hgo
        exact hgo
      refine hland.goto_off (a := .probe) (m := .commit .probe (which - 1)) ?_
        (.of_eq fun _ => rfl) (none_flies ?_) trivial ⟨nofun, rfl⟩
      · rw [hcpu]
        exact hp.mode.trans hm
      · rw [hcpu]
        exact hp.none
    · exact hstay
  | copy _ fits =>
    cases hc
    rw [act]
    cases hm : (w.cpu c).mode with
    | commitCopy caller i current new => exact act_copy h hm fits
    | _ => exact hstay
  | discard _ which =>
    cases hc
    rw [act]
    split_ifs with hm
    · exact h.withSpec which (h.goto_plain hm trivial (.discard (which - 1)) trivial
        (fun f hf => ⟨trivial, fun hd => hsafe f hf hd.symm⟩) nofun)
    · exact hstay
  | finish _ success =>
    cases hc
    rw [act]
    split_ifs with hm hs
    · have hp := (h.cpu c).land hm
      exact (h.settle hm hp).idle (hp.mode.trans hm) hp.none
    · exact (h.settle hm (h.cpu c).crash).idle hm rfl
    · exact hstay
  | xcall =>
    rw [act]
    cases hcall : w.sh.cleaner with
    | calling done =>
      dsimp only
      split_ifs with hm hdest
      · exact act_xcall h hcall hm.1 (Bool.not_eq_true _ ▸ hm.2) hdest
      · exact act_xcall_absent h hcall (Bool.not_eq_true _ ▸ hdest)
      · exact hstay
    | _ => exact hstay
  | tick | clean | cleanTick => exact hstay

/-! ## The cleaner -/

section

variable (hallow : Allowed cfg w .cleanTick)

include hallow

omit [DecidableEq C]

theorem Inv.nobody (c : C) (j : ℕ) : (w.cpu c).mode.cleanAt ≠ some j := by
  intro hj
  obtain ⟨done, hcall, hdone⟩ := h.clean.here c j hj
  exact nomatch hdone.symm.trans (hallow done (by rw [hcall]; rfl) c)

theorem Inv.cleaner {state : ℕ → SpecState} {cleaning : ℕ → Bool}
    (hspec : ∀ i, SpecOk w.cpu i (state i))
    (hmarked : ∀ i, cleaning i = true → i < cfg.nspec ∧ k.covers i
      ∧ (state i = .discarding ∨ state i = .committingMany))
    (hanswered : ∀ c, k.answered c → ∀ i, cleaning i = true → Quiet (w.cpu c) i)
    (hsees : k.sees cfg cleaning state) :
    Inv cfg ⟨{ w.sh with state := state, cleaning := cleaning, cleaner := k }, w.cpu⟩ := by
  have hno := h.nobody hallow
  refine ⟨hspec, fun c => (h.cpu c).frame le_rfl (fun _ _ => ⟨rfl, rfl⟩) fun _ => .inr rfl, ?_,
    { h.ledger with }⟩
  exact ⟨hmarked, hanswered, fun c j hj => absurd hj (hno c j), fun c j hj => absurd hj (hno c j),
    fun c j hj => absurd (Mode.cleanAt_of_manyAt hj) (hno c j), hsees⟩

theorem clean_mark (hcov : ∀ j, w.sh.cleaning j = true → j < i) (hi : i < cfg.nspec)
    (hs : w.sh.state i = .discarding ∨ w.sh.state i = .committingMany) :
    Inv cfg ⟨{ w.sh with
      cleaning := update w.sh.cleaning i true, cleaner := .marking (i + 1) true },
      w.cpu⟩ := by
  refine h.cleaner hallow h.spec ?_ (fun _ => False.elim) trivial
  intro j hj
  rcases eq_or_ne j i with rfl | hne
  · exact ⟨hi, ⟨lt_succ_self j, rfl⟩, hs⟩
  · have hj' := (update_of_ne hne _ _).symm.trans hj
    obtain ⟨hn, -, hst⟩ := h.clean.marked j hj'
    exact ⟨hn, ⟨lt_succ_of_lt (hcov j hj'), rfl⟩, hst⟩

theorem clean_move (hcov : ∀ i, w.sh.cleaning i = true → w.sh.cleaner.covers i → k.covers i)
    (hans : ∀ c, k.answered c → ∀ i, w.sh.cleaning i = true → Quiet (w.cpu c) i)
    (hsees : k.sees cfg w.sh.cleaning w.sh.state) :
    Inv cfg ⟨{ w.sh with cleaner := k }, w.cpu⟩ := by
  refine h.cleaner hallow h.spec ?_ hans hsees
  intro j hj
  obtain ⟨hn, hcov', hst⟩ := h.clean.marked j hj
  exact ⟨hn, hcov j hj hcov', hst⟩

omit hallow in
theorem Inv.covers (hc : w.sh.cleaner = k) (j : ℕ) (hj : w.sh.cleaning j = true) : k.covers j :=
  hc ▸ (h.clean.marked j hj).2.1

omit hallow in
theorem Inv.sees (hc : w.sh.cleaner = k) : k.sees cfg w.sh.cleaning w.sh.state := hc ▸ h.clean.sees

/-- A step of the cleaner that fails no ASSERT and keeps the invariant. -/
def Cleans (cfg : Config C) (w : World C) : Prop :=
  ∃ sh, cleanTick cfg w.sh = some sh ∧ Inv cfg ⟨sh, w.cpu⟩

theorem cleanTick_marking {work : Bool} (hc : w.sh.cleaner = .marking i work) : Cleans cfg w := by
  have hcov : ∀ j, w.sh.cleaning j = true → j < i ∧ work = true := h.covers hc
  rw [Cleans, cleanTick, hc]
  dsimp only
  by_cases hi : i < cfg.nspec
  · have hfalse : ¬ w.sh.cleaning i = true := fun hi' => lt_irrefl i (hcov i hi').1
    rw [if_pos hi, if_neg hfalse]
    by_cases hs : w.sh.state i = .discarding
    · rw [if_pos hs]
      exact ⟨_, rfl, clean_mark h hallow (fun j hj => (hcov j hj).1) hi (.inl hs)⟩
    rw [if_neg hs]
    exact ⟨_, rfl, clean_move h hallow (fun j hj _ => hcov j hj) (fun _ => False.elim) hi⟩
  · split_ifs with hw
    · exact ⟨_, rfl, clean_move h hallow (fun _ _ _ => trivial) nofun trivial⟩
    · -- there was no work, so nothing is marked
      exact ⟨_, rfl, clean_move h hallow (fun j hj _ => hw (hcov j hj).2) (fun _ => False.elim)
        trivial⟩

theorem cleanTick_finishing (hc : w.sh.cleaner = .finishing i) : Cleans cfg w := by
  have hcov : ∀ j, w.sh.cleaning j = true → i ≤ j := h.covers hc
  have hans : ∀ c j, w.sh.cleaning j = true → Quiet (w.cpu c) j :=
    fun c => h.clean.answered c (hc ▸ trivial)
  rw [Cleans, cleanTick, hc]
  dsimp only
  by_cases hi : i < cfg.nspec
  · rw [if_pos hi]
    by_cases hmark : w.sh.cleaning i = true
    · rw [if_neg (not_not.mpr hmark), if_pos (h.clean.marked i hmark).2.2]
      exact ⟨_, rfl, clean_move h hallow (fun j hj _ => hcov j hj) (fun c _ => hans c) ⟨hmark, rfl⟩⟩
    · rw [if_pos hmark]
      refine ⟨_, rfl, clean_move h hallow ?_ (fun c _ => hans c) trivial⟩
      intro j hj _
      refine lt_of_le_of_ne (hcov j hj) ?_
      rintro rfl
      exact hmark hj
  · rw [if_neg hi]
    refine ⟨_, rfl, clean_move h hallow ?_ (fun _ => False.elim) trivial⟩
    intro j hj _
    exact hi ((hcov j hj).trans_lt (h.clean.marked j hj).1)

theorem cleanTick_finishCas (hc : w.sh.cleaner = .finishCas i current) : Cleans cfg w := by
  obtain ⟨hmark, hs⟩ := h.sees hc
  have hans : ∀ c j, w.sh.cleaning j = true → Quiet (w.cpu c) j :=
    fun c => h.clean.answered c (hc ▸ trivial)
  rw [Cleans, cleanTick, hc]
  dsimp only
  rw [if_pos hs]
  have hold : ∀ {j}, update w.sh.cleaning i false j = true → j ≠ i ∧ w.sh.cleaning j = true := by
    intro j hj
    rcases eq_or_ne j i with rfl | hne
    · rw [update_self] at hj
      exact nomatch hj
    · rw [update_of_ne hne] at hj
      exact ⟨hne, hj⟩
  refine ⟨_, rfl, h.cleaner hallow ?_ ?_ ?_ trivial⟩
  · exact (forall_update_iff w.sh.state (SpecOk w.cpu)).mpr
      ⟨fun c => hans c i hmark, fun j _ => h.spec j⟩
  · intro j hj
    obtain ⟨hne, hj'⟩ := hold hj
    obtain ⟨hn, hcov, hst⟩ := h.clean.marked j hj'
    rw [hc] at hcov
    refine ⟨hn, lt_of_le_of_ne hcov hne.symm, ?_⟩
    show update w.sh.state i .inactive j = _ ∨ update w.sh.state i .inactive j = _
    rw [update_of_ne hne]
    exact hst
  · exact fun c _ j hj => hans c j (hold hj).2

/-- **THE CLEANER GOES ON**: its ASSERTs hold, and it makes a speculation INACTIVE only when
    every buffer for it is empty. -/
theorem cleanTick_spec : Cleans cfg w := by
  cases hc : w.sh.cleaner with
  | idle =>
    refine ⟨w.sh, ?_, h⟩
    rw [cleanTick, hc]
  | marking i work => exact cleanTick_marking h hallow hc
  | markingMany i work =>
    have hcov : ∀ j, w.sh.cleaning j = true → j < i ∧ work = true := h.covers hc
    have hi : i < cfg.nspec := h.sees hc
    rw [Cleans, cleanTick, hc]
    dsimp only
    split_ifs with hs
    · exact ⟨_, rfl, clean_mark h hallow (fun j hj => (hcov j hj).1) hi
        (.inr hs)⟩
    · exact ⟨_, rfl, clean_move h hallow
        (fun j hj _ => ⟨lt_succ_of_lt (hcov j hj).1, (hcov j hj).2⟩) (fun _ => False.elim) trivial⟩
  | calling done =>
    rw [Cleans, cleanTick, hc]
    refine ⟨_, rfl, clean_move h hallow (fun _ _ _ => zero_le _) ?_ trivial⟩
    intro c _ j hj
    refine h.clean.answered c ?_ j hj
    rw [hc]
    exact hallow done (by rw [hc]; rfl) c
  | finishing i => exact cleanTick_finishing h hallow hc
  | finishCas i current => exact cleanTick_finishCas h hallow hc

end

/-- The states that a run can reach, if every step satisfies `ok`. -/
inductive Reachable (cfg : Config C) (ok : World C → Op C → Prop) : World C → Prop
  | init : Reachable cfg ok World.init
  | step {w w' : World C} (op : Op C) : Reachable cfg ok w → Allowed cfg w op → ok w op →
      step cfg w op = some w' → Reachable cfg ok w'

theorem step_spec (hallow : Allowed cfg w op) (hsafe : Safe w op) :
    ∃ w', step cfg w op = some w' ∧ Inv cfg w' := by
  have hact : ∀ c, op.cpu = some c → step cfg w op = some (w.put c (act cfg c w.sh (w.cpu c) op)) →
      ∃ w', step cfg w op = some w' ∧ Inv cfg w' :=
    fun c hc hs => ⟨_, hs, act_spec h hc hallow hsafe⟩
  cases op with
  | tick c =>
    obtain ⟨r, hr, hinv⟩ := tick_spec h c
    refine ⟨w.put c r, ?_, hinv⟩
    rw [step, hr]
    rfl
  | clean =>
    rw [step]
    cases hc : w.sh.cleaner with
    | idle =>
      have hallow : Allowed cfg w .cleanTick := by
        rw [Allowed, hc]
        exact fun _ => nofun
      refine ⟨_, rfl, clean_move h hallow ?_ (fun _ => False.elim) trivial⟩
      rw [hc]
      exact fun _ _ => False.elim
    | _ => exact ⟨w, rfl, h⟩
  | cleanTick =>
    obtain ⟨sh, hsh, hinv⟩ := cleanTick_spec h hallow
    refine ⟨⟨sh, w.cpu⟩, ?_, hinv⟩
    rw [step, hsh]
    rfl
  | fire c | speculation c | speculate c _ | reserve c _ _ _ | commit c _ | copy c _ | discard c _
  | finish c _ | xcall c => exact hact c rfl rfl

end

theorem Reachable.inv (h : Reachable cfg Safe w) : Inv cfg w := by
  induction h with
  | init => exact init_inv cfg
  | step op _ hallow hsafe hstep ih =>
    obtain ⟨w', hw', hinv⟩ := step_spec ih hallow hsafe
    obtain rfl := some.inj (hstep.symm.trans hw')
    exact hinv

/-- **SPECULATIONS**: in every run in which no ECB discards a speculation that it is tracing
    into and that its CPU has traced into before, no ASSERT fails; a record is copied at
    most once, and not if it is discarded; while a speculation is INACTIVE, no CPU is
    tracing into it, and every buffer for it is empty (or about to be reset by the CPU that
    has committed or discarded what is in it); and what is about to be copied was traced by
    that CPU for the present allocation of the speculation. -/
theorem speculations_deliver_once (h : Reachable cfg Safe w) :
    (∀ op, Allowed cfg w op → Safe w op → ∃ w', step cfg w op = some w')
      ∧ (∀ r, w.sh.copied r ≤ 1 ∧ (w.sh.copied r = 0 ∨ w.sh.discarded r = false))
      ∧ (∀ i, w.sh.state i = .inactive → ∀ c, (∀ f, (w.cpu c).flight = some f → f.spec ≠ i)
        ∧ ((w.cpu c).offset i = 0 ∨ (w.cpu c).mode.dead i))
      ∧ ∀ c caller i current new, (w.cpu c).mode = .commitCopy caller i current new →
        ∀ k < (w.cpu c).offset i, ∀ r, (w.cpu c).tags i k = some r →
          r.spec = i ∧ r.cpu = c ∧ r.gen = w.sh.gen i ∧ w.sh.copied r = 0
            ∧ w.sh.discarded r = false := by
  have hinv := h.inv
  refine ⟨?_, fun r => ⟨hinv.ledger.once r, hinv.ledger.either r⟩, ?_, ?_⟩
  · intro op hallow hsafe
    obtain ⟨w', hw', -⟩ := step_spec hinv hallow hsafe
    exact ⟨w', hw'⟩
  · intro i hi c
    have hok := hinv.spec i
    rw [hi] at hok
    exact ⟨(hok c).flight, (hok c).empty⟩
  · intro c caller i current new hm k hk r hr
    have hfr := (hinv.cpu c).fresh i k r hk hr (by rw [hm]; exact id)
    have hgen := (hinv.cpu c).gen i k r hk hr (by rw [hm]; exact id)
    exact ⟨hfr.spec, hfr.cpu, hgen, hfr.copied, hfr.discarded⟩

theorem Reachable.run [Fintype C] {ok : World C → Op C → Prop} {ops : List (Op C)} {w' : World C}
    (h : Reachable cfg ok w) (hok : ∀ op ∈ ops, ∀ w, ok w op) (hrun : run cfg w ops = some w') :
    Reachable cfg ok w' := by
  induction ops generalizing w with
  | nil =>
    obtain rfl := some.inj hrun
    exact h
  | cons op ops ih =>
    rw [Spec.run] at hrun
    split_ifs at hrun with hallow
    obtain ⟨w₁, hstep, hrest⟩ := bind_eq_some_iff.mp hrun
    obtain ⟨hop, hops⟩ := List.forall_mem_cons.mp hok
    exact ih (h.step op hallow (hop w) hstep) hops hrest

def oneCpu : Config Unit := ⟨1, fun _ => true, fun _ _ => true⟩

/-- The speculation is allocated, a record is traced into it, and it is committed. -/
def traceAndCommit : List (Op Unit) :=
  [.fire (), .speculation (), .tick (), .tick (), .finish () true,
    .fire (), .speculate () 1, .tick (), .tick (), .reserve () (some 0) 4 4, .finish () true,
    .fire (), .commit () 1, .tick (), .tick (), .copy () true]

theorem speculations_deliver_once_committed :
    ∃ w, Reachable oneCpu Safe w ∧ w.sh.copied ⟨0, (), 0, 1⟩ = 1
      ∧ w.sh.discarded ⟨0, (), 0, 1⟩ = false := by
  have hfacts : (run oneCpu World.init traceAndCommit).map (fun w => w.sh.copied ⟨0, (), 0, 1⟩)
      = some 1 := by decide +kernel
  obtain ⟨w, hw, hcopied⟩ := map_eq_some_iff.mp hfacts
  have hreach : Reachable oneCpu Safe w := by
    refine Reachable.init.run ?_ hw
    simp [traceAndCommit, Safe]
  refine ⟨w, hreach, hcopied, ?_⟩
  obtain ⟨-, honce, -⟩ := speculations_deliver_once hreach
  refine (honce ⟨0, (), 0, 1⟩).2.resolve_left ?_
  rw [hcopied]
  exact one_ne_zero

/-! ## An ECB that discards what it is tracing -/

/-- The speculation is allocated, a record is traced into it; an ECB traces another record
    into it, discards it, and ends; it is allocated again, and committed. -/
def discardWhileTracing : List (Op Unit) :=
  [.fire (), .speculation (), .tick (), .tick (), .finish () true,
    .fire (), .speculate () 1, .tick (), .tick (), .reserve () (some 0) 4 4, .finish () true,
    .fire (), .speculate () 1, .tick (), .reserve () (some 4) 4 4,
    .discard () 1, .tick (), .tick (), .tick (), .finish () true,
    .fire (), .speculation (), .tick (), .tick (), .commit () 1, .tick (), .tick (), .copy () true]

/-- **A DISCARDED RECORD IS DELIVERED**, by the next allocation: the discard finds the offset
    non-zero, makes the speculation INACTIVE and resets the offset, and the end of the ECB
    sets the offset again. -/
theorem discarded_record_delivered :
    ∃ w, Reachable oneCpu (fun _ _ => True) w
      ∧ w.sh.copied ⟨0, (), 0, 1⟩ = 1 ∧ w.sh.discarded ⟨0, (), 0, 1⟩ = true
      ∧ w.sh.copied ⟨1, (), 0, 1⟩ = 1 ∧ w.sh.gen 0 = 2 := by
  have hfacts : (run oneCpu World.init discardWhileTracing).map (fun w =>
      (w.sh.copied ⟨0, (), 0, 1⟩, w.sh.discarded ⟨0, (), 0, 1⟩, w.sh.copied ⟨1, (), 0, 1⟩,
        w.sh.gen 0)) = some (1, true, 1, 2) := by decide +kernel
  obtain ⟨w, hw, hvals⟩ := map_eq_some_iff.mp hfacts
  simp only [Prod.mk.injEq] at hvals
  obtain ⟨h1, h2, h3, h4⟩ := hvals
  exact ⟨w, Reachable.init.run (fun _ _ _ => trivial) hw, h1, h2, h3, h4⟩

end Sirius.Dtrace.Spec
