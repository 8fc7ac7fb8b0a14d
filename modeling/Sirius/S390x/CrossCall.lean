import Mathlib.Data.Fintype.Basic

/-! # Cross calls of `x_call.c`

    `xc_some` leaves a request in the target's `cpu_m`, signals the target and sleeps on its
    `sigSem`; `xc_serv` is the handler.  The steps of the caller interleave with the handlers
    and with the other two users of `sigSem`, the start of a CPU (`mp_startup`) and the thread
    that waits for it.

    The loop of `xc_some` decides by the set whether the caller itself is still to be served,
    but otherwise takes the CPUs in the order of `cix`, which it never looks up in the set;
    and no handler posts `sigSem`.  Here is what both mean for the targets. -/

namespace Sirius.Xcall

open Function Finset Option

/-- A CPU number; `NCPU` is 64. -/
abbrev Cpu := Fin 64

/-- `cpuset_t`, one word of 64 bits: `CPUSET_AND` is `∩`, `CPUSET_DEL` is `erase`. -/
abbrev Cpuset := Finset Cpu

/-- A request as it stands in `cpu_m`. -/
structure Call (φ : Type) where
  func : φ
  arg1 : UInt64
  arg2 : UInt64
  deriving DecidableEq

/-- Where the caller is: at the head of the loop, in `sema_p` of a CPU, past the end of
    `cpu[]`, or back from the call. -/
inductive Pc
  | loop
  | wait (c : Cpu)
  | wild
  | returned
  deriving DecidableEq

/-- What the machine is like when the call is made: the CPUs that are ready, the counts of
    the semaphores, and the CPUs still inside `mp_startup`, in front of its `sema_v`. -/
structure Machine where
  cpuReadySet : Cpuset
  sigSem : Cpu → ℕ
  starting : Cpu → Bool

/-- The call under way.  `pending` is an external call that its CPU has not taken yet;
    `ran` lists the runs of a requested function, `used` the subscripts given to `cpu[]`. -/
structure State (φ : Type) where
  pc : Pc
  cix : ℕ
  xcCpuset : Cpuset
  func : Cpu → Option (Call φ)
  pending : Cpu → Bool
  sigSem : Cpu → ℕ
  starting : Cpu → Bool
  ran : List (Cpu × Call φ)
  used : List ℕ

inductive Event
  | caller
  | serve (c : Cpu)
  | online (c : Cpu)
  | starter (c : Cpu)

variable {φ : Type}

def enter (m : Machine) (set : Cpuset) : State φ :=
  ⟨.loop, 0, set, fun _ => none, fun _ => false, m.sigSem, m.starting, [], []⟩

/-- `xc_some` up to its loop. -/
def xcSome (m : Machine) (cpuset : Cpuset) : State φ := enter m (m.cpuReadySet ∩ cpuset)

/-- `xc_all` up to its loop, which is the loop of `xc_some`. -/
def xcAll (m : Machine) : State φ := enter m m.cpuReadySet

/-- One turn of the loop, up to `sema_p`. -/
def turn (lcx : Cpu) (k : Call φ) (s : State φ) : State φ :=
  if s.xcCpuset = ∅ then { s with pc := .returned }
  else if lcx ∈ s.xcCpuset then
    { s with ran := s.ran ++ [(lcx, k)], xcCpuset := s.xcCpuset.erase lcx, cix := s.cix + 1 }
  else if h : s.cix < 64 then
    { s with
      used := s.used ++ [s.cix]
      func := update s.func ⟨s.cix, h⟩ (some k)
      pending := update s.pending ⟨s.cix, h⟩ true
      pc := .wait ⟨s.cix, h⟩ }
  else { s with used := s.used ++ [s.cix], pc := .wild }

/-- `sema_p` has been passed: the rest of the turn. -/
def woken (c : Cpu) (s : State φ) : State φ :=
  { s with
    sigSem := update s.sigSem c (s.sigSem c - 1)
    xcCpuset := s.xcCpuset.erase c
    cix := s.cix + 1
    pc := .loop }

/-- `xc_serv` on CPU `c`.  The semaphore is not posted.  The test for `XC_WAKE_FN`, which is not
    called, is left out. -/
def xcServ (c : Cpu) (k : Call φ) (s : State φ) : State φ :=
  { s with
    ran := s.ran ++ [(c, k)]
    func := update s.func c none
    pending := update s.pending c false }

/-- One step of the system.  `online` is the `sema_v` of `mp_startup`, `starter` the
    `sema_p` of the thread that brings a CPU up. -/
def step (lcx : Cpu) (k : Call φ) (s : State φ) : Event → Option (State φ)
  | .caller =>
    match s.pc with
    | .loop => some (turn lcx k s)
    | .wait c => if 0 < s.sigSem c then some (woken c s) else none
    | .wild | .returned => none
  | .serve c => if s.pending c then (s.func c).map (xcServ c · s) else none
  | .online c =>
    if s.starting c then
      some { s with starting := update s.starting c false
                    sigSem := update s.sigSem c (s.sigSem c + 1) }
    else none
  | .starter c =>
    if 0 < s.sigSem c then
      some { s with sigSem := update s.sigSem c (s.sigSem c - 1) }
    else none

def run (lcx : Cpu) (k : Call φ) (s : State φ) : List Event → Option (State φ)
  | [] => some s
  | e :: es => (step lcx k s e).bind (run lcx k · es)

theorem run_append (lcx : Cpu) (k : Call φ) (s : State φ) (es fs : List Event) :
    run lcx k s (es ++ fs) = (run lcx k s es).bind (run lcx k · fs) := by
  induction es generalizing s with
  | nil => rfl
  | cons e es ih =>
    rw [List.cons_append, run, run, bind_assoc]
    exact congrArg _ (funext fun s' => ih s')

variable {lcx : Cpu} {k : Call φ} {s : State φ} {es : List Event}

theorem run_keeps {P : State φ → Prop} (hstep : ∀ s e s', P s → step lcx k s e = some s' → P s')
    {s' : State φ} (hs : P s) (h : run lcx k s es = some s') : P s' := by
  induction es generalizing s with
  | nil => exact some.inj h ▸ hs
  | cons e es ih =>
    obtain ⟨t, ht, hrest⟩ := bind_eq_some_iff.mp h
    exact ih (hstep s e t hs ht) hrest

inductive Allowed (lcx : Cpu) (k : Call φ) (s : State φ) : State φ → Prop
  | turn : s.pc = .loop → Allowed lcx k s (turn lcx k s)
  | woken (c : Cpu) : s.pc = .wait c → 0 < s.sigSem c → Allowed lcx k s (woken c s)
  | serve (c : Cpu) (j : Call φ) : s.pending c = true → s.func c = some j →
      Allowed lcx k s (xcServ c j s)
  | online (c : Cpu) : s.starting c = true →
      Allowed lcx k s { s with starting := update s.starting c false
                               sigSem := update s.sigSem c (s.sigSem c + 1) }
  | starter (c : Cpu) : 0 < s.sigSem c →
      Allowed lcx k s { s with sigSem := update s.sigSem c (s.sigSem c - 1) }

theorem Allowed.of_step {s' : State φ} {e : Event}
    (h : step lcx k s e = some s') : Allowed lcx k s s' := by
  cases e with
  | caller =>
    cases hpc : s.pc with
    | loop =>
      simp only [step, hpc, some.injEq] at h
      exact h ▸ .turn hpc
    | wait c =>
      simp only [step, hpc, ite_none_right_eq_some, some.injEq] at h
      exact h.2 ▸ .woken c hpc h.1
    | wild | returned => simp [step, hpc] at h
  | serve c =>
    obtain ⟨hp, hf⟩ := ite_none_right_eq_some.mp h
    obtain ⟨j, hj, rfl⟩ := map_eq_some_iff.mp hf
    exact .serve c j hp hj
  | online c =>
    obtain ⟨hs, he⟩ := ite_none_right_eq_some.mp h
    exact some.inj he ▸ .online c hs
  | starter c =>
    obtain ⟨hs, he⟩ := ite_none_right_eq_some.mp h
    exact some.inj he ▸ .starter c hs

/-! ## What the call is for -/

/-- The request `k` reaches exactly the CPUs of `targets`: along every run it is executed
    there once at most and nowhere else, `cpu[]` is given targets only, the caller is back
    only when every target has executed it, and it always can still get back. -/
structure ReachesTargets [DecidableEq φ] (lcx : Cpu) (k : Call φ) (targets : Cpuset)
    (start : State φ) : Prop where
  once : ∀ es s, run lcx k start es = some s →
    ∀ c, s.ran.count (c, k) ≤ if c ∈ targets then 1 else 0
  indexed : ∀ es s, run lcx k start es = some s → ∀ i ∈ s.used, ∃ c ∈ targets, c.val = i
  served : ∀ es s, run lcx k start es = some s → s.pc = .returned →
    ∀ c ∈ targets, s.ran.count (c, k) = 1
  returns : ∀ es s, run lcx k start es = some s → ∃ fs t, run lcx k s fs = some t ∧ t.pc = .returned

variable {set : Cpuset} {c : Cpu} {m : Machine}

/-! ## A call with no target but the caller -/

/-- What is left of a call whose targets are at most the caller: at most its own turn. -/
structure OwnOnly (lcx : Cpu) (k : Call φ) (targets : Cpuset) (s : State φ) : Prop where
  used : s.used = []
  idle : ∀ c, s.pending c = false
  left : s.xcCpuset ⊆ {lcx}
  ran : (if lcx ∈ s.xcCpuset then s.ran ++ [(lcx, k)] else s.ran) =
    if lcx ∈ targets then [(lcx, k)] else []
  pc : s.pc = .loop ∨ s.pc = .returned ∧ s.xcCpuset = ∅

variable {targets : Cpuset}

theorem ownOnly_enter (k : Call φ) (m : Machine)
    (h : targets ⊆ {lcx}) : OwnOnly lcx k targets (enter m targets) :=
  ⟨rfl, fun _ => rfl, h, rfl, .inl rfl⟩

theorem OwnOnly.turn (ho : OwnOnly lcx k targets s) (hpc : s.pc = .loop) :
    OwnOnly lcx k targets (turn lcx k s) := by
  unfold Xcall.turn
  by_cases hnull : s.xcCpuset = ∅
  · rw [if_pos hnull]
    exact { ho with pc := .inr ⟨rfl, hnull⟩ }
  · -- a set inside {lcx} that is not empty is the caller's own turn
    have hown : lcx ∈ s.xcCpuset := by
      obtain ⟨c, hc⟩ := nonempty_iff_ne_empty.mpr hnull
      exact mem_singleton.mp (ho.left hc) ▸ hc
    rw [if_neg hnull, if_pos hown]
    refine ⟨ho.used, ho.idle, (erase_subset _ _).trans ho.left, ?_, .inl hpc⟩
    rw [if_neg (notMem_erase _ _), ← ho.ran, if_pos hown]

theorem OwnOnly.step (s : State φ) (e : Event) (s' : State φ) (ho : OwnOnly lcx k targets s)
    (h : step lcx k s e = some s') : OwnOnly lcx k targets s' := by
  cases Allowed.of_step h with
  | turn hpc => exact ho.turn hpc
  | woken c hpc _ =>
    rcases ho.pc with hp | ⟨hp, -⟩ <;> rw [hp] at hpc <;> nomatch hpc
  | serve c j hp _ => exact absurd (ho.idle c) (by simp [hp])
  | online c _ | starter c _ => exact { ho with }

theorem OwnOnly.returns (ho : OwnOnly lcx k targets s) :
    ∃ fs t, run lcx k s fs = some t ∧ t.pc = .returned := by
  -- at the head of the loop with nothing left, one more step is the return
  have hlast : ∀ t : State φ, t.pc = .loop → t.xcCpuset = ∅ →
      run lcx k t [.caller] = some { t with pc := .returned } := by
    intro t hpc hnull
    simp [run, Xcall.step, hpc, Xcall.turn, hnull]
  rcases ho.pc with hpc | ⟨hpc, -⟩
  · by_cases hnull : s.xcCpuset = ∅
    · exact ⟨_, _, hlast s hpc hnull, rfl⟩
    have hset : s.xcCpuset = {lcx} := (subset_singleton_iff.mp ho.left).resolve_left hnull
    have hown : Xcall.turn lcx k s =
        { s with ran := s.ran ++ [(lcx, k)], xcCpuset := s.xcCpuset.erase lcx,
                 cix := s.cix + 1 } := by
      unfold Xcall.turn
      rw [if_neg hnull, if_pos (hset ▸ mem_singleton_self lcx)]
    refine ⟨[.caller, .caller], { Xcall.turn lcx k s with pc := .returned }, ?_, rfl⟩
    have hfirst : Xcall.step lcx k s .caller = some (Xcall.turn lcx k s) := by
      simp [Xcall.step, hpc]
    rw [run, hfirst]
    refine hlast _ (by rw [hown]; exact hpc) ?_
    rw [hown]
    rw [hset, erase_singleton]
  · exact ⟨[], s, rfl, hpc⟩

theorem reachesTargets_of_own [DecidableEq φ] (k : Call φ) (m : Machine)
    (h : targets ⊆ {lcx}) : ReachesTargets lcx k targets (enter m targets) := by
  have hall : ∀ es s, run lcx k (enter m targets) es = some s → OwnOnly lcx k targets s :=
    fun es s hr => run_keeps OwnOnly.step (ownOnly_enter k m h) hr
  refine ⟨fun es s hr c => ?_, fun es s hr i hi => ?_, fun es s hr hret c hc => ?_,
    fun es s hr => (hall es s hr).returns⟩
  · have ho := hall es s hr
    -- the list is one of nothing and the caller's own run
    have hle : s.ran.count (c, k) ≤ (if lcx ∈ targets then [(lcx, k)] else []).count (c, k) := by
      rw [← ho.ran]
      split
      · rw [List.count_append]
        exact Nat.le_add_right _ _
      · exact le_rfl
    refine hle.trans ?_
    by_cases hcl : c = lcx
    · subst hcl
      by_cases hm : c ∈ targets <;> simp [hm]
    · have hne : ((lcx, k) == (c, k)) = false :=
        beq_eq_false_iff_ne.mpr fun he => hcl (Prod.ext_iff.mp he).1.symm
      by_cases hm : lcx ∈ targets <;> simp [hm, List.count_cons, hne]
  · rw [(hall es s hr).used] at hi
    exact absurd hi List.not_mem_nil
  · have ho := hall es s hr
    have hnull : s.xcCpuset = ∅ := by
      rcases ho.pc with hp | ⟨-, hn⟩
      · rw [hret] at hp
        nomatch hp
      · exact hn
    have hcl : c = lcx := mem_singleton.mp (h hc)
    have hran := ho.ran
    rw [if_neg (hnull ▸ notMem_empty lcx), if_pos (hcl ▸ hc)] at hran
    rw [hran, hcl]
    exact List.count_singleton_self

/-! ## A call with another target

    The caller is left alone in this run.  Then the call uses a subscript that is no target,
    or waits for a semaphore that nobody will post, or gets back before a target has run the
    function. -/

/-- The ways in which a call fails its targets, seen from a state of it. -/
inductive Fails [DecidableEq φ] (lcx : Cpu) (k : Call φ) (targets : Cpuset) (s : State φ) : Prop
  | strays {i : ℕ} (hi : i ∈ s.used) (hn : ∀ c ∈ targets, c.val ≠ i)
  | early {c : Cpu} (hret : s.pc = .returned) (hc : c ∈ targets) (hran : s.ran.count (c, k) = 0)
  | hangs (h : ∀ es t, run lcx k s es = some t → t.pc ≠ .returned)

theorem Fails.not_reaches [DecidableEq φ] {start : State φ} (hr : run lcx k start es = some s)
    (hf : Fails lcx k targets s) : ¬ ReachesTargets lcx k targets start := by
  intro hall
  cases hf with
  | strays hi hn =>
    obtain ⟨c, hc, hci⟩ := hall.indexed es s hr _ hi
    exact hn c hc hci
  | early hret hc hran =>
    have := hall.served es s hr hret _ hc
    omega
  | hangs h =>
    obtain ⟨fs, t, ht, hret⟩ := hall.returns es s hr
    exact h fs t ht hret

theorem wait_forever {t : State φ} (hpc : s.pc = .wait c) (hsem : s.sigSem c = 0)
    (hup : s.starting c = false) (h : run lcx k s es = some t) : t.pc = .wait c := by
  have hkeep : t.pc = .wait c ∧ t.sigSem c = 0 ∧ t.starting c = false := by
    refine @run_keeps φ lcx k s es (fun t => t.pc = .wait c ∧ t.sigSem c = 0 ∧
      t.starting c = false) ?_ t ⟨hpc, hsem, hup⟩ h
    rintro s e s' ⟨hpc, hsem, hup⟩ hs
    cases Allowed.of_step hs with
    | turn hp => rw [hpc] at hp; nomatch hp
    | woken d hp hpos =>
      rw [hpc] at hp
      rw [← Pc.wait.inj hp, hsem] at hpos
      exact absurd hpos (Nat.lt_irrefl 0)
    | serve d j _ _ => exact ⟨hpc, hsem, hup⟩
    | online d hd =>
      have hne : c ≠ d := fun he => by rw [he, hd] at hup; nomatch hup
      exact ⟨hpc, (update_of_ne hne _ _).trans hsem, (update_of_ne hne _ _).trans hup⟩
    | starter d hd =>
      have hne : c ≠ d := fun he => by rw [← he, hsem] at hd; exact Nat.lt_irrefl 0 hd
      exact ⟨hpc, (update_of_ne hne _ _).trans hsem, hup⟩
  exact hkeep.1

/-- The caller passes `sema_p`, if need be with the post of a CPU that comes up, unless
    it waits for ever. -/
theorem passes_or_waits (hpc : s.pc = .wait c) :
    (∃ es t, run lcx k s es = some t ∧ t.pc = .loop ∧ t.cix = s.cix + 1 ∧ t.ran = s.ran ∧
      t.xcCpuset = s.xcCpuset.erase c) ∨
    ∀ es t, run lcx k s es = some t → t.pc ≠ .returned := by
  by_cases hsem : 0 < s.sigSem c
  · refine .inl ⟨[.caller], woken c s, ?_, rfl, rfl, rfl, rfl⟩
    simp [run, Xcall.step, hpc, hsem]
  by_cases hup : s.starting c = true
  · refine .inl ⟨[.online c, .caller],
      woken c { s with starting := update s.starting c false
                       sigSem := update s.sigSem c (s.sigSem c + 1) },
      ?_, rfl, rfl, rfl, rfl⟩
    simp [run, Xcall.step, hpc, hup]
  · refine .inr fun es t ht => ?_
    rw [wait_forever hpc (by omega) (by simpa using hup) ht]
    exact Pc.noConfusion

theorem fails_from_loop [DecidableEq φ] (hc : c ∈ targets) (n : ℕ) (s : State φ)
    (hn : 64 - s.cix = n) (hpc : s.pc = .loop) (hown : lcx ∉ s.xcCpuset)
    (hran : s.ran.count (c, k) = 0) : ∃ es t, run lcx k s es = some t ∧ Fails lcx k targets t := by
  induction n generalizing s with
  | zero =>
    by_cases hnull : s.xcCpuset = ∅
    · refine ⟨[.caller], { s with pc := .returned }, ?_, .early rfl hc hran⟩
      simp [run, Xcall.step, hpc, Xcall.turn, hnull]
    · -- past the end of the array
      refine ⟨[.caller], { s with used := s.used ++ [s.cix], pc := .wild }, ?_,
        @Fails.strays φ _ lcx k targets _ s.cix (by simp) fun d _ => by omega⟩
      have hlt : ¬ s.cix < 64 := by omega
      simp [run, Xcall.step, hpc, Xcall.turn, hnull, hown, hlt]
  | succ n ih =>
    by_cases hnull : s.xcCpuset = ∅
    · refine ⟨[.caller], { s with pc := .returned }, ?_, .early rfl hc hran⟩
      simp [run, Xcall.step, hpc, Xcall.turn, hnull]
    have hlt : s.cix < 64 := by omega
    -- the request is left with the CPU that `cix` names
    obtain ⟨t, ht, htpc, htcix, htran, htset⟩ : ∃ t, run lcx k s [.caller] = some t ∧
        t.pc = .wait ⟨s.cix, hlt⟩ ∧ t.cix = s.cix ∧ t.ran = s.ran ∧ t.xcCpuset = s.xcCpuset := by
      refine ⟨turn lcx k s, by simp [run, Xcall.step, hpc], ?_, ?_, ?_, ?_⟩ <;>
        simp [turn, hnull, hown, hlt]
    rcases @passes_or_waits φ lcx k t _ htpc with ⟨es, u, hu, hupc, hucix, huran, huset⟩ | hw
    · obtain ⟨fs, v, hv, hfails⟩ := ih u (by omega) hupc
        (by rw [huset, htset]; exact fun h => hown (mem_of_mem_erase h))
        (by rw [huran, htran]; exact hran)
      refine ⟨[.caller] ++ (es ++ fs), v, ?_, hfails⟩
      rw [run_append, ht, bind_some, run_append, hu, bind_some, hv]
    · exact ⟨[.caller], t, ht, .hangs hw⟩

theorem fails_of_other [DecidableEq φ] (k : Call φ) (m : Machine) (hc : c ∈ targets)
    (hne : c ≠ lcx) : ∃ es t, run lcx k (enter m targets) es = some t ∧ Fails lcx k targets t := by
  by_cases hown : lcx ∈ targets
  · -- the caller's own turn comes first
    have hnull : targets ≠ ∅ := ne_empty_of_mem hc
    obtain ⟨t, ht, htpc, htset, htran⟩ : ∃ t, run lcx k (enter m targets) [.caller] = some t ∧
        t.pc = .loop ∧ t.xcCpuset = targets.erase lcx ∧ t.ran = [(lcx, k)] := by
      refine ⟨turn lcx k (enter m targets), rfl, ?_, ?_, ?_⟩ <;> simp [turn, enter, hnull, hown]
    have hcount : t.ran.count (c, k) = 0 := by
      rw [htran, List.count_eq_zero, List.mem_singleton]
      exact fun he => hne (Prod.ext_iff.mp he).1
    obtain ⟨fs, v, hv, hf⟩ := fails_from_loop hc _ t rfl htpc (htset ▸ notMem_erase _ _) hcount
    refine ⟨[.caller] ++ fs, v, ?_, hf⟩
    rw [run_append, ht, bind_some, hv]
  · exact fails_from_loop hc _ _ rfl rfl hown rfl

theorem reachesTargets_iff [DecidableEq φ] (lcx : Cpu) (k : Call φ) (m : Machine)
    (targets : Cpuset) : ReachesTargets lcx k targets (enter m targets) ↔ targets ⊆ {lcx} := by
  refine ⟨fun h c hc => ?_, reachesTargets_of_own k m⟩
  by_contra hne
  obtain ⟨es, t, ht, hf⟩ := fails_of_other k m hc fun he => hne (mem_singleton.mpr he)
  exact hf.not_reaches ht h

/-- **HEADLINE**: a cross call reaches exactly the ready CPUs of its set if and only if
    these are at most the caller itself, for every machine, set and caller. -/
theorem xc_reaches_targets_iff [DecidableEq φ] (m : Machine) (cpuset : Cpuset) (lcx : Cpu)
    (k : Call φ) :
    (ReachesTargets lcx k (m.cpuReadySet ∩ cpuset) (xcSome m cpuset) ↔
      m.cpuReadySet ∩ cpuset ⊆ {lcx}) ∧ (ReachesTargets lcx k (m.cpuReadySet ∩ univ) (xcAll m) ↔
      m.cpuReadySet ∩ univ ⊆ {lcx}) := by
  refine ⟨reachesTargets_iff lcx k m _, ?_⟩
  rw [inter_univ]
  exact reachesTargets_iff lcx k m _

def twoCpus : Machine := ⟨{0, 1}, fun _ => 0, fun _ => false⟩

/-- CPU 0 calls CPU 1: the request goes to CPU 0 itself, which is not in the set, and the
    call never gets back. -/
theorem call_goes_to_cpu_zero :
    (∃ s : State Unit, run 0 ⟨(), 0, 0⟩ (xcSome twoCpus {1}) [.caller, .serve 0] = some s ∧
      s.used = [0] ∧ s.ran = [(0, ⟨(), 0, 0⟩)]) ∧ ∀ es (s : State Unit),
      run 0 ⟨(), 0, 0⟩ (xcSome twoCpus {1}) (.caller :: es) = some s → s.pc ≠ .returned := by
  refine ⟨⟨_, rfl, rfl, rfl⟩, fun es s h => ?_⟩
  obtain ⟨t, ht, hrest⟩ := bind_eq_some_iff.mp h
  have hpc : t.pc = .wait 0 ∧ t.sigSem 0 = 0 ∧ t.starting 0 = false := by
    obtain rfl := some.inj ht
    exact ⟨rfl, rfl, rfl⟩
  rw [wait_forever hpc.1 hpc.2.1 hpc.2.2 hrest]
  exact Pc.noConfusion

end Sirius.Xcall
