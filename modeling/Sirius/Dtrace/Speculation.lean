import Mathlib.Data.Fintype.Basic

/-! # Speculations (`dtrace.c`: `dtrace_speculation*`)

    A speculation has one state and a buffer on each CPU.  A step of the system is one
    read or compare-and-swap of a state, with what the CPU then does to its own buffers.
    A CPU runs one probe at a time; the cleaner's cross call runs on a CPU between probes.
    Records carry a ghost identity: who traced them, for which allocation of which
    speculation. -/

namespace Sirius.Dtrace.Spec

open Function

/-- `dtrace_speculation_state_t`. -/
inductive SpecState
  | inactive
  | active
  | activeOne
  | activeMany
  | committing
  | committingMany
  | discarding
  deriving DecidableEq

structure Record (C : Type) where
  id : ℕ
  cpu : C
  spec : ℕ
  gen : ℕ
  deriving DecidableEq

/-- Where `dtrace_speculation_commit` was called from. -/
inductive Caller
  | probe
  | cleanHere
  deriving DecidableEq

inductive Mode
  | idle
  /-- Between two actions of an ECB. -/
  | probe
  /-- `dtrace_speculation`, at speculation `i`; whether a busy one was seen. -/
  | speculation (i : ℕ) (busy : Bool)
  | speculationCas (i : ℕ) (busy : Bool)
  /-- `dtrace_speculation_buffer`. -/
  | buffer (i : ℕ)
  | bufferCas (i : ℕ) (current new : SpecState)
  /-- The buffer was returned, and is now reserved from. -/
  | reserve (i : ℕ)
  /-- `dtrace_speculation_commit`. -/
  | commit (caller : Caller) (i : ℕ)
  | commitCas (caller : Caller) (i : ℕ) (current new : SpecState)
  | commitCopy (caller : Caller) (i : ℕ) (current new : SpecState)
  | commitEnd (caller : Caller) (i : ℕ) (current new : SpecState)
  | commitReset (caller : Caller) (i : ℕ)
  /-- `dtrace_speculation_discard`. -/
  | discard (i : ℕ)
  | discardCas (i : ℕ) (current new : SpecState)
  | discardReset (i : ℕ)
  /-- `dtrace_speculation_clean_here`: before either read of the state of speculation `i`. -/
  | cleanHere (i : ℕ)
  | cleanMany (i : ℕ)
  deriving DecidableEq

/-- The record that an ECB is storing: where it begins, and `dte_size`. -/
structure Flight (C : Type) where
  spec : ℕ
  offs : ℕ
  size : ℕ
  record : Record C

/-- What is a CPU's own: its speculative buffers (`dtb_offset`, and which record each byte
    belongs to), and where it is. -/
structure Cpu (C : Type) where
  mode : Mode
  flight : Option (Flight C)
  offset : ℕ → ℕ
  tags : ℕ → ℕ → Option (Record C)

/-- Where `dtrace_speculation_clean` is: marking, calling the CPUs, setting the states. -/
inductive Cleaner (C : Type)
  | idle
  | marking (i : ℕ) (work : Bool)
  | markingMany (i : ℕ) (work : Bool)
  | calling (done : C → Bool)
  | finishing (i : ℕ)
  | finishCas (i : ℕ) (current : SpecState)

/-- What all CPUs share; `gen`, `next`, `copied` and `discarded` are ghosts. -/
structure Shared (C : Type) where
  state : ℕ → SpecState
  cleaning : ℕ → Bool
  cleaner : Cleaner C
  unavail : ℕ
  busy : ℕ
  gen : ℕ → ℕ
  next : ℕ
  copied : Record C → ℕ
  discarded : Record C → Bool

/-- `dts_nspeculations`, and on which CPUs the principal and the speculative buffers are
    allocated. -/
structure Config (C : Type) where
  nspec : ℕ
  hasDest : C → Bool
  hasSrc : ℕ → C → Bool

variable {C : Type} [DecidableEq C]

namespace Shared

variable (sh : Shared C)

def setState (i : ℕ) (s : SpecState) : Shared C := { sh with state := update sh.state i s }

/-- The bytes below the offset are copied to the principal buffer. -/
def deliver (p : Cpu C) (i : ℕ) : Shared C :=
  { sh with
    copied := fun r =>
      if ∃ k < p.offset i, p.tags i k = some r then sh.copied r + 1 else sh.copied r }

def forget (p : Cpu C) (i : ℕ) : Shared C :=
  { sh with discarded := fun r => sh.discarded r || decide (∃ k < p.offset i, p.tags i k = some r) }

end Shared

namespace Cpu

variable (p : Cpu C)

def goto (m : Mode) : Cpu C := { p with mode := m }

def setOffset (i n : ℕ) : Cpu C := { p with offset := update p.offset i n }

/-- `buf->dtb_offset = offs + ecb->dte_size`, if the ECB traces into a speculation. -/
def land : Cpu C :=
  match p.flight with
  | none => p
  | some f => { p.setOffset f.spec (f.offs + f.size) with flight := none }

def crash : Cpu C := { p with flight := none }

/-- The same before a `commit` action, which leaves the offset alone if nothing is recorded. -/
def landSome : Cpu C :=
  match p.flight with
  | none => p
  | some f => if f.size ≠ 0 then p.land else p.crash

/-- The bytes that a reservation pads, and those it gives to the record. -/
def stow (i offs needed size : ℕ) (r : Record C) : Cpu C :=
  { p with
    flight := some ⟨i, offs, size, r⟩
    tags := update p.tags i fun k =>
      if p.offset i ≤ k ∧ k < offs then none
      else if offs ≤ k ∧ k < offs + needed then some r
      else p.tags i k }

end Cpu

/-- The new state of a speculation that is committed, by its state and the offset of the
    caller's buffer; `none` where there is nothing to swap. -/
def commitNew : SpecState → ℕ → Option SpecState
  | .active, _ => some .committing
  | .activeOne, offset => some (if offset ≠ 0 then .committing else .committingMany)
  | .activeMany, _ => some .committingMany
  | _, _ => none

def discardNew : SpecState → ℕ → Option SpecState
  | .active, _ | .activeMany, _ => some .discarding
  | .activeOne, offset => some (if offset ≠ 0 then .inactive else .discarding)
  | _, _ => none

def sole (current new : SpecState) : Bool :=
  decide (current = .active ∨ current = .activeOne ∧ new = .committing)

/-- Where `dtrace_speculation_commit` returns to. -/
def Caller.back (i : ℕ) : Caller → Mode
  | .probe => .probe
  | .cleanHere => .cleanHere (i + 1)

/-- The state is read in `dtrace_speculation_buffer`. -/
def bufferRead (sh : Shared C) (p : Cpu C) (i : ℕ) : Option (Cpu C) :=
  match sh.state i with
  | .inactive | .committingMany | .discarding => some (p.goto .probe)
  | .committing => if p.offset i = 0 then some (p.goto .probe) else none
  | .activeOne =>
    if p.offset i ≠ 0 then some (p.goto (.reserve i))
    else some (p.goto (.bufferCas i .activeOne .activeMany))
  | .activeMany => some (p.goto (.reserve i))
  | .active => some (p.goto (.bufferCas i .active .activeOne))

/-- The state is read in `dtrace_speculation_commit`. -/
def commitRead (sh : Shared C) (p : Cpu C) (caller : Caller) (i : ℕ) : Option (Cpu C) :=
  match sh.state i with
  | .committingMany => some (p.goto (.commitCopy caller i .committingMany .committingMany))
  | .inactive | .discarding => some (p.goto (caller.back i))
  | .committing => if p.offset i = 0 then some (p.goto (caller.back i)) else none
  | .active => some (p.goto (.commitCas caller i .active .committing))
  | .activeOne =>
    some (p.goto (.commitCas caller i .activeOne
      (if p.offset i ≠ 0 then .committing else .committingMany)))
  | .activeMany => some (p.goto (.commitCas caller i .activeMany .committingMany))

/-- The state is read in `dtrace_speculation_discard`. -/
def discardRead (sh : Shared C) (p : Cpu C) (i : ℕ) : Cpu C :=
  match discardNew (sh.state i) (p.offset i) with
  | none => p.goto .probe
  | some new => p.goto (.discardCas i (sh.state i) new)

/-- `done[c] = true` in the cleaner's cross call. -/
def Cleaner.mark (c : C) : Cleaner C → Cleaner C
  | .calling done => .calling (update done c true)
  | k => k

/-- A CPU goes on with the function that it is in; `none` is a failed ASSERT. -/
def tick (cfg : Config C) (c : C) (sh : Shared C) (p : Cpu C) : Option (Shared C × Cpu C) :=
  match p.mode with
  | .idle | .probe | .reserve _ | .commitCopy _ _ _ _ => some (sh, p)
  | .speculation i busy =>
    if i < cfg.nspec then
      match sh.state i with
      | .inactive => some (sh, p.goto (.speculationCas i busy))
      | .committingMany | .committing | .discarding =>
        some (sh, p.goto (.speculation (i + 1) true))
      | _ => some (sh, p.goto (.speculation (i + 1) busy))
    else if busy then some ({ sh with busy := sh.busy + 1 }, p.goto .probe)
    else some ({ sh with unavail := sh.unavail + 1 }, p.goto .probe)
  | .speculationCas i busy =>
    if sh.state i = .inactive then
      some ({ sh.setState i .active with gen := update sh.gen i (sh.gen i + 1) }, p.goto .probe)
    else some (sh, p.goto (.speculation i busy))
  | .buffer i => (bufferRead sh p i).map fun p => (sh, p)
  | .bufferCas i current new =>
    if sh.state i = current then some (sh.setState i new, p.goto (.reserve i))
    else some (sh, p.goto (.buffer i))
  | .commit caller i => (commitRead sh p caller i).map fun p => (sh, p)
  | .commitCas caller i current new =>
    if sh.state i = current then
      some (sh.setState i new, p.goto (.commitCopy caller i current new))
    else some (sh, p.goto (.commit caller i))
  | .commitEnd caller i current new =>
    if sole current new then
      if sh.state i = .committing then
        some (sh.setState i .inactive, p.goto (.commitReset caller i))
      else none
    else some (sh, p.goto (.commitReset caller i))
  | .commitReset caller i => some (sh, (p.setOffset i 0).goto (caller.back i))
  | .discard i => some (sh, discardRead sh p i)
  | .discardCas i current new =>
    if sh.state i = current then some (sh.setState i new, p.goto (.discardReset i))
    else some (sh, p.goto (.discard i))
  | .discardReset i => some (sh.forget p i, (p.setOffset i 0).goto .probe)
  | .cleanHere i =>
    if i < cfg.nspec then
      if ¬ cfg.hasSrc i c then some (sh, p.goto (.cleanHere (i + 1)))
      else if sh.state i = .discarding then
        some (sh.forget p i, (p.setOffset i 0).goto (.cleanHere (i + 1)))
      else some (sh, p.goto (.cleanMany i))
    else some ({ sh with cleaner := sh.cleaner.mark c }, p.goto .idle)
  | .cleanMany i =>
    if sh.state i ≠ .committingMany ∨ p.offset i = 0 then
      some (sh, p.goto (.cleanHere (i + 1)))
    else some (sh, p.goto (.commit .cleanHere i))

inductive Op (C : Type)
  /-- A probe fires, and an ECB begins. -/
  | fire (c : C)
  /-- A call of `dtrace_speculation`. -/
  | speculation (c : C)
  /-- A `speculate` action. -/
  | speculate (c : C) (which : ℕ)
  /-- The outcome of the reservation from the speculative buffer. -/
  | reserve (c : C) (offs : Option ℕ) (needed size : ℕ)
  /-- A `commit` action. -/
  | commit (c : C) (which : ℕ)
  /-- The buffer is copied, if there is room in the principal buffer. -/
  | copy (c : C) (fits : Bool)
  /-- A `discard` action. -/
  | discard (c : C) (which : ℕ)
  /-- The ECB ends, with or without success. -/
  | finish (c : C) (success : Bool)
  | tick (c : C)
  /-- The cleaner begins, goes on, and calls a CPU. -/
  | clean
  | cleanTick
  | xcall (c : C)

structure World (C : Type) where
  sh : Shared C
  cpu : C → Cpu C

def World.put (w : World C) (c : C) (r : Shared C × Cpu C) : World C := ⟨r.1, update w.cpu c r.2⟩

/-- The action with the given speculation, unless its number is 0 or too large. -/
def withSpec (cfg : Config C) (which : ℕ) (p : Cpu C) (m : ℕ → Mode) : Cpu C :=
  if which = 0 ∨ cfg.nspec < which then p else p.goto (m (which - 1))

def act (cfg : Config C) (c : C) (sh : Shared C) (p : Cpu C) : Op C → Shared C × Cpu C
  | .fire _ => if p.mode = .idle ∧ cfg.hasDest c then (sh, p.goto .probe) else (sh, p)
  | .speculation _ =>
    if p.mode = .probe then (sh, p.goto (.speculation 0 false)) else (sh, p)
  | .speculate _ which =>
    if p.mode = .probe then (sh, withSpec cfg which p .buffer) else (sh, p)
  | .reserve _ offs needed size =>
    match p.mode, offs with
    | .reserve _, none => (sh, p.goto .probe)
    | .reserve i, some offs =>
      ({ sh with next := sh.next + 1 },
        (p.stow i offs needed size ⟨sh.next, c, i, sh.gen i⟩).goto .probe)
    | _, _ => (sh, p)
  | .commit _ which =>
    -- what the ECB has traced so far is committed first
    if p.mode = .probe then (sh, withSpec cfg which p.landSome (.commit .probe)) else (sh, p)
  | .copy _ fits =>
    match p.mode with
    | .commitCopy caller i current new =>
      (if fits then sh.deliver p i else sh, p.goto (.commitEnd caller i current new))
    | _ => (sh, p)
  | .discard _ which =>
    if p.mode = .probe then (sh, withSpec cfg which p .discard) else (sh, p)
  | .finish _ success =>
    if p.mode = .probe then (sh, (if success then p.land else p.crash).goto .idle) else (sh, p)
  | .xcall _ =>
    match sh.cleaner with
    | .calling done =>
      if p.mode = .idle ∧ ¬ done c then
        if cfg.hasDest c then (sh, p.goto (.cleanHere 0))
        else ({ sh with cleaner := .calling (update done c true) }, p)
      else (sh, p)
    | _ => (sh, p)
  | _ => (sh, p)

def cleanTick (cfg : Config C) (sh : Shared C) : Option (Shared C) :=
  match sh.cleaner with
  | .idle => some sh
  | .marking i work =>
    if i < cfg.nspec then
      if sh.cleaning i then none
      else if sh.state i = .discarding then
        some { sh with
          cleaning := update sh.cleaning i true, cleaner := .marking (i + 1) true }
      else some { sh with cleaner := .markingMany i work }
    else if work then some { sh with cleaner := .calling fun _ => false }
    else some { sh with cleaner := .idle }
  | .markingMany i work =>
    if sh.state i = .committingMany then
      some { sh with
        cleaning := update sh.cleaning i true, cleaner := .marking (i + 1) true }
    else some { sh with cleaner := .marking (i + 1) work }
  | .calling _ => some { sh with cleaner := .finishing 0 }
  | .finishing i =>
    if i < cfg.nspec then
      if ¬ sh.cleaning i then some { sh with cleaner := .finishing (i + 1) }
      else if sh.state i = .discarding ∨ sh.state i = .committingMany then
        some { sh with cleaner := .finishCas i (sh.state i) }
      else none
    else some { sh with cleaner := .idle }
  | .finishCas i current =>
    if sh.state i = current then
      some { sh.setState i .inactive with
        cleaning := update sh.cleaning i false, cleaner := .finishing (i + 1) }
    else none

def Op.cpu : Op C → Option C
  | .fire c | .speculation c | .speculate c _ | .reserve c _ _ _ | .commit c _ | .copy c _
  | .discard c _ | .finish c _ | .tick c | .xcall c => some c
  | .clean | .cleanTick => none

/-- One step; `none` is a failed ASSERT. -/
def step (cfg : Config C) (w : World C) (op : Op C) : Option (World C) :=
  match op with
  | .tick c => (tick cfg c w.sh (w.cpu c)).map (w.put c)
  | .clean =>
    match w.sh.cleaner with
    | .idle => some ⟨{ w.sh with cleaner := .marking 0 false }, w.cpu⟩
    | _ => some w
  | .cleanTick => (cleanTick cfg w.sh).map fun sh => ⟨sh, w.cpu⟩
  | .fire c | .speculation c | .speculate c _ | .reserve c _ _ _ | .commit c _ | .copy c _
  | .discard c _ | .finish c _ | .xcall c => some (w.put c (act cfg c w.sh (w.cpu c) op))

def Mode.reserving : Mode → Option ℕ
  | .reserve i => some i
  | _ => none

def Cleaner.called : Cleaner C → Option (C → Bool)
  | .calling done => some done
  | _ => none

/-- What the callers promise: an ECB traces into one speculation at most, a reservation is
    from an allocated buffer and not before its offset, and the cross call is over when
    every CPU has answered. -/
def Allowed (cfg : Config C) (w : World C) : Op C → Prop
  | .speculate c _ => (w.cpu c).flight.isNone = true
  | .reserve c offs needed size =>
    size ≤ needed ∧ ∀ i ∈ (w.cpu c).mode.reserving, ∀ o ∈ offs,
      cfg.hasSrc i c = true ∧ (w.cpu c).offset i ≤ o
  | .cleanTick => ∀ done ∈ w.sh.cleaner.called, ∀ c, done c = true
  | _ => True

instance [Fintype C] (cfg : Config C) (w : World C) : DecidablePred (Allowed cfg w)
  | .speculate c _ => inferInstanceAs (Decidable ((w.cpu c).flight.isNone = true))
  | .reserve c offs needed size =>
    inferInstanceAs (Decidable (size ≤ needed ∧ ∀ i ∈ (w.cpu c).mode.reserving, ∀ o ∈ offs,
      cfg.hasSrc i c = true ∧ (w.cpu c).offset i ≤ o))
  | .cleanTick => (Option.decidableForallMem w.sh.cleaner.called :
      Decidable (∀ done ∈ w.sh.cleaner.called, ∀ c, done c = true))
  | .fire _ | .speculation _ | .commit _ _ | .copy _ _ | .discard _ _ | .finish _ _ | .tick _
  | .clean | .xcall _ => isTrue trivial

def World.init : World C :=
  ⟨⟨fun _ => .inactive, fun _ => false, .idle, 0, 0, fun _ => 0, 0, fun _ => 0, fun _ => false⟩,
    fun _ => ⟨.idle, none, fun _ => 0, fun _ _ => none⟩⟩

/-- A list of operations one after the other; `none` if one is not allowed or fails. -/
def run [Fintype C] (cfg : Config C) : World C → List (Op C) → Option (World C)
  | w, [] => some w
  | w, op :: ops => if Allowed cfg w op then (step cfg w op).bind (run cfg · ops) else none

end Sirius.Dtrace.Spec
