import Mathlib.Data.List.Basic

/-! # Computations with a trace

    `Traced σ ε e` computations work on a state, may fail, and leave a trace of events.
    `Safe A G P x Q` is the triple for them in which the events are divided between the two
    sides: if every event satisfies `A`, which is assumed, then every event satisfies `G`,
    which is to be shown, and the result `Q`. -/

namespace Sirius.Lib

structure Outcome (σ ε e α : Type) where
  result : Except e α
  state : σ
  trace : List ε

def Traced (σ ε e α : Type) : Type := σ → Outcome σ ε e α

namespace Traced

variable {σ ε e α β : Type}

instance : Monad (Traced σ ε e) where
  pure a := fun s => ⟨.ok a, s, []⟩
  bind x f := fun s =>
    match (x s).result with
    | .error m => ⟨.error m, (x s).state, (x s).trace⟩
    | .ok a =>
      let y := f a (x s).state
      ⟨y.result, y.state, (x s).trace ++ y.trace⟩

def fail (m : e) : Traced σ ε e α := fun s => ⟨.error m, s, []⟩

def failIf (c : Prop) [Decidable c] (m : e) : Traced σ ε e Unit := if c then fail m else pure ()

/-- `if (c) x;`. -/
def onlyIf (c : Prop) [Decidable c] (x : Traced σ ε e Unit) : Traced σ ε e Unit :=
  if c then x else pure ()

def attempt (x : Traced σ ε e α) : Traced σ ε e (Except e α) := fun s =>
  ⟨.ok (x s).result, (x s).state, (x s).trace⟩

def emit (ev : σ → ε) (f : σ → α) : Traced σ ε e α := fun s => ⟨.ok (f s), s, [ev s]⟩

def peek (f : σ → α) : Traced σ ε e α := fun s => ⟨.ok (f s), s, []⟩

def update (ev : σ → ε) (f : σ → σ) : Traced σ ε e Unit := fun s => ⟨.ok (), f s, [ev s]⟩

/-- `for (i = lo; i < lo + n; i++) a = body(i, a)`. -/
def forFrom (body : ℕ → α → Traced σ ε e α) : ℕ → ℕ → α → Traced σ ε e α
  | 0, _, a => pure a
  | n + 1, i, a => do
      let a ← body i a
      forFrom body n (i + 1) a

/-- `for (; cond(i); i += step) body(i)`, for at most `n` rounds. -/
def whileFrom (cond : ℕ → Traced σ ε e Bool) (step : ℕ) (body : ℕ → Traced σ ε e Unit) :
    ℕ → ℕ → Traced σ ε e Unit
  | 0, _ => pure ()
  | n + 1, i => do
      if ← cond i then do
        body i
        whileFrom cond step body n (i + step)
      else pure ()

def Reads (x : Traced σ ε e α) : Prop := ∀ s, (x s).state = s

theorem Reads.pure (a : α) : Reads (pure a : Traced σ ε e α) := fun _ => rfl

theorem Reads.emit (ev : σ → ε) (f : σ → α) : Reads (Traced.emit ev f : Traced σ ε e α) :=
  fun _ => rfl

variable {x : Traced σ ε e α} {f : α → Traced σ ε e β}

theorem Reads.bind (hx : Reads x) (hf : ∀ a, Reads (f a)) : Reads (x >>= f) := by
  intro s
  have hb : ((x >>= f) s).state = match (x s).result with
    | .error _ => (x s).state
    | .ok a => (f a (x s).state).state := by
    show (match (x s).result with
      | .error m => (⟨.error m, (x s).state, (x s).trace⟩ : Outcome σ ε e β)
      | .ok a => ⟨(f a (x s).state).result, (f a (x s).state).state,
          (x s).trace ++ (f a (x s).state).trace⟩).state = _
    cases (x s).result <;> rfl
  rw [hb]
  cases (x s).result with
  | error m => exact hx s
  | ok a => exact (hf a _).trans (hx s)

theorem Reads.failIf (c : Prop) [Decidable c] (m : e) :
    Reads (Traced.failIf c m : Traced σ ε e Unit) := by
  intro s
  rw [Traced.failIf]
  split_ifs <;> rfl

variable {c : Prop}

theorem Reads.onlyIf [Decidable c] {x : Traced σ ε e Unit} (h : Reads x) :
    Reads (Traced.onlyIf c x) := by
  intro s
  rw [Traced.onlyIf]
  split_ifs
  · exact h s
  · rfl

/-- If `P` holds before and every event satisfies `A`, then every event satisfies `G`, and
    `Q` holds of what is returned. -/
def Safe (A G : ε → Prop) (P : σ → Prop) (x : Traced σ ε e α) (Q : α → σ → Prop) : Prop :=
  ∀ s, P s → (∀ ev ∈ (x s).trace, A ev) →
    (∀ ev ∈ (x s).trace, G ev) ∧ ∀ a, (x s).result = .ok a → Q a (x s).state

variable {A G : ε → Prop} {P P' : σ → Prop} {Q Q' : α → σ → Prop} {R : β → σ → Prop}

theorem Safe.pure {a : α} (h : ∀ s, P s → Q a s) : Safe A G P (pure a : Traced σ ε e α) Q := by
  intro s hs _
  refine ⟨nofun, fun b hb => ?_⟩
  cases hb
  exact h s hs

theorem Safe.fail {m : e} : Safe A G P (Traced.fail m : Traced σ ε e α) Q :=
  fun _ _ _ => ⟨nofun, nofun⟩

/-- **SEQUENCING**. -/
theorem Safe.bind (hx : Safe A G P x Q)
    (hf : ∀ a, Safe A G (Q a) (f a) R) : Safe A G P (x >>= f) R := by
  intro s hs hA
  have hb : (x >>= f) s = match (x s).result with
    | .error m => ⟨.error m, (x s).state, (x s).trace⟩
    | .ok a => ⟨(f a (x s).state).result, (f a (x s).state).state,
        (x s).trace ++ (f a (x s).state).trace⟩ := rfl
  cases hr : (x s).result with
  | error m =>
    rw [hr] at hb
    rw [hb] at hA ⊢
    exact ⟨(hx s hs hA).1, nofun⟩
  | ok a =>
    rw [hr] at hb
    rw [hb] at hA ⊢
    obtain ⟨h1, h2⟩ := hx s hs fun ev he => hA ev (List.mem_append_left _ he)
    obtain ⟨h3, h4⟩ := hf a (x s).state (h2 a hr) fun ev he => hA ev (List.mem_append_right _ he)
    refine ⟨fun ev he => ?_, h4⟩
    rcases List.mem_append.mp he with he | he
    · exact h1 ev he
    · exact h3 ev he

theorem Safe.conseq (h : Safe A G P x Q) (hP : ∀ s, P' s → P s)
    (hQ : ∀ a s, Q a s → Q' a s) : Safe A G P' x Q' := by
  intro s hs hA
  obtain ⟨h1, h2⟩ := h s (hP s hs) hA
  exact ⟨h1, fun a ha => hQ a _ (h2 a ha)⟩

theorem Safe.next {p : α → Prop} (hx : Safe A G P x fun a s => p a ∧ P s)
    (hf : ∀ a, p a → Safe A G P (f a) R) : Safe A G P (x >>= f) R :=
  hx.bind fun a s hs => hf a hs.1 s hs.2

theorem Safe.assume {p : Prop} (h : p → Safe A G P x Q) :
    Safe A G (fun s => p ∧ P s) x Q := fun s hs => h hs.1 s hs.2

theorem Safe.failIf [Decidable c] {m : e} :
    Safe A G P (Traced.failIf c m : Traced σ ε e Unit) fun _ s => ¬ c ∧ P s := by
  intro s hs _
  by_cases hc : c
  · simp only [Traced.failIf, if_pos hc]
    exact ⟨nofun, nofun⟩
  · simp only [Traced.failIf, if_neg hc]
    exact ⟨nofun, fun _ _ => ⟨hc, hs⟩⟩

theorem Safe.emit {ev : σ → ε} {f : σ → α} (hG : ∀ s, P s → G (ev s))
    (hQ : ∀ s, P s → Q (f s) s) : Safe A G P (Traced.emit ev f : Traced σ ε e α) Q := by
  intro s hs _
  refine ⟨fun x hx => ?_, fun a ha => ?_⟩
  · rw [List.mem_singleton.mp hx]
    exact hG s hs
  · cases ha
    exact hQ s hs

theorem Safe.peek {f : σ → α} (hQ : ∀ s, P s → Q (f s) s) :
    Safe A G P (Traced.peek f : Traced σ ε e α) Q := by
  intro s hs _
  refine ⟨nofun, fun a ha => ?_⟩
  cases ha
  exact hQ s hs

theorem Safe.attempt (h : Safe A G P x Q) (hx : Reads x) :
    Safe A G P (Traced.attempt x) fun r s => P s ∧ ∀ a, r = .ok a → Q a s := by
  intro s hs hA
  obtain ⟨h1, h2⟩ := h s hs hA
  refine ⟨h1, fun r hr => ?_⟩
  cases hr
  exact ⟨(hx s).symm ▸ hs, h2⟩

theorem Safe.update {ev : σ → ε} {f : σ → σ} {R : Unit → σ → Prop} (hG : ∀ s, P s → G (ev s))
    (hQ : ∀ s, P s → A (ev s) → R () (f s)) :
    Safe A G P (Traced.update ev f : Traced σ ε e Unit) R := by
  intro s hs hA
  refine ⟨fun x hx => ?_, fun a _ => ?_⟩
  · rw [List.mem_singleton.mp hx]
    exact hG s hs
  · exact hQ s hs (hA _ (List.mem_singleton.mpr rfl))

/-- **COUNTING LOOPS**: an invariant indexed by the counter. -/
theorem Safe.forFrom (Inv : ℕ → α → σ → Prop) {body : ℕ → α → Traced σ ε e α} {hi : ℕ}
    (hbody : ∀ i a, i < hi → Safe A G (Inv i a) (body i a) (Inv (i + 1))) :
    ∀ (n i : ℕ) (a : α), i + n = hi → Safe A G (Inv i a) (Traced.forFrom body n i a) (Inv hi) := by
  intro n
  induction n with
  | zero =>
    rintro i a rfl
    exact Safe.pure fun s hs => hs
  | succ n ih =>
    intro i a hi
    exact (hbody i a (by omega)).bind fun b => ih (i + 1) b (by omega)

/-- **LOOPS WITH A CONDITION** that is false from `bound` on: with enough rounds the loop
    ends by its condition. -/
theorem Safe.whileFrom (Inv : ℕ → σ → Prop) {P : σ → Prop} {cond : ℕ → Traced σ ε e Bool} {step : ℕ}
    {body : ℕ → Traced σ ε e Unit} {bound : ℕ} (hcond : ∀ i, Safe A G (Inv i) (cond i) fun b s =>
      Inv i s ∧ (b = true → i < bound) ∧ (b = false → P s))
    (hbody : ∀ i, i < bound → Safe A G (Inv i) (body i) fun _ => Inv (i + step)) (n i : ℕ)
    (hi : bound ≤ i + n * step) : Safe A G (Inv i) (Traced.whileFrom cond step body (n + 1) i)
    fun _ => P := by
  induction n generalizing i with
  | zero =>
    refine (hcond i).bind fun b => ?_
    cases b with
    | true =>
      intro s hs
      exact absurd (hs.2.1 rfl) (by omega)
    | false => exact Safe.pure fun s hs => hs.2.2 rfl
  | succ n ih =>
    refine (hcond i).bind fun b => ?_
    cases b with
    | true =>
      by_cases hlt : i < bound
      · have hrest := ih (i + step) (by rw [Nat.succ_mul] at hi; omega)
        exact Safe.conseq ((hbody i hlt).bind fun _ => hrest) (fun s hs => hs.1) fun _ _ h => h
      · intro s hs
        exact absurd (hs.2.1 rfl) hlt
    | false => exact Safe.pure fun s hs => hs.2.2 rfl

end Traced

end Sirius.Lib
