import Mathlib.Tactic.Linarith

/-! # Computations that may stop, and the loops that run them

    `Ends Q E x` is the postcondition of an `Except` computation: `Q` of its value, `E` of the
    reason it stops.  `whileLoop` is `while (cond) body` with a bound on its rounds, and
    `whileLoop_ends` the rule for a loop whose rounds move a measure up to a bound. -/

namespace Sirius.Lib

universe u v

variable {ε : Type v} {α β : Type u} {σ : Type u}

/-- `Q` holds of the value a computation returns, `E` of what stops it. -/
def Ends (Q : α → Prop) (E : ε → Prop) : Except ε α → Prop
  | .ok a => Q a
  | .error e => E e

variable {E : ε → Prop} {Q P : α → Prop} {x : Except ε α}

@[simp] theorem ends_ok {a : α} :
    Ends Q E (.ok a) ↔ Q a := .rfl

theorem Ends.mono (h : Ends P E x) (hPQ : ∀ a, P a → Q a) : Ends Q E x := by
  cases x with
  | ok a => exact hPQ a h
  | error e => exact h

theorem Ends.imp_error {E' : ε → Prop} (h : Ends Q E x) (hE : ∀ e, E e → E' e) : Ends Q E' x := by
  cases x with
  | ok a => exact h
  | error e => exact hE e h

theorem Ends.bind {Q : β → Prop} {f : α → Except ε β}
    (h : Ends P E x) (hf : ∀ a, P a → Ends Q E (f a)) : Ends Q E (x >>= f) := by
  cases x with
  | ok a => exact hf a h
  | error e => exact h

inductive Loop (ε : Type v) (σ : Type u)
  /-- Its condition is false. -/
  | done (s : σ)
  /-- Its body stopped. -/
  | stopped (e : ε)
  /-- It would go on. -/
  | more (s : σ)
  deriving DecidableEq

/-- `while (cond) s = body(s)`, for at most `n` rounds. -/
def whileLoop (cond : σ → Prop) [DecidablePred cond] (body : σ → Except ε σ) :
    ℕ → σ → Loop ε σ
  | 0, s => if cond s then .more s else .done s
  | n + 1, s =>
    if cond s then
      match body s with
      | .ok s' => whileLoop cond body n s'
      | .error e => .stopped e
    else .done s

section

variable {cond : σ → Prop} [DecidablePred cond] {body : σ → Except ε σ}

/-- **MEASURE RULE**: every round keeps `Inv` and moves `rank` up, and the loop does not
    go on at `bound`: so it is over after `bound - rank s` rounds. -/
theorem whileLoop_ends {Inv : σ → Prop} (rank : σ → ℕ) (bound : ℕ)
    (hcond : ∀ s, cond s → rank s < bound)
    (hbody : ∀ s, Inv s → cond s → Ends (fun s' => Inv s' ∧ rank s < rank s') E (body s)) (n : ℕ)
    (s : σ) (hs : Inv s) (hle : bound ≤ rank s + n) : (∃ s', whileLoop cond body n s = .done
    s' ∧ Inv s' ∧ ¬ cond s') ∨ (∃ e, whileLoop cond body n s = .stopped e ∧ E e) := by
  induction n generalizing s with
  | zero =>
    have hnot : ¬ cond s := fun hc => absurd (hcond s hc) (by omega)
    exact .inl ⟨s, if_neg hnot, hs, hnot⟩
  | succ n ih =>
    rw [whileLoop]
    by_cases hc : cond s
    · rw [if_pos hc]
      have hb := hbody s hs hc
      cases hr : body s with
      | ok s' =>
        rw [hr] at hb
        obtain ⟨hs', hlt⟩ := hb
        exact ih s' hs' (by omega)
      | error e =>
        rw [hr] at hb
        exact .inr ⟨e, rfl, hb⟩
    · rw [if_neg hc]
      exact .inl ⟨s, rfl, hs, hc⟩

theorem whileLoop_congr {cond' : σ → Prop} [DecidablePred cond'] {other : σ → Except ε σ}
    (hcond : ∀ s, cond s ↔ cond' s) (h : ∀ s, cond s → body s = other s) (n : ℕ) (s : σ) :
    whileLoop cond body n s = whileLoop cond' other n s := by
  induction n generalizing s with
  | zero =>
    rw [whileLoop, whileLoop]
    by_cases hc : cond s
    · rw [if_pos hc, if_pos ((hcond s).mp hc)]
    · rw [if_neg hc, if_neg (fun hc' => hc ((hcond s).mpr hc'))]
  | succ n ih =>
    rw [whileLoop, whileLoop]
    by_cases hc : cond s
    · rw [if_pos hc, if_pos ((hcond s).mp hc), h s hc]
      cases other s with
      | ok s' => exact ih s'
      | error e => rfl
    · rw [if_neg hc, if_neg (fun hc' => hc ((hcond s).mpr hc'))]

end

inductive Visits (cond : σ → Prop) (body : σ → Except ε σ) : σ → σ → Prop
  | here (s : σ) : Visits cond body s s
  | next {s s' t : σ} (hc : cond s) (hb : body s = .ok s') (ht : Visits cond body s' t) :
      Visits cond body s t

theorem Visits.inv {cond : σ → Prop} {body : σ → Except ε σ} {s t : σ} (hv : Visits cond body s t)
    (Inv : σ → Prop) (hbody : ∀ s s', Inv s → cond s → body s = .ok s' → Inv s')
    (hs : Inv s) : Inv t := by
  induction hv with
  | here s => exact hs
  | next hc hb _ ih => exact ih (hbody _ _ hs hc hb)

section

variable {cond : σ → Prop} [DecidablePred cond] {body : σ → Except ε σ}

/-- A loop that stopped did so in a round it came to. -/
theorem whileLoop_stopped {n : ℕ} {s : σ} {e : ε} (h : whileLoop cond body n s = .stopped e) :
    ∃ t, Visits cond body s t ∧ cond t ∧ body t = .error e := by
  induction n generalizing s with
  | zero =>
    rw [whileLoop] at h
    split_ifs at h
  | succ n ih =>
    rw [whileLoop] at h
    by_cases hc : cond s
    · rw [if_pos hc] at h
      cases hb : body s with
      | ok s' =>
        rw [hb] at h
        obtain ⟨t, ht, hct, he⟩ := ih h
        exact ⟨t, .next hc hb ht, hct, he⟩
      | error e' =>
        rw [hb] at h
        cases h
        exact ⟨s, .here s, hc, hb⟩
    · rw [if_neg hc] at h
      cases h

/-- A loop that is over went through every round it came to. -/
theorem whileLoop_done {n : ℕ} {s t s' : σ} (hv : Visits cond body s t)
    (h : whileLoop cond body n s = .done s') (hc : cond t) : ∃ t', body t = .ok t' := by
  induction hv generalizing n with
  | here s =>
    cases n with
    | zero => rw [whileLoop, if_pos hc] at h; cases h
    | succ n =>
      rw [whileLoop, if_pos hc] at h
      cases hb : body s with
      | ok t' => exact ⟨t', rfl⟩
      | error e => rw [hb] at h; cases h
  | next hcs hb _ ih =>
    cases n with
    | zero => rw [whileLoop, if_pos hcs] at h; cases h
    | succ n =>
      rw [whileLoop, if_pos hcs, hb] at h
      exact ih h hc

end

end Sirius.Lib
