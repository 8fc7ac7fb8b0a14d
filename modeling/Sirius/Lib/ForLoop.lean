import Mathlib.Tactic.Linarith

/-! # Counting loops and their invariant rule

    `forRange lo hi body` is `for (i = lo; i < hi; i++) body`, as a state transformer;
    `forRange_inv` is the induction behind every such loop: an invariant indexed by the
    counter. -/

namespace Sirius.Lib

variable {σ : Type*}

/-- `for (i = lo; i < hi; i++) s = body(i, s)`. -/
def forRange (lo hi : Nat) (body : Nat → σ → σ) (s : σ) : σ :=
  (List.range' lo (hi - lo)).foldl (fun s i => body i s) s

theorem forRange_of_le {lo hi : Nat} (h : hi ≤ lo) (body : Nat → σ → σ) (s : σ) :
    forRange lo hi body s = s := by
  unfold forRange
  rw [Nat.sub_eq_zero_of_le h]
  rfl

theorem forRange_succ {lo hi : Nat} (h : lo ≤ hi) (body : Nat → σ → σ) (s : σ) :
    forRange lo (hi + 1) body s = body hi (forRange lo hi body s) := by
  unfold forRange
  rw [Nat.succ_sub h, List.range'_1_concat, List.foldl_append, Nat.add_sub_of_le h]
  rfl

/-- **INVARIANT RULE**: true at `lo`, kept by each iteration, hence true at `hi`. -/
theorem forRange_inv {lo hi : Nat} (hle : lo ≤ hi) {b : Nat → σ → σ} (Inv : Nat → σ → Prop) {s : σ}
    (h0 : Inv lo s) (hstep : ∀ i s, lo ≤ i → i < hi → Inv i s → Inv (i + 1) (b i s)) :
    Inv hi (forRange lo hi b s) := by
  induction hi, hle using Nat.le_induction with
  | base => rw [forRange_of_le le_rfl]; exact h0
  | succ hi hle ih =>
    rw [forRange_succ hle]
    refine hstep hi _ hle (Nat.lt_succ_self hi) (ih ?_)
    intro i s hlo hhi
    exact hstep i s hlo (Nat.lt_succ_of_lt hhi)

/-- `for (i = lo, k = n; k > 0; i++, k--) s = body(i, s)` with a body that may fail. -/
def forSome (body : Nat → σ → Option σ) : Nat → Nat → σ → Option σ
  | _, 0, s => some s
  | lo, n + 1, s => (body lo s).bind (forSome body (lo + 1) n)

/-- **INVARIANT RULE** of the loop that may fail: no iteration fails from the invariant. -/
theorem forSome_inv {body : Nat → σ → Option σ} (Inv : Nat → σ → Prop) {n : Nat} :
    ∀ {lo : Nat} {s : σ}, Inv lo s →
      (∀ i s, lo ≤ i → i < lo + n → Inv i s → ∃ s', body i s = some s' ∧ Inv (i + 1) s') →
      ∃ s', forSome body lo n s = some s' ∧ Inv (lo + n) s' := by
  induction n with
  | zero =>
    intro lo s h0 _
    exact ⟨s, rfl, h0⟩
  | succ n ih =>
    intro lo s h0 hstep
    obtain ⟨s1, hb, h1⟩ := hstep lo s le_rfl (by omega) h0
    obtain ⟨s', hrun, h'⟩ := ih h1 fun i t hlo hhi => hstep i t (by omega) (by omega)
    refine ⟨s', ?_, by rwa [show lo + (n + 1) = lo + 1 + n by omega]⟩
    rw [forSome, hb]
    exact hrun

end Sirius.Lib
