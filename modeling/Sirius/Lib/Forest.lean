import Mathlib.Data.Fintype.Card

/-! # Trees by parent pointers

    `parent d` is the node above `d`.  `Path parent d l` says that `l` is the way from `d` up to
    a root; in a `Rooted` forest there is one from every node.  A node may be hung
    elsewhere as long as the new place is not below it. -/

namespace Sirius.Lib

open List Function

variable {D : Type*} {parent : D → Option D} {a d p : D} {l l' : List D}

inductive Path (parent : D → Option D) : D → List D → Prop
  | root {d : D} (h : parent d = none) : Path parent d [d]
  | step {d p : D} {l : List D} (h : parent d = some p) (hl : Path parent p l) :
      Path parent d (d :: l)

def Rooted (parent : D → Option D) : Prop := ∀ d, ∃ l, Path parent d l

namespace Path

section

variable (h : Path parent d l)

include h

theorem unique (h' : Path parent d l') : l = l' := by
  induction h generalizing l' with
  | root hd =>
    cases h' with
    | root _ => rfl
    | step hp _ => cases hd.symm.trans hp
  | step hp _ ih =>
    cases h' with
    | root hd => cases hd.symm.trans hp
    | step hp' hl' =>
      cases hp.symm.trans hp'
      rw [ih hl']

theorem of_mem (ha : a ∈ l) : ∃ l', Path parent a l' ∧ l'.length ≤ l.length ∧ l' ⊆ l := by
  induction h with
  | root hd =>
    cases mem_singleton.mp ha
    exact ⟨_, .root hd, Nat.le_refl _, .refl _⟩
  | step hp hl ih =>
    rcases mem_cons.mp ha with rfl | ha
    · exact ⟨_, .step hp hl, Nat.le_refl _, .refl _⟩
    · obtain ⟨l', h1, h2, h3⟩ := ih ha
      exact ⟨l', h1, Nat.le_succ_of_le h2, fun _ hx => mem_cons_of_mem _ (h3 hx)⟩

omit h in
theorem not_mem_parent (h : parent d = some p) (hl : Path parent p l) : d ∉ l := by
  intro hd
  obtain ⟨l', h1, h2, -⟩ := hl.of_mem hd
  have hlen := congrArg length (h1.unique (.step h hl))
  rw [length_cons] at hlen
  omega

theorem nodup : l.Nodup := by
  induction h with
  | root _ => exact nodup_singleton _
  | step hp hl ih => exact nodup_cons.mpr ⟨not_mem_parent hp hl, ih⟩

theorem length_le [Fintype D] : l.length ≤ Fintype.card D := h.nodup.length_le_card

theorem update [DecidableEq D] {q : Option D} (ha : a ∉ l) : Path (update parent a q) d l := by
  induction h with
  | @root d hd =>
    have hne : d ≠ a := fun he => ha (he ▸ mem_singleton.mpr rfl)
    exact .root (by rwa [update_of_ne hne])
  | @step d p l hp hl ih =>
    have hne : d ≠ a := fun he => ha (he ▸ mem_cons_self ..)
    exact .step (by rwa [update_of_ne hne]) (ih fun hm => ha (mem_cons_of_mem _ hm))

end

end Path

/-- **HANGING A NODE ELSEWHERE**: the new parent must not be below it. -/
theorem Rooted.update [DecidableEq D] (h : Rooted parent) (hl : Path parent p l) (hd : d ∉ l) :
    Rooted (Function.update parent d (some p)) := by
  intro x
  obtain ⟨m, hm⟩ := h x
  have hnew : Path (Function.update parent d (some p)) d (d :: l) :=
    .step (update_self ..) (hl.update hd)
  induction hm with
  | @root x hx =>
    by_cases hxd : x = d
    · rw [hxd]
      exact ⟨_, hnew⟩
    · exact ⟨_, .root (by rwa [update_of_ne hxd])⟩
  | @step x q m hx _ ih =>
    by_cases hxd : x = d
    · rw [hxd]
      exact ⟨_, hnew⟩
    · obtain ⟨m', hm'⟩ := ih
      exact ⟨_, .step (by rwa [update_of_ne hxd]) hm'⟩

end Sirius.Lib
