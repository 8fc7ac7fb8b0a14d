import Mathlib.Algebra.BigOperators.Group.Finset.Basic
import Mathlib.Algebra.Order.Ring.Int

/-! # Totals per account

    Every item of a finite set costs something and belongs to one account.  `total` is what an
    account has to show.  The lemmas say how the totals move when one item changes its cost,
    when an item comes or goes, and when a group of items is moved to another account. -/

namespace Sirius.Lib

open Finset

variable {ι κ : Type*} [DecidableEq ι] [DecidableEq κ]

def total (objs : Finset ι) (account : ι → κ) (cost : ι → ℤ) (X : κ) : ℤ :=
  ∑ o ∈ objs, if account o = X then cost o else 0

variable {objs : Finset ι} {account account' : ι → κ} {cost cost' : ι → ℤ} {o n : ι} {X a b : κ}

omit [DecidableEq ι] in
theorem total_congr (h : ∀ q ∈ objs, account' q = account q ∧ cost' q = cost q) :
    total objs account' cost' X = total objs account cost X :=
  sum_congr rfl fun q hq => by rw [(h q hq).1, (h q hq).2]

theorem total_insert (hn : n ∉ objs) :
    total (insert n objs) account cost X =
      total objs account cost X + if account n = X then cost n else 0 := by
  rw [total, sum_insert hn, add_comm]
  rfl

theorem total_erase (ho : o ∈ objs) :
    total (objs.erase o) account cost X =
      total objs account cost X - if account o = X then cost o else 0 := by
  have h : o ∉ objs.erase o := notMem_erase o objs
  rw [eq_sub_iff_add_eq, ← total_insert h, insert_erase ho]

theorem total_change (ho : o ∈ objs) (haccount : account' o = account o)
    (h : ∀ q ∈ objs, q ≠ o → account' q = account q ∧ cost' q = cost q) :
    total objs account' cost' X =
      total objs account cost X + if account o = X then cost' o - cost o else 0 := by
  have hrest : total (objs.erase o) account' cost' X = total (objs.erase o) account cost X :=
    total_congr fun q hq => h q (mem_of_mem_erase hq) (ne_of_mem_erase hq)
  rw [total_erase ho, total_erase ho, haccount] at hrest
  split_ifs at hrest ⊢ <;> omega

theorem total_move {group : Finset ι} (hsub : group ⊆ objs) (ha : ∀ o ∈ group, account o = a) :
    total objs (fun o => if o ∈ group then b else account o) cost X =
      total objs account cost X + (if b = X then ∑ o ∈ group, cost o else 0) -
        if a = X then ∑ o ∈ group, cost o else 0 := by
  have hsplit : ∀ acc : ι → κ, total objs acc cost X =
      total group acc cost X + total (objs \ group) acc cost X := by
    intro acc
    rw [total, ← sum_sdiff hsub, add_comm]
    rfl
  have hrest : total (objs \ group) (fun o => if o ∈ group then b else account o) cost X =
      total (objs \ group) account cost X :=
    total_congr fun q hq => ⟨if_neg (mem_sdiff.mp hq).2, rfl⟩
  have hgroup : ∀ {acc : ι → κ} {c : κ}, (∀ o ∈ group, acc o = c) →
      total group acc cost X = if c = X then ∑ o ∈ group, cost o else 0 := by
    intro acc c hc
    rw [total, sum_congr rfl fun o ho => by rw [hc o ho]]
    split
    · rfl
    · exact sum_const_zero
  rw [hsplit, hgroup fun o ho => if_pos ho, hsplit account, hgroup ha]
  omega

end Sirius.Lib
