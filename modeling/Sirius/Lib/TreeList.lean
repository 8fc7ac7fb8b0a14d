import Mathlib.Data.List.Basic
import Mathlib.Order.Lattice

/-! # Search trees as lists — a balanced tree by its nodes in order

    What a program does with a balanced search tree depends on the order of its nodes only, so
    here it is the list of them by increasing key.  A place between two nodes is the number of
    nodes before it; a node is named by a test that it alone passes, as a pointer would name
    it. -/

namespace Sirius.Lib

open List

variable {α κ : Type} [LinearOrder κ] {key : α → κ} {A C l : List α} {a n : α} {k : κ}
  {p : α → Bool}

def place (key : α → κ) (l : List α) (k : κ) : ℕ := (l.takeWhile fun a => key a < k).length

def insertAt (l : List α) (i : ℕ) (a : α) : List α := l.take i ++ a :: l.drop i

/-- The nodes after the one named by `p`. -/
def after (p : α → Bool) : List α → List α
  | [] => []
  | a :: l => if p a then l else after p l

/-- A new node right behind the one named by `p`. -/
def insertAfter (p : α → Bool) (new : α) : List α → List α
  | [] => []
  | a :: l => if p a then a :: new :: l else a :: insertAfter p new l

/-- A new content for the node named by `p`. -/
def store (p : α → Bool) (new : α) (l : List α) : List α := l.map fun a => if p a then new else a

theorem exists_split (k : κ) (hs : l.Pairwise fun a b => key a < key b) :
    ∃ A C, l = A ++ C ∧ (∀ a ∈ A, key a < k) ∧ ∀ c ∈ C, k ≤ key c := by
  induction l with
  | nil => exact ⟨[], [], rfl, by simp, by simp⟩
  | cons a l ih =>
    obtain ⟨hhd, htl⟩ := pairwise_cons.mp hs
    by_cases ha : key a < k
    · obtain ⟨A, C, rfl, hA, hC⟩ := ih htl
      exact ⟨a :: A, C, rfl, forall_mem_cons.mpr ⟨ha, hA⟩, hC⟩
    · refine ⟨[], a :: l, rfl, by simp, forall_mem_cons.mpr ⟨le_of_not_gt ha, ?_⟩⟩
      intro c hc
      exact (le_of_not_gt ha).trans (hhd c hc).le

theorem place_append (hA : ∀ a ∈ A, key a < k) (hC : ∀ c ∈ C, k ≤ key c) :
    place key (A ++ C) k = A.length := by
  rw [place]
  induction A with
  | nil =>
    cases C with
    | nil => rfl
    | cons c C =>
      have hc := not_lt.mpr (hC c mem_cons_self)
      simp [hc]
  | cons a A ih =>
    obtain ⟨ha, hA⟩ := forall_mem_cons.mp hA
    simp [ha, ih hA]

theorem insertAt_append (A C : List α) (a : α) : insertAt (A ++ C) A.length a = A ++ a :: C := by
  simp [insertAt]

theorem getElem?_length_append (A C : List α) : (A ++ C)[A.length]? = C.head? := by
  cases C with
  | nil | cons c C => simp

def before (l : List α) (i : ℕ) : Option α :=
  if i = 0 then none else l[i - 1]?

theorem before_append (A C : List α) : before (A ++ C) A.length = A.getLast? := by
  rcases eq_nil_or_concat A with rfl | ⟨A, a, rfl⟩
  · rfl
  · simp [before]

theorem find?_key_append (hA : ∀ a ∈ A, key a < k) :
    ((A ++ C).find? fun a => key a == k) = C.find? fun a => key a == k := by
  rw [find?_append]
  have hnone : (A.find? fun a => key a == k) = none := by
    refine find?_eq_none.mpr ?_
    intro a ha
    simpa using (hA a ha).ne
  rw [hnone, Option.none_or]

section

variable (hA : ∀ a ∈ A, p a = false)

include hA

theorem after_append (hn : p n = true) : after p (A ++ n :: C) = C := by
  induction A with
  | nil => simp [after, hn]
  | cons a A ih =>
    obtain ⟨ha, hA⟩ := forall_mem_cons.mp hA
    simp [after, ha, ih hA]

theorem insertAfter_append (hn : p n = true) :
    insertAfter p a (A ++ n :: C) = A ++ n :: a :: C := by
  induction A with
  | nil => simp [insertAfter, hn]
  | cons b A ih =>
    obtain ⟨hb, hA⟩ := forall_mem_cons.mp hA
    simp [insertAfter, hb, ih hA]

omit hA in
theorem store_of_not_mem (hl : ∀ b ∈ l, p b = false) : store p a l = l := by
  refine (map_congr_left ?_).trans (map_id l)
  intro b hb
  simp [hl b hb]

theorem store_append (hn : p n = true) (hC : ∀ c ∈ C, p c = false) :
    store p a (A ++ n :: C) = A ++ a :: C := by
  have hA' : store p a A = A := store_of_not_mem hA
  have hC' : store p a C = C := store_of_not_mem hC
  rw [store] at hA' hC' ⊢
  rw [map_append, map_cons, hA', hC', if_pos hn]

theorem filter_not_append (hn : p n = true) (hC : ∀ c ∈ C, p c = false) :
    ((A ++ n :: C).filter fun a => !p a) = A ++ C := by
  have hid : ∀ l : List α, (∀ b ∈ l, p b = false) → (l.filter fun a => !p a) = l := by
    intro l hl
    refine filter_eq_self.mpr ?_
    intro b hb
    rw [hl b hb]
    rfl
  rw [filter_append, filter_cons_of_neg (by simp [hn]), hid A hA, hid C hC]

end

end Sirius.Lib
