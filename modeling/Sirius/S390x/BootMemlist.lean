import Mathlib.Order.CompletePartialOrder
import Mathlib.Data.List.Intervals
import Mathlib.Tactic.Linarith

/-! # Boot memory lists (`kipl_mem.c`)

    Memory that is still free at boot stands in lists of chunks, sorted by address.
    `memlist_insert` joins a range to the chunk before it, `memlist_remove` cuts a range out
    of ONE chunk, the first that does not end below it, and `memlist_find` chooses a chunk and
    removes the range it returns.  Sums are of 64-bit words, but sizes reach `memlist_find` as
    32-bit words.

    Here is for which lists and arguments the lists are sets of bytes. -/

namespace Sirius.Memlist

open Set Nat
open List hiding Ico

/-- `struct memlist`. -/
structure Chunk where
  address : ℕ
  size : ℕ
  deriving DecidableEq

/-- `c->address + c->size`. -/
def Chunk.stop (c : Chunk) : ℕ := (c.address + c.size) % 2 ^ 64

/-- The range is joined to `prev`, or stands behind it. -/
def coalesce (addr size : ℕ) (prev : Chunk) : List Chunk :=
  if addr = prev.stop then [⟨prev.address, (prev.size + size) % 2 ^ 64⟩]
  else [prev, ⟨addr, size⟩]

/-- The loop of `memlist_insert`, once there is a `prev`. -/
def insertAfter (addr size : ℕ) (prev : Chunk) : List Chunk → List Chunk
  | [] => coalesce addr size prev
  | next :: rest =>
    if next.address < addr then prev :: insertAfter addr size next rest
    else coalesce addr size prev ++ next :: rest

def memlistInsert (addr size : ℕ) : List Chunk → List Chunk
  | [] => [⟨addr, size⟩]
  | next :: rest =>
    if next.address < addr then insertAfter addr size next rest
    else ⟨addr, size⟩ :: next :: rest

/-- What `memlist_remove` leaves of the chunk it has found. -/
def cut (addr size : ℕ) (next : Chunk) : List Chunk :=
  if next.address < addr then
    ⟨next.address, addr - next.address⟩ :: if (addr + size) % 2 ^ 64 < next.stop then
        [⟨(addr + size) % 2 ^ 64, (next.address + next.size + 2 ^ 65 - addr - size) % 2 ^ 64⟩]
      else []
  else if (addr + size) % 2 ^ 64 < next.stop then
    [⟨(addr + size) % 2 ^ 64, (next.size + 2 ^ 64 - size) % 2 ^ 64⟩]
  else []

/-- `memlist_remove`; `init` is `memlist_init`. -/
def memlistRemove (init : Bool) (addr size : ℕ) : List Chunk → ℤ × List Chunk
  | [] => (if init then -1 else 0, [])
  | next :: rest =>
    if next.stop < addr then
      let r := memlistRemove init addr size rest
      (r.1, next :: r.2)
    else if addr < next.address then (if init then -1 else 0, next :: rest)
    else (0, cut addr size next ++ rest)

def Chunk.paddr (align : ℕ) (next : Chunk) : ℕ :=
  let delta := next.address &&& (align - 1)
  if delta = 0 then next.address else (next.address + (align - delta)) % 2 ^ 64

/-- The loop of `memlist_find` stops here; the bound is a sum of 32-bit words. -/
def suits (size align base : ℕ) (next : Chunk) : Bool :=
  base ≤ next.address ∧ (size + align - 1) % 2 ^ 32 ≤ next.size

/-- `memlist_find` as `resalloc` calls it: `size` is a 64-bit word there, and a `uint_t` here. -/
def memlistFind (size align base : ℕ) (l : List Chunk) : ℕ × List Chunk :=
  let size := size % 2 ^ 32
  match l.find? (suits size align base) with
  | none => (2 ^ 64 - 1, l)
  | some next =>
    (next.paddr align, (memlistRemove true (next.paddr align) size l).2)

def bytes (l : List Chunk) : Set ℕ := {x | ∃ c ∈ l, c.address ≤ x ∧ x < c.address + c.size}

@[mk_iff] structure Chunk.Fits (c : Chunk) : Prop where
  pos : 0 < c.size
  lt : c.size < 2 ^ 64
  le : c.address + c.size ≤ 2 ^ 64

@[mk_iff] structure Sorted (l : List Chunk) : Prop where
  fits : ∀ c ∈ l, c.Fits
  order : l.Pairwise fun c d => c.address + c.size ≤ d.address

instance (c : Chunk) : Decidable c.Fits := decidable_of_iff _ c.fits_iff.symm

instance (l : List Chunk) : Decidable (Sorted l) := decidable_of_iff _ (sorted_iff l).symm

section

variable {c d : Chunk} {l A B : List Chunk} {a s x : ℕ}

@[simp] theorem bytes_nil : bytes [] = ∅ := by simp [bytes]

@[simp] theorem bytes_cons : bytes (c :: l) = Ico c.address (c.address + c.size) ∪ bytes l := by
  ext x
  simp [bytes]

@[simp] theorem bytes_append : bytes (A ++ B) = bytes A ∪ bytes B := by
  induction A with
  | nil => simp
  | cons c A ih => simp [ih, union_assoc]

theorem sorted_cons : Sorted (c :: l) ↔
    c.Fits ∧ (∀ d ∈ l, c.address + c.size ≤ d.address) ∧ Sorted l := by
  constructor
  · rintro ⟨hfits, horder⟩
    obtain ⟨hc, hl⟩ := pairwise_cons.mp horder
    exact ⟨hfits c mem_cons_self, hc, fun d hd => hfits d (mem_cons_of_mem _ hd), hl⟩
  · rintro ⟨hc, hcl, hl⟩
    exact ⟨forall_mem_cons.mpr ⟨hc, hl.fits⟩, pairwise_cons.mpr ⟨hcl, hl.order⟩⟩

theorem sorted_append : Sorted (A ++ B) ↔
    Sorted A ∧ Sorted B ∧ ∀ c ∈ A, ∀ d ∈ B, c.address + c.size ≤ d.address := by
  constructor
  · rintro ⟨hfits, horder⟩
    obtain ⟨hA, hB, hAB⟩ := pairwise_append.mp horder
    exact ⟨⟨fun c hc => hfits c (mem_append_left _ hc), hA⟩,
      ⟨fun c hc => hfits c (mem_append_right _ hc), hB⟩, hAB⟩
  · rintro ⟨hA, hB, hAB⟩
    refine ⟨fun c hc => ?_, pairwise_append.mpr ⟨hA.order, hB.order, hAB⟩⟩
    exact (mem_append.mp hc).elim (hA.fits c) (hB.fits c)

theorem le_of_mem_bytes (h : ∀ d ∈ l, a ≤ d.address) (hx : x ∈ bytes l) : a ≤ x := by
  obtain ⟨d, hd, h1, -⟩ := hx
  exact (h d hd).trans h1

theorem lt_of_mem_bytes (h : ∀ d ∈ l, d.address + d.size ≤ a) (hx : x ∈ bytes l) : x < a := by
  obtain ⟨d, hd, -, h2⟩ := hx
  exact h2.trans_le (h d hd)

/-- A chunk at the start of the address space, and the range from there to its end: joined,
    they have no 64-bit size. -/
def Whole (a s : ℕ) (l : List Chunk) : Prop := a + s = 2 ^ 64 ∧ ⟨0, a⟩ ∈ l

theorem coalesce_spec (hc : c.Fits) (hs : (⟨a, s⟩ : Chunk).Fits) (hca : c.address + c.size ≤ a)
    (hw : ¬ Whole a s [c]) :
    Sorted (coalesce a s c) ∧ bytes (coalesce a s c) = bytes [c] ∪ Ico a (a + s) ∧
      ∀ d ∈ coalesce a s c, c.address ≤ d.address ∧ d.address + d.size ≤ a + s := by
  obtain ⟨h1, h2, h3⟩ := hc
  obtain ⟨h4, h5, h6⟩ := hs
  have hstop : c.stop = c.address + c.size := mod_eq_of_lt (by dsimp only at h4 h6; omega)
  rw [coalesce]
  dsimp only at h4 h5 h6
  split_ifs with ha
  · have hsize : (c.size + s) % 2 ^ 64 = c.size + s := by
      refine mod_eq_of_lt (lt_of_not_ge fun hge => hw ⟨by omega, ?_⟩)
      have h0 : c.address = 0 := by omega
      have h0' : c.size = a := by omega
      subst h0'
      rw [← h0]
      exact mem_cons_self
    refine ⟨⟨?_, pairwise_singleton _ _⟩, ?_, ?_⟩
    · simpa using ⟨by dsimp only; omega, by dsimp only; omega, by dsimp only; omega⟩
    · ext x
      simp only [bytes_cons, bytes_nil, union_empty, mem_union, mem_Ico]
      omega
    · simp only [mem_cons, not_mem_nil, or_false, forall_eq]
      omega
  · refine ⟨sorted_cons.mpr ⟨⟨h1, h2, h3⟩, by simpa using hca, ?_⟩, ?_, ?_⟩
    · exact ⟨by simpa using ⟨h4, h5, h6⟩, pairwise_singleton _ _⟩
    · simp
    · simp only [mem_cons, not_mem_nil, or_false, forall_eq_or_imp, forall_eq]
      omega

theorem stop_le_of_disjoint (hs : (⟨a, s⟩ : Chunk).Fits) (hca : c.address < a)
    (hd : Disjoint (Ico a (a + s)) (bytes [c])) : c.address + c.size ≤ a := by
  by_contra hlt
  refine disjoint_left.mp hd (show a ∈ Ico a (a + s) from ⟨le_rfl, ?_⟩) ?_
  · exact Nat.lt_add_of_pos_right hs.pos
  · simpa using ⟨hca.le, not_le.mp hlt⟩

theorem le_of_disjoint (hc : c.Fits) (hac : a ≤ c.address)
    (hd : Disjoint (Ico a (a + s)) (Ico c.address (c.address + c.size))) : a + s ≤ c.address := by
  by_contra hlt
  refine disjoint_left.mp hd (show c.address ∈ Ico a (a + s) from ⟨hac, by omega⟩) ?_
  exact ⟨le_rfl, Nat.lt_add_of_pos_right hc.pos⟩

/-- **Step lemma** of the loop: `c` is before the range, and the range is put behind `c` or
    later. -/
theorem insertAfter_spec (hl : Sorted (c :: l)) (hs : (⟨a, s⟩ : Chunk).Fits) (hca : c.address < a)
    (hd : Disjoint (Ico a (a + s)) (bytes (c :: l))) (hw : ¬ Whole a s (c :: l)) :
    Sorted (insertAfter a s c l) ∧ bytes (insertAfter a s c l) = bytes (c :: l) ∪ Ico a (a + s) ∧
      ∀ d ∈ insertAfter a s c l, c.address ≤ d.address := by
  induction l generalizing c with
  | nil =>
    obtain ⟨hc, -, -⟩ := sorted_cons.mp hl
    obtain ⟨h1, h2, h3⟩ := coalesce_spec hc hs (stop_le_of_disjoint hs hca hd) hw
    exact ⟨h1, h2, fun d hd => (h3 d hd).1⟩
  | cons n l ih =>
    obtain ⟨hc, hcl, hl'⟩ := sorted_cons.mp hl
    have hcn := hcl n mem_cons_self
    rw [bytes_cons, disjoint_union_right] at hd
    rw [insertAfter]
    split_ifs with hna
    · obtain ⟨h1, h2, h3⟩ := ih hl' hna hd.2 fun h => hw ⟨h.1, mem_cons_of_mem _ h.2⟩
      refine ⟨sorted_cons.mpr ⟨hc, fun d hd => hcn.trans (h3 d hd), h1⟩, ?_, ?_⟩
      · rw [bytes_cons, h2, bytes_cons (c := c), union_assoc]
      · exact forall_mem_cons.mpr ⟨le_rfl, fun d hd => le_trans (by omega) (h3 d hd)⟩
    have hd' : Disjoint (Ico a (a + s)) (bytes [c]) := by simpa using hd.1
    obtain ⟨h1, h2, h3⟩ := coalesce_spec hc hs (stop_le_of_disjoint hs hca hd') fun h =>
      hw ⟨h.1, mem_cons.mpr (.inl (mem_singleton.mp h.2))⟩
    -- the next chunk starts at or above the range, so above its end
    have han := le_of_disjoint (hl'.fits n mem_cons_self) (not_lt.mp hna)
      (hd.2.mono_right (by simp))
    have hal : ∀ e ∈ n :: l, a + s ≤ e.address := by
      refine forall_mem_cons.mpr ⟨han, fun e he => ?_⟩
      have := (sorted_cons.mp hl').2.1 e he
      omega
    refine ⟨sorted_append.mpr ⟨h1, hl', fun e he f hf => (h3 e he).2.trans (hal f hf)⟩, ?_, ?_⟩
    · rw [bytes_append, h2, bytes_cons (c := c), bytes_cons (c := c), bytes_nil, union_empty]
      exact union_right_comm _ _ _
    intro e he
    rcases mem_append.mp he with he | he
    · exact (h3 e he).1
    · have := hal e he
      omega

theorem memlistInsert_spec (hl : Sorted l) (hs : (⟨a, s⟩ : Chunk).Fits)
    (hd : Disjoint (Ico a (a + s)) (bytes l)) (hw : ¬ Whole a s l) :
    Sorted (memlistInsert a s l) ∧ bytes (memlistInsert a s l) = bytes l ∪ Ico a (a + s) := by
  cases l with
  | nil => exact ⟨⟨by simpa [memlistInsert] using hs, pairwise_singleton _ _⟩,
      by simp [memlistInsert]⟩
  | cons n l =>
    rw [memlistInsert]
    split_ifs with hna
    · obtain ⟨h1, h2, -⟩ := insertAfter_spec hl hs hna hd hw
      exact ⟨h1, h2⟩
    obtain ⟨hn, hnl, -⟩ := sorted_cons.mp hl
    have han := le_of_disjoint hn (not_lt.mp hna) (hd.mono_right (by simp))
    refine ⟨sorted_cons.mpr ⟨hs, forall_mem_cons.mpr ⟨han, fun e he => ?_⟩, hl⟩, ?_⟩
    · exact han.trans ((le_add_right _ _).trans (hnl e he))
    · rw [bytes_cons, union_comm]

theorem memlistInsert_whole (hl : Sorted l)
    (hd : Disjoint (Ico a (a + s)) (bytes l)) (hw : Whole a s l) :
    bytes (memlistInsert a s l) = ∅ := by
  obtain ⟨has, hmem⟩ := hw
  cases l with
  | nil => exact absurd hmem not_mem_nil
  | cons n l =>
    obtain ⟨hn, hnl, hl'⟩ := sorted_cons.mp hl
    -- nothing is before a chunk at 0, and nothing is behind the range
    have h0 : n = ⟨0, a⟩ := by
      rcases mem_cons.mp hmem with h | h
      · exact h.symm
      · have h1 : n.address + n.size ≤ 0 := hnl _ h
        have h2 := hn.pos
        omega
    subst h0
    have hnil : l = [] := by
      refine eq_nil_iff_forall_not_mem.mpr fun e he => ?_
      have h1 : 0 + a ≤ e.address := hnl e he
      have h2 := (hl'.fits e he).pos
      have h3 := (hl'.fits e he).le
      refine disjoint_left.mp hd (show e.address ∈ Ico a (a + s) from ⟨by omega, by omega⟩) ?_
      exact ⟨e, mem_cons_of_mem _ he, le_rfl, by omega⟩
    subst hnil
    have ha : 0 < a := hn.pos
    have hlt : a < 2 ^ 64 := hn.lt
    have hstop : a = (⟨0, a⟩ : Chunk).stop := by rw [Chunk.stop, zero_add, mod_eq_of_lt hlt]
    rw [memlistInsert, if_pos ha, insertAfter, coalesce, if_pos hstop, has]
    simp

/-- The chunk that `memlist_remove` finds. -/
def reached (a : ℕ) (l : List Chunk) : Option Chunk := l.find? fun c => a ≤ c.stop

theorem reached_cons : reached a (c :: l) = if c.stop < a then reached a l else some c := by
  by_cases h : c.stop < a <;> simp [reached, h, not_lt.mp]

theorem memlistRemove_of_not (h : ∀ c, reached a l = some c → a < c.address) :
    memlistRemove true a s l = (-1, l) := by
  induction l with
  | nil => rfl
  | cons n l ih =>
    rw [reached_cons] at h
    rw [memlistRemove]
    by_cases hn : n.stop < a
    · rw [if_pos hn] at h ⊢
      rw [ih h]
    · rw [if_neg hn] at h ⊢
      rw [if_pos (h n rfl), if_pos rfl]

variable (l a s) in
theorem memlistRemove_cases : memlistRemove true a s l = (-1, l) ∨
    ∃ c, reached a l = some c ∧ c.address ≤ a := by
  by_cases h : ∀ c, reached a l = some c → a < c.address
  · exact .inl (memlistRemove_of_not h)
  · push Not at h
    exact .inr h

theorem memlistRemove_of_reached (h : reached a l = some c) (hc : c.address ≤ a) :
    ∃ A B, l = A ++ c :: B ∧ memlistRemove true a s l = (0, A ++ (cut a s c ++ B)) := by
  induction l with
  | nil => exact nomatch h
  | cons n l ih =>
    rw [reached_cons] at h
    rw [memlistRemove]
    by_cases hn : n.stop < a
    · rw [if_pos hn] at h ⊢
      obtain ⟨A, B, rfl, hr⟩ := ih h
      exact ⟨n :: A, B, rfl, by rw [hr]; rfl⟩
    · rw [if_neg hn] at h ⊢
      obtain rfl : n = c := Option.some.inj h
      rw [if_neg (not_lt.mpr hc)]
      exact ⟨[], l, rfl, rfl⟩

theorem reached_stop (hl : Sorted l) (h : reached a l = some c) (hc : c.address ≤ a) :
    a ≤ c.address + c.size ∧ c.stop = c.address + c.size ∧ c.address + c.size < 2 ^ 64 := by
  obtain ⟨-, h2, -⟩ := hl.fits c (mem_of_find?_eq_some h)
  have hstop : a ≤ c.stop := by simpa using find?_some h
  rw [Chunk.stop] at *
  omega

theorem cut_spec (hca : c.address ≤ a) (hac : a + s ≤ c.address + c.size)
    (hlt : c.address + c.size < 2 ^ 64) (hstop : c.stop = c.address + c.size) :
    Sorted (cut a s c) ∧ bytes (cut a s c) = bytes [c] \ Ico a (a + s) ∧
      ∀ d ∈ cut a s c, c.address ≤ d.address ∧ d.address + d.size ≤ c.address + c.size := by
  rw [cut]
  refine ⟨?_, ?_, ?_⟩
  · split_ifs
    · refine sorted_cons.mpr ⟨⟨?_, ?_, ?_⟩, ?_, sorted_cons.mpr ⟨⟨?_, ?_, ?_⟩, nofun, nofun, .nil⟩⟩
      all_goals simp only [forall_mem_singleton]; omega
    · refine sorted_cons.mpr ⟨⟨?_, ?_, ?_⟩, nofun, nofun, .nil⟩ <;> dsimp only <;> omega
    · refine sorted_cons.mpr ⟨⟨?_, ?_, ?_⟩, nofun, nofun, .nil⟩ <;> dsimp only <;> omega
    · exact ⟨nofun, .nil⟩
  · ext x
    split_ifs <;> simp only [bytes_cons, bytes_nil, union_empty, mem_union, mem_sdiff, mem_Ico,
      mem_empty_iff_false, false_iff] <;> omega
  · split_ifs <;> simp only [forall_mem_cons, not_mem_nil, false_implies, implies_true,
      and_true] <;> omega

theorem cut_keeps (hca : c.address ≤ a) (hs : s < 2 ^ 64)
    (hlt : c.address + c.size < 2 ^ 64) (hstop : c.stop = c.address + c.size)
    (hac : a ≤ c.address + c.size) : bytes [c] \ Ico a (a + s) ⊆ bytes (cut a s c) := by
  rintro x ⟨hx, hx'⟩
  simp only [bytes_cons, bytes_nil, union_empty, mem_Ico] at hx hx'
  rw [cut]
  by_cases hwrap : a + s < 2 ^ 64 <;>
    split_ifs <;> simp only [bytes_cons, bytes_nil, mem_union, mem_Ico] <;> omega

theorem memlistRemove_spec (hl : Sorted l) (h : reached a l = some c) (hc : c.address ≤ a)
    (hac : a + s ≤ c.address + c.size) :
    Ico a (a + s) ⊆ bytes l ∧ Sorted (memlistRemove true a s l).2 ∧
      bytes (memlistRemove true a s l).2 = bytes l \ Ico a (a + s) := by
  obtain ⟨-, hstop, hlt⟩ := reached_stop hl h hc
  obtain ⟨A, B, rfl, hr⟩ := memlistRemove_of_reached (s := s) h hc
  obtain ⟨hA, hcB, hAc⟩ := sorted_append.mp hl
  obtain ⟨hcf, hcB', hB⟩ := sorted_cons.mp hcB
  obtain ⟨h1, h2, h3⟩ := cut_spec hc hac hlt hstop
  rw [hr]
  refine ⟨fun x hx => ?_, ?_, ?_⟩
  · rw [bytes_append, bytes_cons]
    exact .inr (.inl ⟨hc.trans hx.1, hx.2.trans_le hac⟩)
  · refine sorted_append.mpr ⟨hA, sorted_append.mpr ⟨h1, hB, fun d hd e he => ?_⟩,
      fun d hd e he => ?_⟩
    · exact (h3 d hd).2.trans (hcB' e he)
    · have hdc := hAc d hd c mem_cons_self
      rcases mem_append.mp he with he | he
      · exact hdc.trans (h3 e he).1
      · exact hAc d hd e (mem_cons_of_mem _ he)
  · have hA' : Disjoint (bytes A) (Ico a (a + s)) := disjoint_left.mpr fun x hx hx' =>
      absurd hx'.1 (not_le.mpr ((lt_of_mem_bytes (fun d hd => hAc d hd c mem_cons_self)
        hx).trans_le hc))
    have hB' : Disjoint (bytes B) (Ico a (a + s)) := disjoint_left.mpr fun x hx hx' =>
      absurd (le_of_mem_bytes hcB' hx) (not_le.mpr (hx'.2.trans_le hac))
    rw [bytes_append, bytes_append, h2, bytes_append, bytes_cons, bytes_cons, bytes_nil,
      union_empty, union_sdiff_distrib, union_sdiff_distrib, hA'.sdiff_eq_left, hB'.sdiff_eq_left]

/-- Whatever the range is, `memlist_remove` keeps what is not in it. -/
theorem memlistRemove_keeps (hl : Sorted l) (hs : s < 2 ^ 64) :
    bytes l \ Ico a (a + s) ⊆ bytes (memlistRemove true a s l).2 := by
  rcases memlistRemove_cases l a s with hr | ⟨c, h, hc⟩
  · rw [hr]
    exact sdiff_subset
  obtain ⟨hac, hstop, hlt⟩ := reached_stop hl h hc
  obtain ⟨A, B, rfl, hr⟩ := memlistRemove_of_reached (s := s) h hc
  have hcut := cut_keeps hc hs hlt hstop hac
  rw [bytes_cons, bytes_nil, union_empty] at hcut
  rw [hr]
  simp only [bytes_append, bytes_cons]
  rintro x ⟨hx | hx | hx, hx'⟩
  · exact .inl hx
  · exact .inr (.inl (hcut ⟨hx, hx'⟩))
  · exact .inr (.inr hx)

theorem memlistRemove_past (hl : Sorted l) (h : reached a l = some c) (hc : c.address ≤ a)
    (hmem : c.address + c.size ∈ bytes l) :
    c.address + c.size ∈ bytes (memlistRemove true a s l).2 := by
  obtain ⟨A, B, rfl, hr⟩ := memlistRemove_of_reached (s := s) h hc
  obtain ⟨-, -, hAc⟩ := sorted_append.mp hl
  rw [hr, bytes_append, bytes_append]
  rw [bytes_append, bytes_cons] at hmem
  rcases hmem with hx | hx | hx
  · have := lt_of_mem_bytes (fun d hd => hAc d hd c mem_cons_self) hx
    omega
  · exact absurd hx.2 (lt_irrefl _)
  · exact .inr (.inr hx)

end

/-! ## What is right, and when -/

inductive Op
  | insert (addr size : ℕ)
  | remove (addr size : ℕ)
  | find (size align base : ℕ)

/-- The list after a call, once `memlist_init` is set. -/
def step (l : List Chunk) : Op → List Chunk
  | .insert addr size => memlistInsert addr size l
  | .remove addr size => (memlistRemove true addr size l).2
  | .find size align base => (memlistFind size align base l).2

/-- What callers promise: the arguments are words, a range that is inserted is a range of addresses
    that are not in the list, and alignments are powers of two (`resalloc` makes 1 of 0). -/
def Op.Legal (l : List Chunk) : Op → Prop
  | .insert addr size => (⟨addr, size⟩ : Chunk).Fits ∧ Disjoint (Ico addr (addr + size)) (bytes l)
  | .remove addr size => addr < 2 ^ 64 ∧ size < 2 ^ 64
  | .find size align base => size < 2 ^ 64 ∧ base < 2 ^ 64 ∧ ∃ k < 31, align = 2 ^ k

def Right (l : List Chunk) : Op → Prop
  | .insert addr size => Sorted (memlistInsert addr size l) ∧
      bytes (memlistInsert addr size l) = bytes l ∪ Ico addr (addr + size)
  | .remove addr size => (memlistRemove true addr size l).1 = 0 → Ico addr (addr + size) ⊆ bytes l ∧
        bytes (memlistRemove true addr size l).2 = bytes l \ Ico addr (addr + size)
  | .find size align base =>
      let paddr := (memlistFind size align base l).1
      paddr ≠ 2 ^ 64 - 1 → align ∣ paddr ∧ base ≤ paddr ∧ Ico paddr (paddr + size) ⊆ bytes l ∧
        Disjoint (Ico paddr (paddr + size)) (bytes (memlistFind size align base l).2)

/-- The first chunk that does not end below `addr` holds the range. -/
def Holds (l : List Chunk) (addr size : ℕ) : Prop :=
  ∃ c, reached addr l = some c ∧ c.address ≤ addr ∧ addr + size ≤ c.address + c.size

/-- The chunk that `memlist_find` chooses is good for the call.  The last address is taken for
    a failure, whatever is there.  For no bytes at all, rounding up must not wrap.  Otherwise
    the chunk must end below 2^64, and if it starts at an aligned address no other may end
    there.  A bound that wraps says nothing about the chunk. -/
def Suitable (l : List Chunk) (size align base : ℕ) (c : Chunk) : Prop :=
  (align = 1 ∧ c.address = 2 ^ 64 - 1) ∨ (size = 0 ∧ (base = 0 ∨ c.address + align ≤ 2 ^ 64)) ∨
  (0 < size ∧ size + align - 1 < 2 ^ 32 ∧ c.address + c.size < 2 ^ 64 ∧
    (align ∣ c.address → ∀ d ∈ l, d.address + d.size ≠ c.address)) ∨
  (size < 2 ^ 32 ∧ 2 ^ 32 ≤ size + align - 1 ∧ base ≤ c.paddr align ∧
    Holds l (c.paddr align) size)

/-- When it does.  A range that is removed must not run past the first chunk that does not end
    below it: it does where another chunk ends at its first byte. -/
def Fine (l : List Chunk) : Op → Prop
  | .insert addr size => ¬ Whole addr size l
  | .remove addr size => ∀ c, reached addr l = some c → c.address ≤ addr → Holds l addr size
  | .find size align base => ∀ c, l.find? (suits (size % 2 ^ 32) align base) = some c →
      Suitable l size align base c

section

variable {c : Chunk} {l : List Chunk} {a s k : ℕ}

theorem Chunk.dvd_paddr (hk : k < 31) (c : Chunk) : 2 ^ k ∣ c.paddr (2 ^ k) := by
  have hpow : 2 ^ k ∣ 2 ^ 64 := pow_dvd_pow 2 (by omega)
  rw [Chunk.paddr, and_two_pow_sub_one_eq_mod]
  split_ifs with h
  · exact dvd_of_mod_eq_zero h
  refine (dvd_mod_iff hpow).mpr ?_
  have heq : c.address + (2 ^ k - c.address % 2 ^ k) = (c.address / 2 ^ k + 1) * 2 ^ k := by
    have := div_add_mod c.address (2 ^ k)
    rw [succ_mul, mul_comm]
    omega
  exact heq ▸ dvd_mul_left _ _

theorem Chunk.paddr_eq_last (hk : k < 31) :
    c.paddr (2 ^ k) = 2 ^ 64 - 1 ↔ 2 ^ k = 1 ∧ c.address = 2 ^ 64 - 1 := by
  have hone : ∀ d : Chunk, d.paddr 1 = d.address := by simp [Chunk.paddr]
  constructor
  · intro hp
    have hdvd := c.dvd_paddr hk
    have hk0 : k = 0 := by
      by_contra hk0
      have h2 := (dvd_pow_self 2 hk0).trans hdvd
      omega
    subst hk0
    rw [pow_zero, hone] at hp
    exact ⟨rfl, hp⟩
  · rintro ⟨h1, ha⟩
    rw [h1, hone, ha]

/-- The start rounded up, where that does not wrap. -/
theorem Chunk.paddr_bounds (hc : c.address + (2 ^ k - 1) < 2 ^ 64) :
    c.address ≤ c.paddr (2 ^ k) ∧ c.paddr (2 ^ k) ≤ c.address + (2 ^ k - 1) ∧
      (c.paddr (2 ^ k) = c.address ↔ 2 ^ k ∣ c.address) := by
  rw [Chunk.paddr, and_two_pow_sub_one_eq_mod, dvd_iff_mod_eq_zero]
  split_ifs with h
  · exact ⟨le_rfl, le_add_right _ _, iff_of_true rfl h⟩
  · rw [mod_eq_of_lt (by omega)]
    exact ⟨by omega, by omega, iff_of_false (by omega) h⟩

/-- At the end of the address space it wraps to 0. -/
theorem Chunk.paddr_wraps (hk : k < 31) (hc : c.address < 2 ^ 64)
    (hw : ¬ c.address + 2 ^ k ≤ 2 ^ 64) : c.paddr (2 ^ k) = 0 := by
  have hpow : 2 ^ k ∣ 2 ^ 64 := pow_dvd_pow 2 (by omega)
  -- the next multiple of the alignment is 2^64 itself
  have hup : 2 ^ k ∣ c.address - c.address % 2 ^ k := dvd_sub_mod _
  have hgap : 2 ^ k ∣ 2 ^ 64 - (c.address - c.address % 2 ^ k) := Nat.dvd_sub hpow hup
  have hle := mod_le c.address (2 ^ k)
  have hge := le_of_dvd (by omega) hgap
  rw [Chunk.paddr, and_two_pow_sub_one_eq_mod]
  have hne : ¬ c.address % 2 ^ k = 0 := by omega
  obtain ⟨q, hq⟩ := hgap
  have hq1 : q = 1 := by
    by_contra hq1
    have h2 : 2 ≤ q := by
      rcases Nat.eq_zero_or_pos q with rfl | hpos
      · omega
      · omega
    have := Nat.mul_le_mul_left (2 ^ k) h2
    omega
  subst hq1
  rw [if_neg hne, show c.address + (2 ^ k - c.address % 2 ^ k) = 2 ^ 64 by omega]
  exact mod_self _

variable (hl : Sorted l)

include hl

theorem Holds.spec (h : Holds l a s) :
    (memlistRemove true a s l).1 = 0 ∧ Ico a (a + s) ⊆ bytes l ∧
      Sorted (memlistRemove true a s l).2 ∧
      bytes (memlistRemove true a s l).2 = bytes l \ Ico a (a + s) := by
  obtain ⟨c, hr, hc, hac⟩ := h
  obtain ⟨A, B, -, hrem⟩ := memlistRemove_of_reached (s := s) hr hc
  exact ⟨by rw [hrem], memlistRemove_spec hl hr hc hac⟩

theorem holds_of_removed (hr : reached a l = some c) (hc : c.address ≤ a)
    (hsub : Ico a (a + s) ⊆ bytes l)
    (hd : Disjoint (Ico a (a + s)) (bytes (memlistRemove true a s l).2)) : Holds l a s := by
  refine ⟨c, hr, hc, ?_⟩
  by_contra hlt
  have hmem : c.address + c.size ∈ Ico a (a + s) :=
    ⟨(reached_stop hl hr hc).1, not_le.mp hlt⟩
  exact disjoint_left.mp hd hmem (memlistRemove_past hl hr hc (hsub hmem))

theorem taken_iff :
    Ico a (a + s) ⊆ bytes l ∧
        Disjoint (Ico a (a + s)) (bytes (memlistRemove true a (s % 2 ^ 32) l).2) ↔
      s = 0 ∨ s < 2 ^ 32 ∧ Holds l a s := by
  constructor
  · rintro ⟨hsub, hd⟩
    rcases Nat.eq_zero_or_pos s with h0 | hpos
    · exact .inl h0
    right
    have hlt : s < 2 ^ 32 := by
      by_contra hge
      -- the first byte behind the shorter range is not removed
      have hmem : a + s % 2 ^ 32 ∈ Ico a (a + s) := ⟨by omega, by omega⟩
      refine disjoint_left.mp hd hmem (memlistRemove_keeps hl (by omega) ⟨hsub hmem, ?_⟩)
      exact fun h => absurd h.2 (lt_irrefl _)
    rw [mod_eq_of_lt hlt] at hd
    rcases memlistRemove_cases l a s with hr | ⟨c, hr, hc⟩
    · rw [hr] at hd
      have hmem : a ∈ Ico a (a + s) := ⟨le_rfl, by omega⟩
      exact absurd (hsub hmem) (disjoint_left.mp hd hmem)
    · exact ⟨hlt, holds_of_removed hl hr hc hsub hd⟩
  · rintro (rfl | ⟨hlt, hholds⟩)
    · simp
    · obtain ⟨-, hsub, -, hbytes⟩ := hholds.spec hl
      rw [mod_eq_of_lt hlt, hbytes]
      exact ⟨hsub, disjoint_sdiff_right⟩

/-- **ROOM**: `size + align - 1` bytes leave room for the range behind the start rounded up,
    and `memlist_remove` takes it from this chunk exactly if it finds this one. -/
theorem holds_iff (hc : c ∈ l) (hs : 0 < s) (hroom : s + 2 ^ k - 1 ≤ c.size) :
    Holds l (c.paddr (2 ^ k)) s ↔ c.address + c.size < 2 ^ 64 ∧
      (2 ^ k ∣ c.address → ∀ d ∈ l, d.address + d.size ≠ c.address) := by
  obtain ⟨h1, h2, h3⟩ := hl.fits c hc
  obtain ⟨hge, hle, heq⟩ := c.paddr_bounds (k := k) (by omega)
  constructor
  · rintro ⟨d, hr, hd, hend⟩
    obtain ⟨hp, A, B, rfl, hA⟩ := find?_eq_some_iff_append.mp hr
    obtain ⟨-, hdB, hAd⟩ := sorted_append.mp hl
    have hdB' := (sorted_cons.mp hdB).2.1
    -- the chunk that was found has the first byte, as `c` has
    have hcd : c = d := by
      rcases mem_append.mp hc with hcA | hcB
      · have := hAd c hcA d mem_cons_self
        omega
      · rcases mem_cons.mp hcB with h | h
        · exact h
        · have := hdB' c h
          omega
    subst hcd
    refine ⟨(reached_stop hl hr hd).2.2, fun hdvd e he hstop => ?_⟩
    have hpe := heq.mpr hdvd
    rcases mem_append.mp he with heA | heB
    · have hno : ¬ c.paddr (2 ^ k) ≤ e.stop := by simpa using hA e heA
      rw [Chunk.stop, hstop, hpe] at hno
      omega
    · have hefit := (hl.fits e he).pos
      rcases mem_cons.mp heB with rfl | heB
      · omega
      · have := hdB' e heB
        omega
  · rintro ⟨hend, hno⟩
    obtain ⟨A, B, rfl⟩ := append_of_mem hc
    obtain ⟨-, -, hAc⟩ := sorted_append.mp hl
    refine ⟨c, find?_eq_some_iff_append.mpr ⟨?_, A, B, rfl, fun d hd => ?_⟩, hge, by omega⟩
    · have hstop : c.stop = c.address + c.size := mod_eq_of_lt hend
      simpa [hstop] using (show c.paddr (2 ^ k) ≤ c.address + c.size by omega)
    · have hdc := hAc d hd c mem_cons_self
      have hne : 2 ^ k ∣ c.address → d.address + d.size ≠ c.address :=
        fun hdvd => hno hdvd d (mem_append_left _ hd)
      rw [← heq] at hne
      have hstop : d.stop = d.address + d.size := mod_eq_of_lt (by omega)
      simpa [hstop] using (show d.address + d.size < c.paddr (2 ^ k) by omega)

/-- The chunk that is chosen is suitable exactly if what is returned is right. -/
theorem suitable_iff (hk : k < 31) {base : ℕ}
    (hf : l.find? (suits (s % 2 ^ 32) (2 ^ k) base) = some c) :
    Suitable l s (2 ^ k) base c ↔ c.paddr (2 ^ k) = 2 ^ 64 - 1 ∨
      base ≤ c.paddr (2 ^ k) ∧ (s = 0 ∨ s < 2 ^ 32 ∧ Holds l (c.paddr (2 ^ k)) s) := by
  have hmem := mem_of_find?_eq_some hf
  obtain ⟨hbase, hsize⟩ : base ≤ c.address ∧ (s % 2 ^ 32 + 2 ^ k - 1) % 2 ^ 32 ≤ c.size := by
    simpa [suits] using find?_some hf
  obtain ⟨h1, h2, h3⟩ := hl.fits c hmem
  have hpos := Nat.two_pow_pos k
  have hk' : 2 ^ k ≤ 2 ^ 30 := pow_le_pow_right₀ (by decide) (by omega)
  rw [Suitable, Chunk.paddr_eq_last hk]
  by_cases hlast : 2 ^ k = 1 ∧ c.address = 2 ^ 64 - 1
  · simp [hlast]
  rw [or_iff_right hlast, or_iff_right hlast]
  rcases Nat.eq_zero_or_pos s with rfl | hs
  · simp only [lt_irrefl, false_and, true_and, false_or, true_or, and_true, zero_add]
    have hno : ¬ 2 ^ 32 ≤ 2 ^ k - 1 := by omega
    simp only [hno, false_and, and_false, or_false]
    by_cases hw : c.address + 2 ^ k ≤ 2 ^ 64
    · have hb := (c.paddr_bounds (k := k) (by omega)).1
      exact iff_of_true (.inr hw) (hbase.trans hb)
    · rw [c.paddr_wraps hk (by omega) hw]
      rw [or_iff_left hw, Nat.le_zero]
  have hs0 : ¬ s = 0 := by omega
  simp only [hs0, hs, false_and, true_and, false_or]
  by_cases hlt : s < 2 ^ 32
  · rw [mod_eq_of_lt hlt] at hsize
    by_cases hwrap : s + 2 ^ k - 1 < 2 ^ 32
    · rw [mod_eq_of_lt hwrap] at hsize
      have hb := (c.paddr_bounds (k := k) (by omega)).1
      simp only [hlt, hwrap, not_le.mpr hwrap, true_and, false_and, and_false, or_false,
        holds_iff hl hmem hs hsize, hbase.trans hb]
    · simp only [hlt, hwrap, not_lt.mp hwrap, true_and, false_and, false_or]
  · have hno : ¬ s + 2 ^ k - 1 < 2 ^ 32 := by omega
    simp only [hlt, hno, false_and, and_false, or_false]

theorem find_right_iff {align base : ℕ} (hk : ∃ k < 31, align = 2 ^ k) :
    Right l (.find s align base) ↔ Fine l (.find s align base) := by
  obtain ⟨k, hk, rfl⟩ := hk
  simp only [Right, Fine, memlistFind]
  cases hf : l.find? (suits (s % 2 ^ 32) (2 ^ k) base) with
  | none => simp
  | some c =>
    simp only [Option.some.injEq, forall_eq', suitable_iff hl hk hf, ← taken_iff hl]
    have hdvd := c.dvd_paddr hk
    tauto

theorem remove_right_iff : Right l (.remove a s) ↔ Fine l (.remove a s) := by
  constructor
  · intro h c hr hc
    obtain ⟨A, B, -, hrem⟩ := memlistRemove_of_reached (s := s) hr hc
    obtain ⟨hsub, hbytes⟩ := h (by rw [hrem])
    refine holds_of_removed hl hr hc hsub ?_
    rw [hbytes]
    exact disjoint_sdiff_right
  intro h h0
  rcases memlistRemove_cases l a s with hr | ⟨c, hr, hc⟩
  · rw [hr] at h0
    exact nomatch h0
  · obtain ⟨-, hsub, -, hbytes⟩ := (h c hr hc).spec hl
    exact ⟨hsub, hbytes⟩

theorem insert_right_iff (hs : (⟨a, s⟩ : Chunk).Fits)
    (hd : Disjoint (Ico a (a + s)) (bytes l)) : Right l (.insert a s) ↔ Fine l (.insert a s) := by
  constructor
  · rintro ⟨-, hbytes⟩ hw
    rw [memlistInsert_whole hl hd hw] at hbytes
    have hmem : a ∈ bytes l ∪ Ico a (a + s) := .inr ⟨le_rfl, Nat.lt_add_of_pos_right hs.pos⟩
    rw [← hbytes] at hmem
    exact hmem
  · exact memlistInsert_spec hl hs hd

end

/-- **MEMORY LISTS ARE SETS OF BYTES** exactly for the calls that are `Fine`, whatever sorted
    list of disjoint chunks they are made on. -/
theorem memlist_right_iff (l : List Chunk) (op : Op) (hl : Sorted l) (hop : op.Legal l) :
    Right l op ↔ Fine l op := by
  cases op with
  | insert addr size => exact insert_right_iff hl hop.1 hop.2
  | remove addr size => exact remove_right_iff hl
  | find size align base => exact find_right_iff hl hop.2.2

/-- A chunk that is too small, and one from which a page is found. -/
theorem memlist_right_iff_page :
    Right [⟨0x1000, 0x1000⟩, ⟨0x3000, 0x4000⟩] (.find 0x1000 0x1000 0) := by
  have hl : Sorted [⟨0x1000, 0x1000⟩, ⟨0x3000, 0x4000⟩] := by decide
  refine (memlist_right_iff _ (.find 0x1000 0x1000 0) hl
    ⟨by decide, by decide, 12, by decide, by decide⟩).mpr ?_
  rintro c ⟨⟩
  exact .inr (.inr (.inl ⟨by decide, by decide, by decide, fun _ => by decide⟩))

/-- **A PAGE HANDED OUT TWICE**: chunks inserted from the top downwards are not joined, and a
    range that starts where another chunk ends is not removed. -/
theorem memlist_found_twice :
    let l := memlistInsert 0x1000 0x1000 (memlistInsert 0x2000 0x1000 [])
    Sorted l ∧ (Op.find 0x1000 1 0x2000).Legal l ∧ ¬ Right l (.find 0x1000 1 0x2000) ∧
      (memlistFind 0x1000 1 0x2000 l).1 = 0x2000 ∧
      (memlistFind 0x1000 1 0x2000 (memlistFind 0x1000 1 0x2000 l).2).1 = 0x2000 := by
  have hl : Sorted [⟨0x1000, 0x1000⟩, ⟨0x2000, 0x1000⟩] := by decide
  have hop : (Op.find 0x1000 1 0x2000).Legal [⟨0x1000, 0x1000⟩, ⟨0x2000, 0x1000⟩] :=
    ⟨by decide, by decide, 0, by decide, rfl⟩
  refine ⟨hl, hop, fun h => ?_, by decide, by decide⟩
  rcases (find_right_iff hl hop.2.2).mp h ⟨0x2000, 0x1000⟩ rfl with h | h | ⟨-, -, -, h⟩ | h
  · exact absurd h.2 (by decide)
  · exact absurd h.1 (by decide)
  · exact absurd rfl (h (by decide) ⟨0x1000, 0x1000⟩ mem_cons_self)
  · exact absurd h.2.1 (by decide)

def handed (l : List Chunk) : Op → Set ℕ
  | .find size align base =>
      let paddr := (memlistFind size align base l).1
      if paddr = 2 ^ 64 - 1 then ∅ else Ico paddr (paddr + size)
  | _ => ∅

def returned : Op → Set ℕ
  | .insert addr size => Ico addr (addr + size)
  | _ => ∅

/-- Calls that are legal and `Fine` when they are made, on memory that ends below the end of
    the address space. -/
def Good (l : List Chunk) : List Op → Prop
  | [] => True
  | op :: ops => op.Legal l ∧ Fine l op ∧ (∀ c ∈ l, c.address + c.size < 2 ^ 64) ∧
      Good (step l op) ops

def out (l : List Chunk) (taken : Set ℕ) : List Op → Set ℕ
  | [] => taken
  | op :: ops => out (step l op) ((taken ∪ handed l op) \ returned op) ops

section

variable {c : Chunk} {l : List Chunk} {a s : ℕ} {op : Op}

theorem remove_shrinks (hl : Sorted l) (h : Fine l (.remove a s)) :
    Sorted (memlistRemove true a s l).2 ∧ bytes (memlistRemove true a s l).2 ⊆ bytes l := by
  rcases memlistRemove_cases l a s with hr | ⟨c, hr, hc⟩
  · rw [hr]
    exact ⟨hl, le_rfl⟩
  · obtain ⟨-, -, hsorted, hbytes⟩ := (h c hr hc).spec hl
    exact ⟨hsorted, hbytes ▸ sdiff_subset⟩

/-- **Step lemma**: what is handed out was free, and is out of the list until it is returned. -/
theorem step_spec (hl : Sorted l) (hop : op.Legal l) (hf : Fine l op)
    (htop : ∀ c ∈ l, c.address + c.size < 2 ^ 64) :
    Sorted (step l op) ∧ handed l op ⊆ bytes l ∧
      bytes (step l op) ⊆ (bytes l ∪ returned op) \ handed l op := by
  cases op with
  | insert addr size =>
    obtain ⟨h1, h2⟩ := memlistInsert_spec hl hop.1 hop.2 hf
    exact ⟨h1, empty_subset _, h2.subset.trans (by simp [returned, handed])⟩
  | remove addr size =>
    obtain ⟨h1, h2⟩ := remove_shrinks hl hf
    exact ⟨h1, empty_subset _, h2.trans (by simp [handed])⟩
  | find size align base =>
    obtain ⟨-, -, k, hk, rfl⟩ := hop
    simp only [step, handed, returned, union_empty]
    cases hfind : l.find? (suits (size % 2 ^ 32) (2 ^ k) base) with
    | none =>
      have heq : memlistFind size (2 ^ k) base l = (2 ^ 64 - 1, l) := by
        simp only [memlistFind, hfind]
      simpa [heq] using hl
    | some c =>
      have heq : memlistFind size (2 ^ k) base l = (c.paddr (2 ^ k),
          (memlistRemove true (c.paddr (2 ^ k)) (size % 2 ^ 32) l).2) := by
        simp only [memlistFind, hfind]
      have hmem := mem_of_find?_eq_some hfind
      have hcpos := (hl.fits c hmem).pos
      have htopc := htop c hmem
      have hp : c.paddr (2 ^ k) ≠ 2 ^ 64 - 1 := by
        rw [Ne, Chunk.paddr_eq_last hk]
        omega
      obtain ⟨-, htaken⟩ := ((suitable_iff hl hk hfind).mp (hf c hfind)).resolve_left hp
      have hrem : Fine l (.remove (c.paddr (2 ^ k)) (size % 2 ^ 32)) := by
        intro d hr hd
        rcases htaken with rfl | ⟨hlt, hholds⟩
        · exact ⟨d, hr, hd, (reached_stop hl hr hd).1⟩
        · rwa [mod_eq_of_lt hlt]
      obtain ⟨h1, h2⟩ := remove_shrinks hl hrem
      obtain ⟨h3, h4⟩ := (taken_iff hl).mpr htaken
      simp only [heq, if_neg hp]
      exact ⟨h1, h3, subset_sdiff.mpr ⟨h2, h4.symm⟩⟩

end

section

variable {l : List Chunk} {taken : Set ℕ} {ops : List Op} (hl : Sorted l)
  (hd : Disjoint taken (bytes l)) (h : Good l ops)

include hl hd h

theorem out_disjoint :
    Sorted (ops.foldl step l) ∧ Disjoint (out l taken ops) (bytes (ops.foldl step l)) := by
  induction ops generalizing l taken with
  | nil => exact ⟨hl, hd⟩
  | cons op ops ih =>
    obtain ⟨hop, hf, htop, hrest⟩ := h
    obtain ⟨h1, -, h3⟩ := step_spec hl hop hf htop
    refine ih h1 (disjoint_left.mpr fun x hx hx' => ?_) hrest
    obtain ⟨hfree | hret, hnot⟩ := h3 hx'
    · exact hx.1.elim (fun ht => disjoint_left.mp hd ht hfree) hnot
    · exact hx.2 hret

/-- **NO BYTE IS HANDED OUT TWICE**: bytes that are out are in no chunk, and the next call hands out
    others. -/
theorem memlist_hands_out_once :
    Sorted (ops.foldl step l) ∧ Disjoint (out l taken ops) (bytes (ops.foldl step l)) ∧
      ∀ op, Good (ops.foldl step l) [op] →
        Disjoint (out l taken ops) (handed (ops.foldl step l) op) := by
  obtain ⟨h1, h2⟩ := out_disjoint hl hd h
  exact ⟨h1, h2, fun op h => h2.mono_right (step_spec h1 h.1 h.2.1 h.2.2.1).2.1⟩

end

/-- Two pages from the second of two chunks: the second is disjoint from the first. -/
theorem memlist_hands_out_once_page :
    let l := [⟨0x1000, 0x1000⟩, ⟨0x3000, 0x4000⟩]
    let page := Op.find 0x1000 0x1000 0
    (memlistFind 0x1000 0x1000 0 l).1 = 0x3000 ∧
      (memlistFind 0x1000 0x1000 0 (step l page)).1 = 0x4000 ∧
      Disjoint (out l ∅ [page]) (handed (step l page) page) ∧
      Disjoint (out l ∅ [page, page]) (bytes [⟨0x1000, 0x1000⟩, ⟨0x5000, 0x2000⟩]) := by
  have hl : Sorted [⟨0x1000, 0x1000⟩, ⟨0x3000, 0x4000⟩] := by decide
  have hlegal : ∀ l, (Op.find 0x1000 0x1000 0).Legal l :=
    fun l => ⟨by decide, by decide, 12, by decide, rfl⟩
  have hgood' : Good [⟨0x1000, 0x1000⟩, ⟨0x4000, 0x3000⟩] [.find 0x1000 0x1000 0] := by
    refine ⟨hlegal _, ?_, by decide, trivial⟩
    rintro c ⟨⟩
    exact .inr (.inr (.inl ⟨by decide, by decide, by decide, fun _ => by decide⟩))
  have hfine : Fine [⟨0x1000, 0x1000⟩, ⟨0x3000, 0x4000⟩] (.find 0x1000 0x1000 0) := by
    rintro c ⟨⟩
    exact .inr (.inr (.inl ⟨by decide, by decide, by decide, fun _ => by decide⟩))
  have hone := memlist_hands_out_once hl disjoint_bot_left
    (show Good _ [.find 0x1000 0x1000 0] from ⟨hlegal _, hfine, by decide, trivial⟩)
  have htwo := memlist_hands_out_once hl disjoint_bot_left
    (show Good _ [_, .find 0x1000 0x1000 0] from ⟨hlegal _, hfine, by decide, hgood'⟩)
  exact ⟨by decide, by decide, hone.2.2 _ hgood', htwo.2.1⟩

end Sirius.Memlist
