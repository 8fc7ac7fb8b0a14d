import Mathlib.Algebra.Group.Action.Defs
import Mathlib.Algebra.Order.BigOperators.Group.List
import Sirius.S390x.BootDat

/-! # When the boot-time tables map real memory

    More than one table at a level above the page tables makes the loop of that level write
    over what the call below it has built.  With one table at each of these levels the storage
    is laid out in one piece and the hardware's walk can be followed entry by entry. -/

namespace Sirius.Boot

open Function List Nat
open Option (bind_eq_some_iff bind_some bind_none)
open Sirius.Hat (Pte)

/-- What a call for the next level does to the tables built so far. -/
def Extends (f : ℕ → ℕ → ℕ → State → State) : Prop := ∀ p h v s, s.tables <+: (f p h v s).tables

variable {level : ℕ}

theorem tableLoop_extends {below : ℕ → ℕ → ℕ → State → State} (hb : Extends below) (n : ℕ)
    (prev : Option ℕ) (p h v : ℕ) (s : State) :
    s.tables <+: (tableLoop level below n prev p h v s).tables := by
  induction n generalizing prev p h v s with
  | zero => exact prefix_rfl
  | succ n ih =>
    have hmake : s.tables <+: (makeTable level p h v prev s).tables := prefix_append _ _
    exact (hmake.trans (hb _ _ _ _)).trans (ih _ _ _ _ _)

theorem updateHtable_extends (count : ℕ → ℕ) (level : ℕ) : Extends (updateHtable count level) := by
  induction level with
  | zero => exact fun p h v s => tableLoop_extends (fun _ _ _ _ => prefix_rfl) _ _ p h v s
  | succ l ih => exact fun p h v s => tableLoop_extends ih _ _ p h v s

variable {count : ℕ → ℕ}

theorem first_table_mem (hc : 0 < count level) (p h v : ℕ)
    (s : State) : (p, tLen level) ∈ (updateHtable count level p h v s).tables := by
  obtain ⟨n, hn⟩ := exists_eq_succ_of_ne_zero hc.ne'
  have hmem : (p, tLen level) ∈ (makeTable level p h v none s).tables :=
    mem_append_right _ (mem_singleton_self _)
  cases level with
  | zero =>
    have hpre := @tableLoop_extends 0 (fun _ _ _ s => s) (fun _ _ _ _ => prefix_rfl) n
      (some h) (p + tLen 0) (h + 1) (v + segmsize) (makeTable 0 p h v none s)
    rw [updateHtable, hn]
    exact hpre.subset hmem
  | succ l =>
    have hpre := @tableLoop_extends (l + 1) _ (updateHtable_extends count l) n (some h)
      (p + tLen (l + 1)) (h + 1) v
      (updateHtable count l (p + tLen (l + 1)) (h + 1) v (makeTable (l + 1) p h v none s))
    rw [updateHtable, hn]
    exact hpre.subset ((updateHtable_extends count l _ _ _ _).subset hmem)

theorem tLen_pos (level : ℕ) : 0 < tLen level := by
  unfold tLen single
  split <;> decide

variable {l : ℕ}

theorem second_table_overlaps (htwo : 2 ≤ count (l + 1)) (hone : 0 < count l) (p h v : ℕ)
    (s : State) : ¬ (updateHtable count (l + 1) p h v s).tables.Pairwise Apart := by
  obtain ⟨n, hn⟩ := Nat.exists_eq_add_of_le' htwo
  set s2 := updateHtable count l (p + tLen (l + 1)) (h + 1) v (makeTable (l + 1) p h v none s)
  have hmem : (p + tLen (l + 1), tLen l) ∈ s2.tables := first_table_mem hone _ _ _ _
  -- what the second turn of the loop has built at least
  have hpre : s2.tables ++ [(p + tLen (l + 1), tLen (l + 1))] <+:
      (updateHtable count (l + 1) p h v s).tables := by
    have hloop := (updateHtable_extends count l (p + tLen (l + 1) + tLen (l + 1)) (h + 1 + 1) v
      (makeTable (l + 1) (p + tLen (l + 1)) (h + 1) v (some h) s2)).trans
      (@tableLoop_extends (l + 1) _ (updateHtable_extends count l) n (some (h + 1))
        (p + tLen (l + 1) + tLen (l + 1)) (h + 1 + 1) v _)
    rw [updateHtable, hn]
    exact hloop
  intro hall
  have hpair := hall.sublist hpre.sublist
  have hapart := (pairwise_append.mp hpair).2.2 _ hmem _ (mem_singleton_self _)
  have h1 := tLen_pos l
  have h2 := tLen_pos (l + 1)
  rcases hapart with hle | hle <;> simp only at hle <;> omega

theorem overlap_above (hone : 0 < count (l + 1))
    (hbad : ∀ p h v s, ¬ (updateHtable count l p h v s).tables.Pairwise Apart) (p h v : ℕ)
    (s : State) : ¬ (updateHtable count (l + 1) p h v s).tables.Pairwise Apart := by
  obtain ⟨n, hn⟩ := exists_eq_succ_of_ne_zero hone.ne'
  intro hall
  refine hbad (p + tLen (l + 1)) (h + 1) v (makeTable (l + 1) p h v none s)
    (hall.sublist (List.IsPrefix.sublist ?_))
  rw [updateHtable, hn]
  exact tableLoop_extends (updateHtable_extends count l) n _ _ _ _ _

/-! ## The later phases build no table -/

variable {s : State} {ht fuel : ℕ} {s' : State}

theorem linkChildren_tables {c : Option ℕ}
    (h : linkChildren level ht fuel c s = some s') : s'.tables = s.tables := by
  fun_induction linkChildren level ht fuel c s with
  | case1 => exact Option.some.inj h ▸ rfl
  | case2 => nomatch h
  | case3 fuel c s ih =>
    obtain ⟨cht, -, h⟩ := bind_eq_some_iff.mp h
    obtain ⟨hh, -, h⟩ := bind_eq_some_iff.mp h
    exact (ih _ _ h).trans rfl

variable {n : ℕ}

theorem linkLevel_tables {ht : Option ℕ}
    (h : linkLevel level fuel n ht s = some s') : s'.tables = s.tables := by
  fun_induction linkLevel level fuel n ht s with
  | case1 => exact Option.some.inj h ▸ rfl
  | case2 => nomatch h
  | case3 n ht s ih =>
    obtain ⟨hh, -, h⟩ := bind_eq_some_iff.mp h
    obtain ⟨t, ht, h⟩ := bind_eq_some_iff.mp h
    obtain ⟨hh', -, h⟩ := bind_eq_some_iff.mp h
    exact (ih _ _ h).trans (linkChildren_tables ht)

theorem fillPages_tables (ht n a pfra : ℕ) (s : State) :
    (fillPages ht n a pfra s).tables = s.tables := by
  induction n generalizing a pfra s with
  | zero => rfl
  | succ n ih =>
    unfold fillPages
    split
    · rfl
    · exact ih _ _ _

theorem fillLevel_tables {ht : Option ℕ}
    (h : fillLevel n ht s = some s') : s'.tables = s.tables := by
  fun_induction fillLevel n ht s with
  | case1 => exact Option.some.inj h ▸ rfl
  | case2 => nomatch h
  | case3 n ht s ih =>
    obtain ⟨hh, -, h⟩ := bind_eq_some_iff.mp h
    exact (ih _ h).trans (fillPages_tables _ _ _ _ _)

variable {p : ℕ} {sysMem : List MemoryChunk} {dw : ℕ → Pte}

theorem createDATTables_tables (h : createDATTables sysMem p dw = some s) :
    s.tables = (updateHtable (nTables sysMem) 4 p 0 0 (fresh dw)).tables := by
  obtain ⟨s4, h₄, h⟩ := bind_eq_some_iff.mp h
  obtain ⟨s3, h₃, h⟩ := bind_eq_some_iff.mp h
  obtain ⟨s2, h₂, h⟩ := bind_eq_some_iff.mp h
  obtain ⟨s1, h₁, h⟩ := bind_eq_some_iff.mp h
  rw [fillLevel_tables h, linkLevel_tables h₁, linkLevel_tables h₂, linkLevel_tables h₃,
    linkLevel_tables h₄]

/-! ## How many tables there are -/

theorem nTables_top (sysMem : List MemoryChunk) : nTables sysMem 4 = 1 := by simp [nTables, entries]

theorem length_le_nTables (sysMem : List MemoryChunk) (h1 : 1 ≤ level)
    (h3 : level ≤ 3) : sysMem.length ≤ nTables sysMem level := by
  have hsum : ∀ f : MemoryChunk → ℕ, (∀ c, 2048 ≤ f c) →
      sysMem.length * 2048 ≤ (sysMem.map f).sum := by
    intro f hf
    have hle := card_nsmul_le_sum (sysMem.map f) 2048 fun x hx => by
      obtain ⟨c, -, rfl⟩ := mem_map.mp hx
      exact hf c
    rwa [length_map] at hle
  have hent : sysMem.length * 2048 ≤ entries sysMem level := by
    obtain rfl | rfl | rfl : level = 1 ∨ level = 2 ∨ level = 3 := by omega
    all_goals exact hsum _ fun c => le_max_right _ _
  have hne : level ≠ 0 := by omega
  rw [nTables, if_neg hne]
  omega

theorem countRsp_le {mem limit : ℕ} (hl : 0 < limit) :
    countRsp mem limit ≤ n ↔ mem ≤ n * limit := by
  unfold countRsp
  have hdm := div_add_mod mem limit
  have hml := mod_lt mem hl
  constructor
  · intro h
    have hstep : mem ≤ (mem / limit + if mem % limit ≠ 0 then 1 else 0) * limit := by
      split
      · rw [add_mul, mul_comm]
        omega
      · rw [add_zero, mul_comm]
        omega
    exact hstep.trans (mul_le_mul_right _ h)
  · intro h
    split
    · next hne =>
        refine succ_le_of_lt ((div_lt_iff_lt_mul hl).mpr (lt_of_le_of_ne h ?_))
        rintro rfl
        exact hne (mul_mod_left _ _)
    · exact (Nat.div_le_div_right h).trans (Nat.mul_div_cancel _ hl).le

theorem nTables_one (c : MemoryChunk) {limit : ℕ} (hne : level ≠ 0) (hl : 0 < limit)
    (hent : entries [c] level = max (countRsp c.len limit) 2048) :
    nTables [c] level = 1 ↔ c.len ≤ 2048 * limit := by
  rw [← countRsp_le hl, nTables, if_neg hne, hent]
  constructor
  · intro h
    by_contra hgt
    split at h <;> omega
  · intro h
    rw [max_eq_right h]
    rfl

theorem nTables_zero (c : MemoryChunk) (hal : 4096 ∣ c.len) : nTables [c] 0 = c.len / 2 ^ 20 := by
  obtain ⟨k, hk⟩ := hal
  have hcount : countRsp c.len mmuPagesize = k := by
    rw [countRsp, hk, mmuPagesize, Nat.mul_mod_right, Nat.mul_div_cancel_left _ (by decide)]
    rfl
  have hent : entries [c] 0 = k := by rw [entries, map_singleton, sum_singleton, hcount]
  rw [nTables, if_pos rfl]
  omega

/-! ## One table at each level above the page tables -/

/-- What the loop over `n` page tables makes of a state: tables from `p` on, htables from
    `h` on, addresses from `v` on. -/
structure PageTables (n : ℕ) (prev : Option ℕ) (p h v : ℕ) (s s' : State) : Prop where
  dw : ∀ a, s'.dw a = if p / 8 ≤ a ∧ a < p / 8 + 256 * n then invalidEntry 0 else s.dw a
  hts : ∀ i < n, s'.hts (h + i) = some ⟨p + 2048 * i, 2048, v + segmsize * i,
    if i + 1 < n then some (h + i + 1) else none, none, 0⟩
  linked : ∀ q < h, prev = some q → 0 < n →
    s'.hts q = (s.hts q).map fun x => { x with next := some h }
  other : ∀ i, i < h ∨ h + n ≤ i → (prev = some i → n = 0) → s'.hts i = s.hts i
  first : s'.first = if n = 0 ∨ prev ≠ none then s.first else update s.first 0 (some h)
  tables : s'.tables = s.tables ++ (range n).map fun j => (p + 2048 * j, 2048)
  stores : s'.stores = s.stores ++ (range n).map fun j => (p + 2048 * j, 2048)
  made : s'.made = s.made ++ range' h n

theorem range_map_cons (n p : ℕ) (l : List (ℕ × ℕ)) :
    (l ++ [(p, 2048)]) ++ (range n).map (fun j => (p + 2048 + 2048 * j, 2048)) =
      l ++ (range (n + 1)).map fun j => (p + 2048 * j, 2048) := by
  rw [range_succ_eq_map, map_cons, map_map, append_assoc]
  simp only [comp_def, mul_succ]
  refine congrArg (l ++ (p, 2048) :: ·) (map_congr_left fun j _ => ?_)
  rw [add_assoc, add_comm 2048]

theorem pageTables_loop (n : ℕ) (prev : Option ℕ) (p h v : ℕ) (s : State) (hp : 8 ∣ p)
    (hprev : ∀ q, prev = some q → q < h) :
    PageTables n prev p h v s (tableLoop 0 (fun _ _ _ s => s) n prev p h v s) := by
  induction n generalizing prev p h v s with
  | zero =>
    refine ⟨fun a => ?_, fun i hi => absurd hi (not_lt_zero i),
      fun q _ _ h0 => absurd h0 (lt_irrefl 0), fun i _ _ => rfl, (if_pos (.inl rfl)).symm,
      (append_nil _).symm, (append_nil _).symm, (append_nil _).symm⟩
    rw [if_neg (by omega)]
    rfl
  | succ n ih =>
    set t := makeTable 0 p h v prev s with ht
    have hrec := ih (some h) (p + 2048) (h + 1) (v + segmsize) t (by omega)
      (fun q hq => Option.some.inj hq ▸ lt_succ_self h)
    -- the htable made first, before and after the next one is linked to it
    have hth : t.hts h = some ⟨p, 2048, v, none, none, 0⟩ := update_self _ _ _
    have hother : ∀ i, i ≠ h → prev ≠ some i → t.hts i = s.hts i := by
      intro i hih hpi
      refine (update_of_ne hih _ _).trans ?_
      cases prev with
      | none => rfl
      | some q => exact update_of_ne (fun he => hpi (congrArg some he.symm)) _ _
    show PageTables (n + 1) prev p h v s
      (tableLoop 0 (fun _ _ _ s => s) n (some h) (p + 2048) (h + 1) (v + segmsize) t)
    refine ⟨fun a => ?_, fun i hi => ?_, fun q hq hqp _ => ?_, fun i hi hpi => ?_, ?_, ?_, ?_, ?_⟩
    · have hmk : t.dw a = if p / 8 ≤ a ∧ a < p / 8 + 256 then invalidEntry 0 else s.dw a := rfl
      rw [hrec.dw a, hmk]
      split_ifs <;> first | rfl | omega
    · cases i with
      | zero =>
        by_cases hn : n = 0
        · subst hn
          exact (hrec.other h (.inl (lt_succ_self h)) fun _ => rfl).trans hth
        · rw [if_pos (by omega)]
          refine (hrec.linked h (lt_succ_self h) rfl (pos_of_ne_zero hn)).trans ?_
          rw [hth]
          rfl
      | succ i =>
        have := hrec.hts i (by omega)
        rw [show h + (i + 1) = h + 1 + i by omega, this]
        simp only [add_lt_add_iff_right, Option.some.injEq, Htable.mk.injEq, true_and, and_true]
        exact ⟨by omega, by unfold segmsize; omega⟩
    · rw [hrec.other q (.inl (by omega)) fun he => absurd (Option.some.inj he) (by omega)]
      refine (update_of_ne (by omega) _ _).trans ?_
      subst hqp
      exact update_self _ _ _
    · have hne : i ≠ h := by omega
      rw [hrec.other i (by omega) fun he => absurd (Option.some.inj he).symm hne]
      exact hother i hne fun he => absurd (hpi he) (succ_ne_zero n)
    · rw [hrec.first, if_pos (.inr (by simp))]
      show (if prev = none then _ else _) = _
      by_cases hpn : prev = none
      · rw [if_pos hpn, if_neg (by simp [hpn])]
      · rw [if_neg hpn, if_pos (.inr hpn)]
    · rw [hrec.tables]
      exact range_map_cons n p s.tables
    · rw [hrec.stores]
      exact range_map_cons n p s.stores
    · rw [hrec.made, range'_succ]
      show s.made ++ [h] ++ _ = _
      rw [append_assoc, singleton_append]

/-- The htable of index `i` when there is one table of each upper level and `n` page
    tables, with `k` entries counted. -/
def htAt (p n i k : ℕ) : Htable :=
  if i < 4 then ⟨p + 16384 * i, 16384, 0, none, some (i + 1), k⟩
  else ⟨p + 65536 + 2048 * (i - 4), 2048, segmsize * (i - 4),
    if i + 1 < 4 + n then some (i + 1) else none, none, k⟩

theorem htAt_page (p n j k : ℕ) : htAt p n (4 + j) k = ⟨p + 65536 + 2048 * j, 2048, segmsize * j,
    if j + 1 < n then some (4 + (j + 1)) else none, none, k⟩ := by
  rw [htAt, if_neg (by omega), Nat.add_sub_cancel_left]
  simp only [add_assoc, add_lt_add_iff_left]

/-- The tables lie one behind the other from `p` on, and the htables describe them. -/
structure Laid (p n : ℕ) (s : State) : Prop where
  hts : ∀ i < 4 + n, ∃ k, s.hts i = some (htAt p n i k)
  beyond : ∀ i, 4 + n ≤ i → s.hts i = none
  first : ∀ l, 1 ≤ l → l ≤ 4 → s.first l = some (4 - l)
  pages : 0 < n → s.first 0 = some 4
  stores : ∀ e ∈ s.stores, p ≤ e.1 ∧ e.1 + e.2 ≤ p + 65536 + 2048 * n
  tables : s.tables = (range 4).map (fun i => (p + 16384 * i, 16384)) ++
    (range n).map fun j => (p + 65536 + 2048 * j, 2048)
  made : s.made = range (4 + n)

theorem updateHtable_one (h1 : count (l + 1) = 1) (p h v : ℕ)
    (s : State) : updateHtable count (l + 1) p h v s =
      updateHtable count l (p + tLen (l + 1)) (h + 1) v (makeTable (l + 1) p h v none s) := by
  rw [updateHtable, h1]
  rfl

def upperTables (p : ℕ) (dw : ℕ → Pte) : State :=
  makeTable 1 (p + 49152) 3 0 none (makeTable 2 (p + 32768) 2 0 none
    (makeTable 3 (p + 16384) 1 0 none (makeTable 4 p 0 0 none (fresh dw))))

theorem updateHtable_upper (hc : ∀ l, 1 ≤ l → l ≤ 4 → count l = 1) (p : ℕ)
    (dw : ℕ → Pte) : updateHtable count 4 p 0 0 (fresh dw) =
      tableLoop 0 (fun _ _ _ s => s) (count 0) none (p + 65536) 4 0 (upperTables p dw) := by
  have hlen : ∀ l, tLen (l + 1) = 16384 := fun l => by
    rw [tLen, single, if_neg (succ_ne_zero l)]
  have h4 : p + tLen (3 + 1) = p + 16384 := by have := hlen 3; omega
  have h3 : p + 16384 + tLen (2 + 1) = p + 32768 := by have := hlen 2; omega
  have h2 : p + 32768 + tLen (1 + 1) = p + 49152 := by have := hlen 1; omega
  have h1 : p + 49152 + tLen (0 + 1) = p + 65536 := by have := hlen 0; omega
  rw [updateHtable_one (hc 4 (by decide) le_rfl), h4,
    updateHtable_one (hc 3 (by decide) (by decide)), h3,
    updateHtable_one (hc 2 (by decide) (by decide)), h2,
    updateHtable_one (hc 1 le_rfl (by decide)), h1]
  rfl

theorem upperTables_hts (p : ℕ) (dw : ℕ → Pte) (i : ℕ) :
    (upperTables p dw).hts i =
      if i < 4 then some ⟨p + 16384 * i, 16384, 0, none, some (i + 1), 0⟩ else none := by
  match i with
  | 0 | 1 | 2 | 3 => rfl
  | i + 4 =>
    simp [upperTables, makeTable, fresh]

theorem laid_updateHtable (hc : ∀ l, 1 ≤ l → l ≤ 4 → count l = 1) (hp : 8 ∣ p) (dw : ℕ → Pte) :
    Laid p (count 0) (updateHtable count 4 p 0 0 (fresh dw)) := by
  rw [updateHtable_upper hc]
  have hpt := pageTables_loop (count 0) none (p + 65536) 4 0 (upperTables p dw) (by omega)
    nofun
  have htab : (upperTables p dw).tables = (range 4).map fun i => (p + 16384 * i, 16384) := rfl
  refine ⟨fun i hi => ⟨0, ?_⟩, fun i hi => ?_, fun l h1 h4 => ?_, fun hn => ?_, ?_, ?_, ?_⟩
  · by_cases h4 : i < 4
    · rw [hpt.other i (.inl h4) nofun, upperTables_hts, if_pos h4, htAt, if_pos h4]
    · obtain ⟨j, rfl⟩ := Nat.exists_eq_add_of_le (not_lt.mp h4)
      rw [hpt.hts j (by omega), htAt_page, zero_add]
      rfl
  · rw [hpt.other i (.inr hi) nofun, upperTables_hts, if_neg (by omega)]
  · rw [hpt.first]
    obtain rfl | rfl | rfl | rfl : l = 1 ∨ l = 2 ∨ l = 3 ∨ l = 4 := by omega
    all_goals split <;> rfl
  · rw [hpt.first, if_neg (by simp; omega), update_self]
  · intro e he
    rw [hpt.stores] at he
    rcases mem_append.mp he with he | he
    · have he' : e ∈ (range 4).map fun i => (p + 16384 * i, 16384) := he
      obtain ⟨i, hi, rfl⟩ := mem_map.mp he'
      have := mem_range.mp hi
      omega
    · obtain ⟨j, hj, rfl⟩ := mem_map.mp he
      have := mem_range.mp hj
      omega
  · rw [hpt.tables, htab]
  · rw [hpt.made]
    show range 4 ++ _ = _
    rw [range_eq_range', range_eq_range', range'_append_1]

theorem Laid.entry (hl : Laid p n s) {a : ℕ} (e : Pte) (hlo : p ≤ 8 * a)
    (hhi : 8 * a + 8 ≤ p + 65536 + 2048 * n) (hht : ht < 4 + n) :
    Laid p n (countEntry ht (storeDw a e s)) := by
  refine { hl with hts := fun i hi => ?_, beyond := fun i hi => ?_, stores := fun x hx => ?_ }
  · obtain ⟨k, hk⟩ := hl.hts i hi
    by_cases hih : i = ht
    · subst hih
      refine ⟨k + 1, (update_self _ _ _).trans ?_⟩
      rw [show (storeDw a e s).hts i = s.hts i from rfl, hk]
      unfold htAt
      split <;> rfl
    · exact ⟨k, (update_of_ne hih _ _).trans hk⟩
  · exact (update_of_ne (by omega) _ _).trans (hl.beyond i hi)
  · rcases mem_append.mp hx with hx | hx
    · exact hl.stores x hx
    · obtain rfl := mem_singleton.mp hx
      exact ⟨hlo, hhi⟩

variable {i origin va : ℕ}

/-- The entry of region table `i` for the one table below it. -/
def regionDw (p i : ℕ) (dw : ℕ → Pte) : ℕ → Pte :=
  update dw (p / 8 + 2048 * i) (regionEntry (BitVec.ofNat 12 (3 - i)) (p + 16384 * (i + 1)) 16384
    (dw (p / 8 + 2048 * i)))

theorem link_region (hl : Laid p n s) (hi : i < 3) (hp : 8 ∣ p) (fuel m : ℕ) :
    ∃ s', linkLevel (4 - i) (fuel + 1) (m + 1) (some i) s = some s' ∧ Laid p n s' ∧
      s'.dw = regionDw p i s.dw := by
  obtain ⟨k, hk⟩ := hl.hts i (by omega)
  obtain ⟨k', hk'⟩ := hl.hts (i + 1) (by omega)
  have hat : ∀ k, htAt p n i k = ⟨p + 16384 * i, 16384, 0, none, some (i + 1), k⟩ :=
    fun k => if_pos (by omega)
  have hat' : htAt p n (i + 1) k' = ⟨p + 16384 * (i + 1), 16384, 0, none, some (i + 1 + 1), k'⟩ :=
    if_pos (by omega)
  rw [hat] at hk
  rw [hat'] at hk'
  have ha : (p + 16384 * i) / 8 + (0 + 2 ^ 64 - 0) % 2 ^ 64 / 2 ^ levelShift (4 - i) =
      p / 8 + 2048 * i := by
    rw [Nat.zero_add, Nat.sub_zero, Nat.mod_self, Nat.zero_div]
    omega
  set a := p / 8 + 2048 * i
  set e := linkEntry (4 - i) ⟨p + 16384 * (i + 1), 16384, 0, none, some (i + 1 + 1), k'⟩ (s.dw a)
    with he
  have hlaid := hl.entry e (show p ≤ 8 * a by omega) (by omega) (show i < 4 + n by omega)
  have hch : linkChildren (4 - i) i (fuel + 1) (some (i + 1)) s =
      some (countEntry i (storeDw a e s)) := by
    rw [linkChildren, hk', bind_some, hk, bind_some]
    simp only [ha]
    cases fuel <;> rfl
  refine ⟨_, ?_, hlaid, ?_⟩
  · rw [linkLevel, hk]
    simp only [hch, bind_some]
    obtain ⟨k2, hk2⟩ := hlaid.hts i (by omega)
    rw [hat] at hk2
    rw [hk2]
    cases m <;> rfl
  · show update s.dw a e = _
    rw [he, linkEntry, if_neg (by omega), show 4 - i - 1 = 3 - i by omega]
    rfl

theorem link_regions (hl : Laid p n s) (hp : 8 ∣ p) (m : ℕ) :
    ∃ s₃, Laid p n s₃ ∧ s₃.dw = regionDw p 2 (regionDw p 1 (regionDw p 0 s.dw)) ∧
      ∀ f : State → Option State, ((linkLevel 4 (m + 1) (m + 1) (s.first 4) s).bind fun s =>
        (linkLevel 3 (m + 1) (m + 1) (s.first 3) s).bind fun s =>
        (linkLevel 2 (m + 1) (m + 1) (s.first 2) s).bind f) = f s₃ := by
  obtain ⟨s1, hs1, hl₁, hd1⟩ := link_region hl (show 0 < 3 by decide) hp m m
  obtain ⟨s2, hs2, hl₂, hd2⟩ := link_region hl₁ (show 1 < 3 by decide) hp m m
  obtain ⟨s3, hs3, hl₃, hd3⟩ := link_region hl₂ (show 2 < 3 by decide) hp m m
  refine ⟨s3, hl₃, by rw [hd3, hd2, hd1], fun f => ?_⟩
  rw [hl.first 4 (by decide) le_rfl, show linkLevel 4 _ _ (some (4 - 4)) s = some s1 from hs1,
    bind_some, hl₁.first 3 (by decide) (by decide),
    show linkLevel 3 _ _ (some (4 - 3)) s1 = some s2 from hs2, bind_some,
    hl₂.first 2 (by decide) (by decide),
    show linkLevel 2 _ _ (some (4 - 2)) s2 = some s3 from hs3, bind_some]

theorem link_segments (hn : n ≤ 2048) (hp : 8 ∣ p) (fuel j : ℕ) (s : State) (hl : Laid p n s)
    (hj : j ≤ n) (hfuel : n ≤ j + fuel) :
    ∃ s', linkChildren 1 3 fuel (if j < n then some (4 + j) else none) s = some s' ∧ Laid p n s' ∧
      ∀ a, s'.dw a = if p / 8 + 6144 + j ≤ a ∧ a < p / 8 + 6144 + n then
        segmentEntry (p + 65536 + 2048 * (a - (p / 8 + 6144))) (s.dw a) else s.dw a := by
  induction fuel generalizing j s with
  | zero =>
    rw [if_neg (by omega)]
    exact ⟨s, rfl, hl, fun a => (if_neg (by omega)).symm⟩
  | succ fuel ih =>
    by_cases hjn : j < n
    · rw [if_pos hjn]
      obtain ⟨k, hk⟩ := hl.hts (4 + j) (by omega)
      obtain ⟨k3, hk3⟩ := hl.hts 3 (by omega)
      rw [htAt_page] at hk
      have ha : (p + 16384 * 3) / 8 + (segmsize * j + 2 ^ 64 - 0) % 2 ^ 64 / 2 ^ levelShift 1 =
          p / 8 + 6144 + j := by
        have hsh : levelShift 1 = 20 := rfl
        rw [hsh]
        unfold segmsize
        omega
      set a := p / 8 + 6144 + j
      have hlaid := hl.entry (segmentEntry (p + 65536 + 2048 * j) (s.dw a))
        (show p ≤ 8 * a by omega) (by omega) (show 3 < 4 + n by omega)
      obtain ⟨s', hs', hl', hdw⟩ := ih (j + 1) _ hlaid (by omega) (by omega)
      refine ⟨s', ?_, hl', fun b => ?_⟩
      · rw [linkChildren, hk, bind_some, hk3, bind_some]
        simp only [htAt, if_pos (show 3 < 4 by decide), ha]
        exact hs'
      have hone : (countEntry 3 (storeDw a (segmentEntry (p + 65536 + 2048 * j) (s.dw a))
          s)).dw b = if b = a then segmentEntry (p + 65536 + 2048 * j) (s.dw a) else s.dw b :=
        update_apply _ _ _ _
      rw [hdw b, hone]
      by_cases hba : b = a
      · subst hba
        rw [if_neg (by omega), if_pos rfl, if_pos (by omega),
          show a - (p / 8 + 6144) = j by omega]
      · rw [if_neg hba]
        by_cases hin : p / 8 + 6144 + j ≤ b ∧ b < p / 8 + 6144 + n
        · rw [if_pos hin, if_pos (by omega)]
        · rw [if_neg hin, if_neg (by omega)]
    · rw [if_neg hjn]
      exact ⟨s, rfl, hl, fun a => (if_neg (by omega)).symm⟩

theorem fill_pages (hht : ht < 4 + n) :
    ∀ (m a pfra : ℕ) (s : State), Laid p n s → p ≤ 8 * a → 8 * (a + m) ≤ p + 65536 + 2048 * n →
      Laid p n (fillPages ht m a pfra s) ∧ ∀ b, (fillPages ht m a pfra s).dw b =
        if a ≤ b ∧ b < a + m ∧ pfra + 4096 * (b - a) < coreheapBase then
          ⟨(pfra + 4096 * (b - a)) / 4096, (s.dw b).low &&& ~~~(0x400 : BitVec 12)⟩
        else s.dw b := by
  intro m
  induction m with
  | zero => exact fun a pfra s hl _ _ => ⟨hl, fun b => (if_neg (by omega)).symm⟩
  | succ m ih =>
    intro a pfra s hl hlo hhi
    unfold fillPages
    by_cases hcore : coreheapBase ≤ pfra
    · rw [if_pos hcore]
      exact ⟨hl, fun b => (if_neg (by omega)).symm⟩
    rw [if_neg hcore]
    set e : Pte := ⟨pfra / 4096, (s.dw a).low &&& ~~~(0x400 : BitVec 12)⟩ with he
    have hlaid := hl.entry e hlo (by omega) hht
    obtain ⟨hl', hdw⟩ := ih (a + 1) (pfra + mmuPagesize) _ hlaid (by omega) (by omega)
    refine ⟨hl', fun b => (hdw b).trans ?_⟩
    have hone : (countEntry ht (storeDw a e s)).dw b = if b = a then e else s.dw b :=
      update_apply _ _ _ _
    unfold mmuPagesize
    rw [hone]
    by_cases hba : b = a
    · subst hba
      rw [if_neg (by omega), if_pos rfl, if_pos (by omega), Nat.sub_self, Nat.add_zero]
    rw [if_neg hba]
    by_cases hin : a ≤ b ∧ b < a + (m + 1) ∧ pfra + 4096 * (b - a) < coreheapBase
    · rw [if_pos hin, if_pos (by omega),
        show pfra + 4096 + 4096 * (b - (a + 1)) = pfra + 4096 * (b - a) by omega]
    · rw [if_neg hin, if_neg (by omega)]

theorem fill_level (hp : 8 ∣ p) (fuel j : ℕ) (s : State) (hl : Laid p n s) (hj : j ≤ n)
    (hfuel : n ≤ j + fuel) :
    ∃ s', fillLevel fuel (if j < n then some (4 + j) else none) s = some s' ∧ Laid p n s' ∧
      ∀ a, s'.dw a = if p / 8 + 8192 + 256 * j ≤ a ∧ a < p / 8 + 8192 + 256 * n ∧
          4096 * (a - (p / 8 + 8192)) < coreheapBase then
        ⟨a - (p / 8 + 8192), (s.dw a).low &&& ~~~(0x400 : BitVec 12)⟩ else s.dw a := by
  induction fuel generalizing j s with
  | zero =>
    rw [if_neg (by omega)]
    exact ⟨s, rfl, hl, fun a => (if_neg (by omega)).symm⟩
  | succ fuel ih =>
    by_cases hjn : j < n
    · rw [if_pos hjn]
      obtain ⟨k, hk⟩ := hl.hts (4 + j) (by omega)
      rw [htAt_page] at hk
      have horg : (p + 65536 + 2048 * j) / 8 = p / 8 + 8192 + 256 * j := by omega
      obtain ⟨hl₁, hdw1⟩ := @fill_pages (4 + j) n p (by omega) 256 (p / 8 + 8192 + 256 * j)
        (segmsize * j) s hl (by omega) (by omega)
      obtain ⟨s', hs', hl', hdw⟩ := ih (j + 1) _ hl₁ (by omega) (by omega)
      refine ⟨s', ?_, hl', fun a => ?_⟩
      · rw [fillLevel, hk, bind_some]
        simp only [horg]
        exact hs'
      rw [hdw a, hdw1 a]
      unfold segmsize
      by_cases hin : p / 8 + 8192 + 256 * j ≤ a ∧ a < p / 8 + 8192 + 256 * j + 256 ∧
          2 ^ 20 * j + 4096 * (a - (p / 8 + 8192 + 256 * j)) < coreheapBase
      · rw [if_neg (by omega), if_pos hin, if_pos (by omega),
          show (2 ^ 20 * j + 4096 * (a - (p / 8 + 8192 + 256 * j))) / 4096 =
            a - (p / 8 + 8192) by omega]
      rw [if_neg hin]
      by_cases hin' : p / 8 + 8192 + 256 * (j + 1) ≤ a ∧ a < p / 8 + 8192 + 256 * n ∧
          4096 * (a - (p / 8 + 8192)) < coreheapBase
      · rw [if_pos hin', if_pos (by omega)]
      · rw [if_neg hin', if_neg (by omega)]
    · rw [if_neg hjn]
      exact ⟨s, rfl, hl, fun a => (if_neg (by omega)).symm⟩

structure Filled (p n : ℕ) (dw : ℕ → Pte) : Prop where
  r1 : ∀ i < 2048, dw (p / 8 + i) = if i = 0 then ⟨p / 4096 + 4, 0x00f⟩ else ⟨0, 0x020⟩
  r2 : ∀ i < 2048, dw (p / 8 + 2048 + i) = if i = 0 then ⟨p / 4096 + 8, 0x00b⟩ else ⟨0, 0x020⟩
  r3 : ∀ i < 2048, dw (p / 8 + 4096 + i) = if i = 0 then ⟨p / 4096 + 12, 0x007⟩ else ⟨0, 0x020⟩
  st : ∀ i < 2048, dw (p / 8 + 6144 + i) =
    if i < n then ⟨p / 4096 + 16 + i / 2, if i % 2 = 1 then 0x800 else 0⟩ else ⟨0, 0x020⟩
  pt : ∀ i < 256 * n, dw (p / 8 + 8192 + i) = if 4096 * i < coreheapBase then ⟨i, 0⟩ else ⟨0, 0x400⟩

theorem updateHtable_dw (hc : ∀ l, 1 ≤ l → l ≤ 4 → count l = 1) (hp : 4096 ∣ p) (dw : ℕ → Pte)
    (a : ℕ) :
    (updateHtable count 4 p 0 0 (fresh dw)).dw a = if p / 8 ≤ a ∧ a < p / 8 + 8192 then ⟨0, 0x020⟩
      else if p / 8 + 8192 ≤ a ∧ a < p / 8 + 8192 + 256 * count 0 then ⟨0, 0x400⟩
      else dw a := by
  rw [updateHtable_upper hc]
  have hpt := pageTables_loop (count 0) none (p + 65536) 4 0 (upperTables p dw) (by omega)
    nofun
  rw [hpt.dw a]
  -- each of the four upper tables was cleared by its own call
  have hup : (upperTables p dw).dw a =
      if p / 8 ≤ a ∧ a < p / 8 + 8192 then ⟨0, 0x020⟩ else dw a := by
    simp only [upperTables, makeTable, initTable, single, show ¬ ((1 : ℕ) = 0) by decide,
      show ¬ ((2 : ℕ) = 0) by decide, show ¬ ((3 : ℕ) = 0) by decide,
      show ¬ ((4 : ℕ) = 0) by decide, if_false]
    split_ifs <;> first | rfl | omega
  rw [hup]
  split_ifs <;> first | rfl | omega

/-- **Run lemma** of the whole construction with one table at each upper level. -/
theorem createDATTables_filled (hp : 4096 ∣ p) (hc : ∀ l, 1 ≤ l → l ≤ 4 → nTables sysMem l = 1)
    (hpos : 0 < nTables sysMem 0) (hn : nTables sysMem 0 ≤ 2048) (dw : ℕ → Pte) :
    ∃ s, createDATTables sysMem p dw = some s ∧ Laid p (nTables sysMem 0) s ∧
      Filled p (nTables sysMem 0) s.dw := by
  have hp8 : 8 ∣ p := Dvd.dvd.trans (by decide) hp
  have hinit := updateHtable_dw hc hp dw
  have hl := laid_updateHtable hc hp8 dw
  unfold createDATTables
  set n := nTables sysMem 0
  have hN : nHtables sysMem = n + 3 + 1 := by
    rw [nHtables, hc 1 le_rfl (by decide), hc 2 (by decide) (by decide),
      hc 3 (by decide) (by decide), hc 4 (by decide) le_rfl]
  rw [hN]
  generalize updateHtable (nTables sysMem) 4 p 0 0 (fresh dw) = s0 at hinit hl
  obtain ⟨s3, hl₃, hd3, hregions⟩ := link_regions hl hp8 (n + 3 + 1)
  obtain ⟨s4, hs4, hl₄, hd4⟩ := link_segments hn hp8 (n + 3 + 1 + 1) 0 s3 hl₃ (zero_le _) (by omega)
  obtain ⟨s5, hs5, hl5, hd5⟩ := fill_level hp8 (n + 3 + 1 + 1) 0 s4 hl₄ (zero_le _) (by omega)
  -- the segment table is the only one of its level
  have hseg : linkLevel 1 (n + 3 + 1 + 1) (n + 3 + 1 + 1) (some 3) s3 = some s4 := by
    obtain ⟨k, hk⟩ := hl₃.hts 3 (by omega)
    obtain ⟨k', hk'⟩ := hl₄.hts 3 (by omega)
    rw [linkLevel, hk, bind_some]
    rw [if_pos hpos] at hs4
    simp only [htAt, if_pos (show 3 < 4 by decide)]
    rw [show linkChildren 1 3 (n + 3 + 1 + 1) (some (3 + 1)) s3 = some s4 from hs4,
      bind_some, hk']
    rfl
  rw [if_pos hpos] at hs5
  refine ⟨s5, ?_, hl5, ?_⟩
  · rw [hregions, hl₃.first 1 le_rfl (by decide), hseg, bind_some, hl₄.pages hpos]
    exact hs5
  · have hreg : ∀ t : ℕ, t < 4 → ∀ o, regionEntry (BitVec.ofNat 12 t) o 16384 ⟨0, 0x020⟩ =
        ⟨o / 4096, (BitVec.ofNat 12 t <<< 2) ||| 0x003⟩ := by
      intro t ht o
      obtain rfl | rfl | rfl | rfl : t = 0 ∨ t = 1 ∨ t = 2 ∨ t = 3 := by omega
      all_goals rfl
    have hinv : ∀ a, p / 8 ≤ a → a < p / 8 + 8192 → s0.dw a = ⟨0, 0x020⟩ :=
      fun a h1 h2 => (hinit a).trans (if_pos ⟨h1, h2⟩)
    -- the region tables, up to the segment table
    have hd3' : ∀ a, s3.dw a = if a = p / 8 then ⟨p / 4096 + 4, 0x00f⟩
        else if a = p / 8 + 2048 then ⟨p / 4096 + 8, 0x00b⟩
        else if a = p / 8 + 4096 then ⟨p / 4096 + 12, 0x007⟩
        else s0.dw a := by
      intro a
      rw [hd3]
      simp only [regionDw, update_apply, mul_zero, add_zero]
      have e1 : p / 8 + 2048 ≠ p / 8 := by omega
      have e2 : p / 8 + 4096 ≠ p / 8 := by omega
      have e3 : p / 8 + 4096 ≠ p / 8 + 2048 := by omega
      rw [if_neg e2, if_neg e3, if_neg e1, hinv (p / 8) (by omega) (by omega),
        hinv (p / 8 + 2048) (by omega) (by omega), hinv (p / 8 + 4096) (by omega) (by omega),
        hreg _ (by decide), hreg _ (by decide), hreg _ (by decide)]
      rw [show (p + 16384 * (0 + 1)) / 4096 = p / 4096 + 4 by omega,
        show (p + 16384 * (1 + 1)) / 4096 = p / 4096 + 8 by omega,
        show (p + 16384 * (2 + 1)) / 4096 = p / 4096 + 12 by omega]
      split_ifs <;> first | rfl | omega
    -- the segment table and the page tables come on top of these
    have hupper : ∀ a, a < p / 8 + 6144 → s5.dw a = s3.dw a := by
      intro a ha
      rw [hd5 a, if_neg (by omega), hd4 a, if_neg (by omega)]
    refine ⟨fun i hi => ?_, fun i hi => ?_, fun i hi => ?_, fun i hi => ?_, fun i hi => ?_⟩
    · rw [hupper _ (by omega), hd3', hinv _ (by omega) (by omega)]
      split_ifs <;> first | rfl | omega
    · rw [hupper _ (by omega), hd3', hinv _ (by omega) (by omega)]
      split_ifs <;> first | rfl | omega
    · rw [hupper _ (by omega), hd3', hinv _ (by omega) (by omega)]
      split_ifs <;> first | rfl | omega
    · have hold : s3.dw (p / 8 + 6144 + i) = ⟨0, 0x020⟩ := by
        rw [hd3', if_neg (by omega), if_neg (by omega), if_neg (by omega),
          hinv _ (by omega) (by omega)]
      rw [hd5, if_neg (by omega), hd4, hold]
      by_cases hin : i < n
      · rw [if_pos (by omega), Nat.add_sub_cancel_left, segmentEntry,
          show (p + 65536 + 2048 * i) / 4096 = p / 4096 + 16 + i / 2 by omega,
          show (p + 65536 + 2048 * i) / 2048 % 2 = i % 2 by omega]
        split_ifs <;> rfl
      · rw [if_neg (by omega), if_neg hin]
    · have hold : s4.dw (p / 8 + 8192 + i) = ⟨0, 0x400⟩ := by
        rw [hd4, if_neg (by omega), hd3', if_neg (by omega), if_neg (by omega),
          if_neg (by omega), hinit, if_neg (by omega), if_pos (by omega)]
      rw [hd5, hold, Nat.add_sub_cancel_left]
      by_cases hin : 4096 * i < coreheapBase
      · rw [if_pos (by omega), if_pos hin]
        rfl
      · rw [if_neg (by omega), if_neg hin]

theorem tableEntry_invalid {off len type : BitVec 12}
    (h : dw (origin / 8 + i) = ⟨0, 0x020⟩) : tableEntry dw origin off len type i = none := by
  unfold tableEntry
  rw [h]
  split
  · rfl
  · exact if_pos (by decide)

theorem tableEntry_valid {off len type : BitVec 12} {e : Pte}
    (h : dw (origin / 8 + i) = e) (hoff : off.toNat ≤ i / 512) (hlen : i / 512 ≤ len.toNat)
    (hval : e.low &&& 0x020 = 0) (htype : e.low &&& 0x00c = type) :
    tableEntry dw origin off len type i = some e := by
  unfold tableEntry
  rw [h]
  rw [if_neg (by omega), if_neg (by simpa using hval), if_neg (by simpa using htype)]

theorem regions_filled (hf : Filled p n dw) (hp : 4096 ∣ p) :
    tableEntry dw p 0 3 0x00c 0 = some ⟨p / 4096 + 4, 0x00f⟩ ∧
      below dw ⟨p / 4096 + 4, 0x00f⟩ 0x008 0 = some ⟨p / 4096 + 8, 0x00b⟩ ∧
      below dw ⟨p / 4096 + 8, 0x00b⟩ 0x004 0 = some ⟨p / 4096 + 12, 0x007⟩ := by
  refine ⟨tableEntry_valid (hf.r1 0 (by decide)) ?_ ?_ ?_ ?_,
    tableEntry_valid ?_ ?_ ?_ ?_ ?_, tableEntry_valid ?_ ?_ ?_ ?_ ?_⟩
  case refine_5 =>
    rw [show (p / 4096 + 4) * 4096 / 8 + 0 = p / 8 + 2048 + 0 by omega]
    exact hf.r2 0 (by decide)
  case refine_10 =>
    rw [show (p / 4096 + 8) * 4096 / 8 + 0 = p / 8 + 4096 + 0 by omega]
    exact hf.r3 0 (by decide)
  all_goals first
    | decide
    | (dsimp only; decide)

theorem segment_filled (hf : Filled p n dw) (hp : 4096 ∣ p) (hva : va < 2 ^ 31) :
    ((below dw ⟨p / 4096 + 12, 0x007⟩ 0x000 (va / 2 ^ 20 % 2048)).bind fun st =>
      let e := dw ((st.frame * 4096 + (st.low &&& 0x800).toNat) / 8 + va / 2 ^ 12 % 256)
      if e.low &&& 0xc00 = 0 then some e.frame else none) =
    if va < 2 ^ 20 * n ∧ va < coreheapBase then some (va / 4096) else none := by
  have hi : va / 2 ^ 20 % 2048 = va / 2 ^ 20 := mod_eq_of_lt (by omega)
  rw [hi]
  have hst := hf.st (va / 2 ^ 20) (by omega)
  rw [show p / 8 + 6144 + va / 2 ^ 20 = (p / 4096 + 12) * 4096 / 8 + va / 2 ^ 20 by omega] at hst
  by_cases hin : va / 2 ^ 20 < n
  · rw [if_pos hin] at hst
    have hlow : ∀ b : Prop, [Decidable b] → ((if b then 0x800 else 0 : BitVec 12) &&& 0x020 = 0 ∧
        (if b then 0x800 else 0 : BitVec 12) &&& 0x00c = 0 ∧
        ((if b then 0x800 else 0 : BitVec 12) &&& 0x800).toNat = if b then 2048 else 0) := by
      intro b _
      by_cases hb : b <;> simp only [hb] <;> decide
    obtain ⟨hl1, hl2, hl3⟩ := hlow (va / 2 ^ 20 % 2 = 1)
    have hlen : va / 2 ^ 20 / 512 ≤ ((0x007 : BitVec 12) &&& 0x003).toNat := by
      rw [show ((0x007 : BitVec 12) &&& 0x003).toNat = 3 by decide]
      omega
    have hoff : (((0x007 : BitVec 12) &&& 0x0c0) >>> 6).toNat ≤ va / 2 ^ 20 / 512 := by
      exact zero_le _
    rw [below, tableEntry_valid hst hoff hlen hl1 hl2, bind_some]
    simp only [hl3]
    have hidx : ((p / 4096 + 16 + va / 2 ^ 20 / 2) * 4096 +
        if va / 2 ^ 20 % 2 = 1 then 2048 else 0) / 8 + va / 2 ^ 12 % 256 =
          p / 8 + 8192 + va / 4096 := by
      split_ifs <;> omega
    rw [hidx, hf.pt (va / 4096) (by omega)]
    by_cases hcore : va < coreheapBase
    · have hc : 4096 * (va / 4096) < coreheapBase := by omega
      have hboth : va < 2 ^ 20 * n ∧ va < coreheapBase := ⟨by omega, hcore⟩
      rw [if_pos hc, if_pos hboth]
      exact if_pos (by dsimp only; decide)
    · have hc : ¬ 4096 * (va / 4096) < coreheapBase := by
        unfold coreheapBase at hcore ⊢
        omega
      have hboth : ¬ (va < 2 ^ 20 * n ∧ va < coreheapBase) := fun h => hcore h.2
      rw [if_neg hc, if_neg hboth]
      exact if_neg (by dsimp only; decide)
  · rw [if_neg hin] at hst
    rw [below, tableEntry_invalid hst, bind_none, if_neg (by omega)]

/-- The finished tables translate the addresses of the whole segments below
    `COREHEAP_BASE`, each to its own frame. -/
theorem translate_filled (hf : Filled p n dw) (hp : 4096 ∣ p) (hva : va < 2 ^ 64) :
    translate dw p va = if va < 2 ^ 20 * n ∧ va < coreheapBase then some (va / 4096) else none := by
  have hlt : ∀ k, va / 2 ^ k % 2048 < 2048 := fun k => mod_lt _ (by decide)
  obtain ⟨e1, e2, e3⟩ := regions_filled hf hp
  unfold translate
  by_cases h1 : va / 2 ^ 53 % 2048 = 0
  · rw [h1, e1, bind_some]
    by_cases h2 : va / 2 ^ 42 % 2048 = 0
    · rw [h2, e2, bind_some]
      by_cases h3 : va / 2 ^ 31 % 2048 = 0
      · rw [h3, e3]
        exact segment_filled hf hp (by omega)
      · rw [below, tableEntry_invalid, bind_none, if_neg (by unfold coreheapBase; omega)]
        rw [show (p / 4096 + 8) * 4096 / 8 = p / 8 + 4096 by omega, hf.r3 _ (hlt 31), if_neg h3]
    · rw [below, tableEntry_invalid, bind_none, if_neg (by unfold coreheapBase; omega)]
      rw [show (p / 4096 + 4) * 4096 / 8 = p / 8 + 2048 by omega, hf.r2 _ (hlt 42), if_neg h2]
  · rw [tableEntry_invalid, bind_none, if_neg (by unfold coreheapBase; omega)]
    rw [hf.r1 _ (hlt 53), if_neg h1]

theorem no_page_table_fails (hp : 8 ∣ p) (hc : ∀ l, 1 ≤ l → l ≤ 4 → nTables sysMem l = 1)
    (h0 : nTables sysMem 0 = 0) (dw : ℕ → Pte) : createDATTables sysMem p dw = none := by
  have hl := laid_updateHtable hc hp dw
  rw [h0] at hl
  unfold createDATTables
  generalize updateHtable (nTables sysMem) 4 p 0 0 (fresh dw) = s0 at hl
  generalize nHtables sysMem = m
  obtain ⟨s3, hl₃, -, hregions⟩ := link_regions hl hp m
  have hseg : linkLevel 1 (m + 1) (m + 1) (some 3) s3 = none := by
    obtain ⟨k, hk⟩ := hl₃.hts 3 (by decide)
    rw [linkLevel, hk, bind_some]
    simp only [htAt, if_pos (show 3 < 4 by decide)]
    rw [linkChildren, hl₃.beyond (3 + 1) le_rfl]
    rfl
  rw [hregions, hl₃.first 1 le_rfl (by decide), hseg, bind_none]

theorem one_chunk_of_maps (hp : 4096 ∣ p)
    (hal : ∀ c ∈ sysMem, 4096 ∣ c.start ∧ 4096 ∣ c.len ∧ c.len ≤ 2 ^ 53)
    (h : MapsMemory sysMem p dw) : ∃ c, sysMem = [c] ∧ 2 ^ 20 ≤ c.len ∧ c.len ≤ 2 ^ 31 := by
  obtain ⟨s, hs, -, -, htab, -, -⟩ := h
  rw [createDATTables_tables hs] at htab
  match sysMem, hal, hs, htab with
  | [], _, hs, _ =>
    nomatch hs
  | c :: d :: cs, _, _, htab =>
    -- two chunks make two tables of region level 2
    have htwo : 2 ≤ nTables (c :: d :: cs) 3 := 
      le_trans (by simp) (length_le_nTables _ (by decide) le_rfl)
    have hone : 0 < nTables (c :: d :: cs) 2 :=
      lt_of_lt_of_le (by simp) (length_le_nTables _ (by decide) (by decide))
    exact absurd htab (overlap_above (l := 3) (by rw [nTables_top]; decide)
      (second_table_overlaps htwo hone) _ _ _ _)
  | [c], hal, hs, htab =>
    obtain ⟨-, hlen4, hlen53⟩ := hal c (mem_singleton_self c)
    have h3 : nTables [c] 3 = 1 :=
      (@nTables_one 3 c (2 ^ 42) (by decide) (by decide) (by simp [entries])).mpr
        (by omega)
    have h1 := @nTables_one 1 c (2 ^ 20) (by decide) (by decide) (by simp [entries])
    have hpos1 : 0 < nTables [c] 1 := length_le_nTables [c] le_rfl (by decide)
    have hpos2 : 0 < nTables [c] 2 := length_le_nTables [c] (by decide) (by decide)
    have h0 := nTables_zero c hlen4
    -- two tables of region level 3, or two segment tables, are laid over the next level
    have hn2 : nTables [c] 2 = 1 := by
      by_contra hne
      refine absurd htab (overlap_above (l := 3) (by rw [nTables_top]; decide)
        (overlap_above (l := 2) (by rw [h3]; decide)
          (second_table_overlaps (show 2 ≤ nTables [c] 2 by omega) hpos1)) _ _ _ _)
    have hn1 : nTables [c] 1 = 1 := by
      by_contra hne
      refine absurd htab (overlap_above (l := 3) (by rw [nTables_top]; decide)
        (overlap_above (l := 2) (by rw [h3]; decide)
          (overlap_above (l := 1) (by rw [hn2]; decide)
            (second_table_overlaps (show 2 ≤ nTables [c] 1 by omega)
              (by rw [h0]; omega)))) _ _ _ _)
    have hle : c.len ≤ 2 ^ 31 := by omega
    refine ⟨c, rfl, ?_, hle⟩
    by_contra hlt
    have hall : ∀ l, 1 ≤ l → l ≤ 4 → nTables [c] l = 1 := by
      intro l hl1 hl4
      obtain rfl | rfl | rfl | rfl : l = 1 ∨ l = 2 ∨ l = 3 ∨ l = 4 := by omega
      · exact hn1
      · exact hn2
      · exact h3
      · exact nTables_top _
    rw [no_page_table_fails (Dvd.dvd.trans (by decide) hp) hall (by rw [h0]; omega)] at hs
    nomatch hs

theorem one_chunk_built {c : MemoryChunk} (hp : 4096 ∣ p) (hal : 4096 ∣ c.len)
    (hlo : 2 ^ 20 ≤ c.len) (hhi : c.len ≤ 2 ^ 31) (dw : ℕ → Pte) :
    ∃ s, createDATTables [c] p dw = some s ∧
      (∀ e ∈ s.stores, p ≤ e.1 ∧ e.1 + e.2 ≤ p + getRSPsize [c]) ∧
      (∀ h ∈ s.made, h < nHtables [c]) ∧ s.tables.Pairwise Apart ∧ s.made.Nodup ∧
      ∀ va < 2 ^ 64, translate s.dw p va =
        if va < 2 ^ 20 * (c.len / 2 ^ 20) ∧ va < coreheapBase then some (va / 4096) else none := by
  have hent : ∀ l, 1 ≤ l → l ≤ 4 → entries [c] l = 2048 := by
    intro l hl1 hl4
    have hmax : ∀ k, 2 ^ 20 ≤ k → max (countRsp c.len k) 2048 = 2048 := by
      intro k hk
      refine max_eq_right ((countRsp_le (by omega)).mpr ?_)
      exact hhi.trans (by omega)
    obtain rfl | rfl | rfl | rfl : l = 1 ∨ l = 2 ∨ l = 3 ∨ l = 4 := by omega
    · exact (sum_singleton).trans (hmax _ le_rfl)
    · exact (sum_singleton).trans (hmax _ (by decide))
    · exact (sum_singleton).trans (hmax _ (by decide))
    · rfl
  have hc : ∀ l, 1 ≤ l → l ≤ 4 → nTables [c] l = 1 := by
    intro l hl1 hl4
    rw [nTables, if_neg (by omega), hent l hl1 hl4]
    rfl
  have h0 := nTables_zero c hal
  obtain ⟨s, hs, hl, hf⟩ := createDATTables_filled hp hc (by omega) (by omega) dw
  have hsize : 65536 + 2048 * nTables [c] 0 ≤ getRSPsize [c] := by
    have hlt : ∀ l, 1 ≤ l → l ≤ 4 → lTables [c] l = 16384 := by
      intro l hl1 hl4
      rw [lTables, hent l hl1 hl4]
      rfl
    have hl0 : 2048 * nTables [c] 0 ≤ lTables [c] 0 := by
      rw [nTables, if_pos rfl, lTables, mmuPagesize]
      omega
    rw [getRSPsize, hlt 1 (by decide) (by decide), hlt 2 (by decide) (by decide),
      hlt 3 (by decide) (by decide), hlt 4 (by decide) (by decide)]
    omega
  refine ⟨s, hs, fun e he => ?_, fun h hh => ?_, ?_, ?_, fun va hva => ?_⟩
  · have := hl.stores e he
    omega
  · rw [hl.made] at hh
    have := mem_range.mp hh
    rw [nHtables, hc 1 (by decide) (by decide), hc 2 (by decide) (by decide),
      hc 3 (by decide) (by decide), hc 4 (by decide) (by decide)]
    omega
  · rw [hl.tables]
    refine pairwise_append.mpr ⟨?_, ?_, ?_⟩
    · refine pairwise_map.mpr (pairwise_lt_range.imp fun {i j} hij => .inl ?_)
      omega
    · refine pairwise_map.mpr (pairwise_lt_range.imp fun {i j} hij => .inl ?_)
      omega
    intro x hx y hy
    obtain ⟨i, hi, rfl⟩ := mem_map.mp hx
    obtain ⟨j, -, rfl⟩ := mem_map.mp hy
    have := mem_range.mp hi
    refine .inl ?_
    omega
  · rw [hl.made]
    exact nodup_range
  · rw [translate_filled hf hp hva, h0]

/-- **HEADLINE**: for every configuration of page-aligned chunks of at most 2^53 bytes and
    every page-aligned storage, `createDATTables` builds its tables inside the storage it
    obtained, without overlap, and maps exactly the real memory below `COREHEAP_BASE`, if
    and only if memory is one chunk from address zero, of 1 MB to 2 GB, that ends on a
    segment boundary or not below `COREHEAP_BASE`. -/
theorem createDATTables_maps_iff (sysMem : List MemoryChunk) (pRSP : ℕ) (dw : ℕ → Pte)
    (hp : 4096 ∣ pRSP) (hal : ∀ c ∈ sysMem, 4096 ∣ c.start ∧ 4096 ∣ c.len ∧ c.len ≤ 2 ^ 53) :
    MapsMemory sysMem pRSP dw ↔ ∃ len, sysMem = [⟨0, len⟩] ∧ 2 ^ 20 ≤ len ∧ len ≤ 2 ^ 31 ∧
        (2 ^ 20 ∣ len ∨ coreheapBase ≤ len) := by
  constructor
  · intro h
    obtain ⟨⟨start, len⟩, rfl, hlo, hhi⟩ := one_chunk_of_maps hp hal h
    obtain ⟨-, hlen4, -⟩ := hal _ (mem_singleton_self _)
    obtain ⟨s, hs, -, -, -, -, hmap⟩ := h
    obtain ⟨t, ht, -, -, -, -, htr⟩ := one_chunk_built hp hlen4 hlo hhi dw
    obtain rfl : s = t := Option.some.inj (hs.symm.trans ht)
    have hreal : ∀ va, IsReal [⟨start, len⟩] va ↔ start ≤ va ∧ va < start + len := by
      intro va
      simp [IsReal]
    -- address zero is mapped, so it is real
    have hzero := htr 0 (by decide)
    rw [if_pos ⟨by omega, by decide⟩] at hzero
    have h0 := ((hreal 0).mp (((hmap 0 (by decide) _).mp hzero).2.1)).1
    obtain rfl : start = 0 := by omega
    refine ⟨len, rfl, hlo, hhi, ?_⟩
    by_contra hno
    -- the first page behind the whole segments is real and not mapped
    have hva := htr (2 ^ 20 * (len / 2 ^ 20)) (by dsimp only at hhi; omega)
    rw [if_neg (fun h => lt_irrefl _ h.1)] at hva
    dsimp only at hlo hhi
    have hsome := (hmap (2 ^ 20 * (len / 2 ^ 20)) (by omega) _).mpr
      ⟨rfl, (hreal _).mpr ⟨by omega, by omega⟩, by omega⟩
    rw [hva] at hsome
    nomatch hsome
  · rintro ⟨len, rfl, hlo, hhi, hend⟩
    obtain ⟨-, hlen4, -⟩ := hal _ (mem_singleton_self _)
    obtain ⟨s, hs, hst, hmd, htab, hnd, htr⟩ := @one_chunk_built pRSP ⟨0, len⟩ hp hlen4 hlo hhi dw
    refine ⟨s, hs, hst, hmd, htab, hnd, fun va hva f => ?_⟩
    have hsame : (va < 2 ^ 20 * (len / 2 ^ 20) ∧ va < coreheapBase) ↔
        IsReal [⟨0, len⟩] va ∧ va < coreheapBase := by
      have hreal : IsReal [⟨0, len⟩] va ↔ va < len := by simp [IsReal]
      rw [hreal]
      unfold coreheapBase at hend ⊢
      rcases hend with hd | hc
      · rw [Nat.mul_div_cancel' hd]
      · omega
    rw [htr va hva, ← hsame]
    split_ifs with h
    · exact ⟨fun he => ⟨(Option.some.inj he).symm, h⟩, fun he => congrArg some he.1.symm⟩
    · exact ⟨nofun, fun he => absurd he.2 h⟩

/-- 64 MB of memory from address zero. -/
theorem maps_64_MB : MapsMemory [⟨0, 2 ^ 26⟩] 0x10000 (fun _ => ⟨0, 0⟩) :=
  (createDATTables_maps_iff [⟨0, 2 ^ 26⟩] 0x10000 _ (by decide)
    (fun c hc => by obtain rfl := mem_singleton.mp hc; decide)).mpr
    ⟨2 ^ 26, rfl, by decide, by decide, .inl (by decide)⟩

/-- With 4 GB of memory in one chunk the second segment table is written over the first
    page table. -/
theorem segment_tables_overlap :
    ¬ (updateHtable (nTables [⟨0, 2 ^ 32⟩]) 4 0x10000 0 0
      (fresh fun _ => ⟨0, 0⟩)).tables.Pairwise Apart := by
  have h1 : nTables [⟨0, 2 ^ 32⟩] 1 = 2 := by decide
  refine overlap_above (l := 3) (by decide) (overlap_above (l := 2) (by decide)
    (overlap_above (l := 1) (by decide) (second_table_overlaps ?_ ?_))) _ _ _ _
  · rw [h1]
  · decide

end Sirius.Boot
