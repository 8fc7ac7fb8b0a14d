import Mathlib.Data.Nat.Count
import Sirius.Zfs.RaidzRead

/-! # RAID-Z read recovery — every coverable mix of failures is recovered

    SAFETY: every way to `io_error == 0` goes through the checksum, and nothing after it
    touches the data columns.  PROGRESS: once every column has been tried, an error-free
    column holds what the child returned, so the bad columns are the ones the children
    spoiled; with at most `nparity` of those one of four PLANS applies, and phase 1 or phase 3
    carries it out. -/

namespace Sirius.Raidz

open Sirius.Lib Function Finset Nat

/-! ## The counters -/

section Tally

variable (rm : RaidzMap) (st : ReadState)

/-- The counters after `i` columns. -/
structure TallyInv (i : Nat) (t : Tally) : Prop where
  num : t.ioNumerrors = Nat.count (fun c => (st.col c).rcError ≠ 0) i
  parity : t.parityErrors
    = Nat.count (fun c => (st.col c).rcError ≠ 0 ∧ c < rm.rmFirstdatacol) i
  data : t.dataErrors
    = Nat.count (fun c => (st.col c).rcError ≠ 0 ∧ rm.rmFirstdatacol ≤ c) i
  untried : t.parityUntried
    = Nat.count (fun c => (st.col c).rcError = 0 ∧ c < rm.rmFirstdatacol
        ∧ (st.col c).rcTried = false) i
  error : t.ioError = 0 ↔ t.ioNumerrors = 0

theorem tallyCol_inv {i : Nat} {t : Tally} (h : TallyInv rm st i t) :
    TallyInv rm st (i + 1) (tallyCol rm st i t) := by
  obtain ⟨hn, hp, hd, hu, he⟩ := h
  by_cases herr : (st.col i).rcError = 0
  · have hcol : tallyCol rm st i t = if i < rm.rmFirstdatacol ∧ (st.col i).rcTried = false then
        { t with parityUntried := t.parityUntried + 1 } else t := by
      rw [tallyCol, if_neg (not_not.mpr herr)]
    rw [hcol]
    by_cases hun : i < rm.rmFirstdatacol ∧ (st.col i).rcTried = false <;>
      constructor <;> simp [count_succ, herr, hun, hn, hp, hd, hu, he]
  rw [tallyCol]
  have hio : (if t.ioError = eio then t.ioError else (st.col i).rcError) ≠ 0 := by
    split_ifs with h
    · rw [h]
      decide
    · exact herr
  by_cases hpar : i < rm.rmFirstdatacol
  · constructor <;> simp [count_succ, herr, hn, hp, hd, hu, hio, not_le.mpr hpar]
  · constructor <;> simp [count_succ, herr, hn, hp, hd, hu, hio, not_lt.mp hpar]

theorem tally_inv : TallyInv rm st rm.rmCols (tally rm st) := by
  refine forRange_inv (zero_le _) (TallyInv rm st) ?_ ?_
  · constructor <;> simp
  · intro i t _ _ h
    exact tallyCol_inv rm st h

def dataErrs : Finset Nat :=
  (range rm.rmCols).filter (fun c => (st.col c).rcError ≠ 0 ∧ rm.rmFirstdatacol ≤ c)

def errs : Finset Nat := (range rm.rmCols).filter (fun c => (st.col c).rcError ≠ 0)

theorem tally_data : (tally rm st).dataErrors = (dataErrs rm st).card := by
  rw [(tally_inv rm st).data, count_eq_card_filter_range]
  rfl

theorem tally_num : (tally rm st).ioNumerrors = (errs rm st).card := by
  rw [(tally_inv rm st).num, count_eq_card_filter_range]
  rfl

variable {rm st} in
theorem mem_dataErrs {c : Nat} :
    c ∈ dataErrs rm st ↔ c < rm.rmCols ∧ (st.col c).rcError ≠ 0 ∧ rm.rmFirstdatacol ≤ c := by
  rw [dataErrs, mem_filter, mem_range]

variable {rm st} in
theorem mem_errs {c : Nat} : c ∈ errs rm st ↔ c < rm.rmCols ∧ (st.col c).rcError ≠ 0 := by
  rw [errs, mem_filter, mem_range]

variable {rm st} in
theorem firstError_eq {lo x : Nat} (hlo : lo ≤ x) (hx : x < rm.rmCols)
    (herr : (st.col x).rcError ≠ 0) (hfirst : ∀ c, lo ≤ c → c < x → (st.col c).rcError = 0) :
    firstError rm st lo = x := by
  have hfind : (List.range' lo (rm.rmCols - lo)).find?
      (fun c => decide ((st.col c).rcError ≠ 0)) = some x := by
    rw [List.find?_range'_eq_some]
    refine ⟨decide_eq_true herr, ?_, ?_⟩
    · rw [List.mem_range'_1]
      omega
    · intro c hclo hcx
      rw [hfirst c hclo hcx]
      rfl
  rw [firstError, hfind]
  rfl

end Tally

/-! ## Failed attempts leave no trace -/

variable {ch : Children} {flags : ReadFlags} {rm : RaidzMap} {orig d d' : Stripe}
  {st st' : ReadState} {s bad : Finset Nat} {c : Nat}

section Frames

variable {c1 k : Nat}

/-- `d'` is `d` except for the bytes of column `c`. -/
def AgreeOff (rm : RaidzMap) (c : Nat) (d d' : Stripe) : Prop :=
  (∀ c', c' ≠ c → d' c' = d c') ∧ ∀ k, (rm.rmCol c).rcSize ≤ k → d' c k = d c k

theorem AgreeOff.refl (rm : RaidzMap) (c : Nat) (d : Stripe) : AgreeOff rm c d d :=
  ⟨fun _ _ => rfl, fun _ _ => rfl⟩

theorem restoreCol_of_agreeOff (h : AgreeOff rm c d d') : restoreCol rm c d d' = d := by
  funext c' k
  by_cases hc : c' = c
  · subst hc
    rw [restoreCol, update_self, bcopy]
    split_ifs with hk
    · rfl
    · exact h.2 k (not_lt.mp hk)
  · rw [restoreCol, update_of_ne hc, h.1 c' hc]

theorem word_ge (hs : Shaped rm) (hk : (rm.rmCol c).rcSize ≤ k) {m : Nat}
    (hm : m ≤ colWords rm c) : ¬ k / 8 < m := by
  intro hlt
  have hlt' : k / 8 < (rm.rmCol c).rcSize / 8 := lt_of_lt_of_le hlt hm
  exact not_lt.mpr hk ((word_lt_iff (hs.words c) k).mp hlt')

theorem reconstructP_agreeOff (hs : Shaped rm) (d : Stripe) :
    AgreeOff rm c d (vdevRaidzReconstructP rm c d) := by
  refine ⟨fun c' hc => (reconstruct_frame (y := c) rm d).1 hc, ?_⟩
  intro k hk
  rw [vdevRaidzReconstructP, update_self]
  refine forRange_inv hs.data.le (fun _ (p : Buf) => p k = d c k) ?_ ?_
  · rw [forWords_copy, if_neg (word_ge hs hk (le_refl _))]
  · intro i p _ _ hp
    split_ifs
    · exact hp
    · rw [forWords_xor, if_neg (word_ge hs hk (min_le_right _ _)), hp]

theorem hornerCol_tail {first : Bool} {src dst : Buf} {count total : Nat} (hc : ¬ k / 8 < count)
    (ht : ¬ k / 8 < total) : hornerCol first src count total dst k = dst k := by
  rw [hornerCol]
  split_ifs
  · rw [forWords_zero, if_neg (fun h => ht h.2), forWords_copy, if_neg hc]
  · rw [forWords_mul2, if_neg (fun h => ht h.2), forWords_horner, if_neg hc]

theorem reconstructQ_agreeOff (hs : Shaped rm) (d : Stripe) :
    AgreeOff rm c d (vdevRaidzReconstructQ rm c d) := by
  refine ⟨fun c' hc => (reconstruct_frame (y := c) rm d).2.1 hc, ?_⟩
  intro k hk
  have hout : ¬ k / 8 < colWords rm c := word_ge hs hk (le_refl _)
  rw [vdevRaidzReconstructQ, update_self, forWords_bytewise (g := fun k b =>
    vdevRaidzExp2 (b ^^^ d vdevRaidzQ k) (255 - (rm.rmCols - 1 - c)))]
  · rw [if_neg (fun h => hout h.2)]
    refine forRange_inv hs.data.le (fun _ (p : Buf) => p k = d c k) rfl ?_
    intro i p _ _ hp
    rw [hornerCol_tail (word_ge hs hk (min_le_right _ _)) hout, hp]
  · intro i w j hj
    rw [wordByte_mapWord _ _ hj, wordByte_xor, wordByte_ldWord _ _ hj]

theorem restoreCol_pair (hne : c ≠ c1) (pbuf qbuf : Buf) (d : Stripe) :
    AgreeOff rm c d (restoreCol rm c1 d (vdevRaidzReconstructPq rm c c1 pbuf qbuf d)) := by
  constructor
  · intro c' hc
    by_cases hc1 : c' = c1
    · subst hc1
      funext k
      rw [restoreCol, update_self, bcopy]
      split_ifs with hk
      · rfl
      · rw [vdevRaidzReconstructPq, update_self, if_neg (fun h => hk h.2)]
    · rw [restoreCol, update_of_ne hc1, (reconstruct_frame rm d).2.2 _ _ hc hc1]
  · intro k hk
    rw [restoreCol, update_of_ne hne, vdevRaidzReconstructPq,
      update_of_ne hne, update_self, if_neg (not_lt.mpr hk)]

theorem AgreeOff.trans {d'' : Stripe} (h : AgreeOff rm c d d') (h' : AgreeOff rm c d' d'') :
    AgreeOff rm c d d'' := by
  refine ⟨fun c' hc => (h'.1 c' hc).trans (h.1 c' hc), ?_⟩
  intro k hk
  exact (h'.2 k hk).trans (h.2 k hk)

end Frames

/-! ## Phase 3 finds what there is to find -/

section Phase3

theorem zioChecksumOk_iff : zioChecksumOk rm orig d = true ↔ DataRight rm orig d :=
  decide_eq_true_iff

variable {reconstruct : Nat → Stripe → Stripe} {st : ReadState}

theorem tryCols_cases (hrest : ∀ c d, AgreeOff rm c d (reconstruct c d)) (cs : List Nat)
    (d : Stripe) :
    (tryCols rm orig reconstruct cs d = (d, none)
        ∧ ∀ c ∈ cs, ¬ DataRight rm orig (reconstruct c d))
      ∨ ∃ c ∈ cs, tryCols rm orig reconstruct cs d = (reconstruct c d, some c)
        ∧ DataRight rm orig (reconstruct c d) := by
  induction cs with
  | nil => exact .inl ⟨rfl, nofun⟩
  | cons c cs ih =>
    rw [tryCols]
    by_cases hok : DataRight rm orig (reconstruct c d)
    · right
      refine ⟨c, List.mem_cons_self, ?_, hok⟩
      rw [if_pos (zioChecksumOk_iff.mpr hok)]
    rw [if_neg (zioChecksumOk_iff.not.mpr hok), restoreCol_of_agreeOff (hrest c d)]
    rcases ih with ⟨heq, hall⟩ | ⟨c', hc', heq, hok'⟩
    · left
      refine ⟨heq, ?_⟩
      exact List.forall_mem_cons.mpr ⟨hok, hall⟩
    · right
      exact ⟨c', List.mem_cons_of_mem _ hc', heq, hok'⟩

/-- Some stripe that differs in column `c` only has columns `c` and `c1` rebuilt to `d'`. -/
def FromPq (ch : Children) (rm : RaidzMap) (c c1 : Nat) (d d' : Stripe) : Prop :=
  ∃ d1, AgreeOff rm c d d1
    ∧ d' = vdevRaidzReconstructPq rm c c1 (ch.freshP c c1) (ch.freshQ c c1) d1

theorem tryPairsWith_cases (cs : List Nat) (hc : c ∉ cs) {d0 : Stripe}
    (hoff : AgreeOff rm c d d0) :
    (∃ d', tryPairsWith ch rm orig c cs d0 = (d', none) ∧ AgreeOff rm c d d'
        ∧ ∀ c1 ∈ cs, ∃ d1, FromPq ch rm c c1 d d1 ∧ ¬ DataRight rm orig d1)
      ∨ ∃ c1 ∈ cs, ∃ d', tryPairsWith ch rm orig c cs d0 = (d', some c1)
        ∧ DataRight rm orig d' ∧ FromPq ch rm c c1 d d' := by
  induction cs generalizing d0 with
  | nil => exact .inl ⟨d0, rfl, hoff, nofun⟩
  | cons c1 cs ih =>
    have hne : c ≠ c1 := fun h => hc (h ▸ List.mem_cons_self)
    rw [tryPairsWith]
    by_cases hok : DataRight rm orig
        (vdevRaidzReconstructPq rm c c1 (ch.freshP c c1) (ch.freshQ c c1) d0)
    · right
      exact ⟨c1, List.mem_cons_self, _, if_pos (zioChecksumOk_iff.mpr hok), hok, d0, hoff, rfl⟩
    rw [if_neg (zioChecksumOk_iff.not.mpr hok)]
    rcases ih (fun h => hc (List.mem_cons_of_mem _ h))
        (hoff.trans (restoreCol_pair hne _ _ d0)) with
      ⟨d', heq, hoff', hall⟩ | ⟨c2, hc2, d', heq, hok', hframe⟩
    · left
      refine ⟨d', heq, hoff', ?_⟩
      exact List.forall_mem_cons.mpr ⟨⟨_, ⟨d0, hoff, rfl⟩, hok⟩, hall⟩
    · right
      exact ⟨c2, List.mem_cons_of_mem _ hc2, d', heq, hok', hframe⟩

theorem tryPairs_cases (cs : List Nat) (d : Stripe) :
    (tryPairs ch rm orig cs d = (d, none)
        ∧ ∀ c ∈ cs, ∀ c1, c < c1 → c1 < rm.rmCols →
          ∃ d1, FromPq ch rm c c1 d d1 ∧ ¬ DataRight rm orig d1)
      ∨ ∃ c ∈ cs, ∃ c1, c < c1 ∧ ∃ d', tryPairs ch rm orig cs d = (d', some (c, c1))
        ∧ DataRight rm orig d' ∧ FromPq ch rm c c1 d d' := by
  induction cs with
  | nil => exact .inl ⟨rfl, nofun⟩
  | cons c cs ih =>
    have hmem : ∀ {c1}, c1 ∈ List.range' (c + 1) (rm.rmCols - (c + 1)) ↔
        c < c1 ∧ c1 < rm.rmCols := by
      intro c1
      rw [List.mem_range'_1]
      omega
    rw [tryPairs]
    rcases tryPairsWith_cases (List.range' (c + 1) (rm.rmCols - (c + 1)))
        (fun h => absurd (hmem.mp h).1 (lt_irrefl c)) (AgreeOff.refl rm c d) with
      ⟨d', heq, hoff, hall⟩ | ⟨c1, hc1, d', heq, hok, hframe⟩
    · rw [heq]
      show (tryPairs ch rm orig cs (restoreCol rm c d d') = _ ∧ _)
        ∨ ∃ c0 ∈ c :: cs, ∃ c1, c0 < c1 ∧ ∃ d'', tryPairs ch rm orig cs (restoreCol rm c d d')
          = (d'', some (c0, c1)) ∧ _
      rw [restoreCol_of_agreeOff hoff]
      rcases ih with ⟨heq', hall'⟩ | ⟨c', hc', c1, hlt, d'', heq', hok, hframe⟩
      · left
        refine ⟨heq', ?_⟩
        exact List.forall_mem_cons.mpr ⟨fun c1 hlt hc1 => hall c1 (hmem.mpr ⟨hlt, hc1⟩), hall'⟩
      · right
        exact ⟨c', List.mem_cons_of_mem _ hc', c1, hlt, d'', heq', hok, hframe⟩
    · right
      refine ⟨c, List.mem_cons_self, c1, (hmem.mp hc1).1, d', ?_, hok, hframe⟩
      rw [heq]

theorem mem_dataCols : c ∈ dataCols rm ↔ rm.rmFirstdatacol ≤ c ∧ c < rm.rmCols := by
  rw [dataCols, List.mem_range'_1]
  omega

theorem mem_pairCols :
    c ∈ List.range' rm.rmFirstdatacol (rm.rmCols - 1 - rm.rmFirstdatacol)
      ↔ rm.rmFirstdatacol ≤ c ∧ c < rm.rmCols - 1 := by
  rw [List.mem_range'_1]
  omega

/-- What a successful phase 3 leaves: right data, by rebuilding one column or two, and parity as
    it was. -/
structure Phase3Done (ch : Children) (rm : RaidzMap) (orig : Stripe) (st st' : ReadState) :
    Prop where
  right : DataRight rm orig st'.data
  rebuilt : (∃ c, ∀ c', c' ≠ c → st'.data c' = st.data c') ∨
    ∃ c c1, c < c1 ∧ FromPq ch rm c c1 st.data st'.data
  parity : ∀ c < rm.rmFirstdatacol, st'.data c = st.data c ∧ st'.col c = st.col c

structure Phase3Failed (ch : Children) (rm : RaidzMap) (orig : Stripe) (st : ReadState) : Prop where
  p : (st.col vdevRaidzP).rcError = 0 → ∀ c, rm.rmFirstdatacol ≤ c → c < rm.rmCols →
    ¬ DataRight rm orig (vdevRaidzReconstructP rm c st.data)
  q : 1 < rm.rmFirstdatacol → (st.col vdevRaidzQ).rcError = 0 →
    ∀ c, rm.rmFirstdatacol ≤ c → c < rm.rmCols →
    ¬ DataRight rm orig (vdevRaidzReconstructQ rm c st.data)
  pq : (st.col vdevRaidzP).rcError = 0 → 1 < rm.rmFirstdatacol → (st.col vdevRaidzQ).rcError = 0 →
    ∀ c c1, rm.rmFirstdatacol ≤ c → c < c1 → c1 < rm.rmCols →
    ∃ d, FromPq ch rm c c1 st.data d ∧ ¬ DataRight rm orig d

theorem setError_col_of_ne {c c' e : Nat} (h : c' ≠ c) : (setError c e st).col c' = st.col c' :=
  update_of_ne h _ _

variable (orig) in
theorem tryColsIf_cases (p : Prop) [Decidable p] (hrest : ∀ c d, AgreeOff rm c d (reconstruct c d))
    (d : Stripe) :
    ((if p then tryCols rm orig reconstruct (dataCols rm) d else (d, none)) = (d, none)
        ∧ (p → ∀ c ∈ dataCols rm, ¬ DataRight rm orig (reconstruct c d)))
      ∨ ∃ c ∈ dataCols rm, (if p then tryCols rm orig reconstruct (dataCols rm) d else (d, none))
          = (reconstruct c d, some c) ∧ DataRight rm orig (reconstruct c d) := by
  by_cases hp : p
  · rw [if_pos hp]
    rcases tryCols_cases hrest (dataCols rm) d with ⟨heq, hall⟩ | hdone
    · exact .inl ⟨heq, fun _ => hall⟩
    · exact .inr hdone
  · rw [if_neg hp]
    exact .inl ⟨rfl, fun h => absurd h hp⟩

theorem phase3Done_col (hrest : ∀ c d, AgreeOff rm c d (reconstruct c d))
    (hc : c ∈ dataCols rm) (hok : DataRight rm orig (reconstruct c st.data)) :
    Phase3Done ch rm orig st (setError c ecksum { st with data := reconstruct c st.data }) := by
  refine ⟨hok, .inl ⟨c, (hrest c st.data).1⟩, ?_⟩
  intro c' hc'
  have hne : c' ≠ c := by
    have := (mem_dataCols.mp hc).1
    omega
  exact ⟨(hrest c st.data).1 c' hne, setError_col_of_ne hne⟩

/-- **PHASE 3** either succeeds, or every combination has been ruled out and nothing has changed. -/
theorem phase3_cases (hs : Shaped rm) (st : ReadState) :
    (∃ st', phase3 ch rm orig st = .done st' 1 ∧ Phase3Done ch rm orig st st')
      ∨ (phase3 ch rm orig st = .failed st ∧ Phase3Failed ch rm orig st) := by
  rw [phase3]
  rcases tryColsIf_cases orig ((st.col vdevRaidzP).rcError = 0)
      (fun c d => reconstructP_agreeOff hs d) st.data with
    ⟨heqP, hallP⟩ | ⟨c, hc, heqP, hok⟩
  · rw [heqP]
    rcases tryColsIf_cases orig (1 < rm.rmFirstdatacol ∧ (st.col vdevRaidzQ).rcError = 0)
        (fun c d => reconstructQ_agreeOff hs d) st.data with
      ⟨heqQ, hallQ⟩ | ⟨c, hc, heqQ, hok⟩
    · simp only [heqQ]
      have hfail := @Phase3Failed.mk ch rm orig st
        (fun hp c hlo hhi => hallP hp c (mem_dataCols.mpr ⟨hlo, hhi⟩))
        fun h1 hq c hlo hhi => hallQ ⟨h1, hq⟩ c (mem_dataCols.mpr ⟨hlo, hhi⟩)
      by_cases hpq : (st.col vdevRaidzP).rcError = 0
          ∧ 1 < rm.rmFirstdatacol ∧ (st.col vdevRaidzQ).rcError = 0
      · rw [if_pos hpq]
        rcases tryPairs_cases (List.range' rm.rmFirstdatacol (rm.rmCols - 1 - rm.rmFirstdatacol))
            st.data with ⟨heq, hall⟩ | ⟨c, hc, c1, hlt, d', heq, hok, d1, hoff, rfl⟩
        · right
          rw [heq]
          refine ⟨rfl, hfail ?_⟩
          intro _ _ _ c c1 hlo hlt hhi
          exact hall c (mem_pairCols.mpr ⟨hlo, by omega⟩) c1 hlt hhi
        left
        rw [heq]
        refine ⟨_, rfl, hok, .inr ⟨c, c1, hlt, d1, hoff, rfl⟩, ?_⟩
        intro c' hc'
        have hne : c' ≠ c ∧ c' ≠ c1 := by
          have := (mem_pairCols.mp hc).1
          omega
        refine ⟨((reconstruct_frame rm d1).2.2 _ _ hne.1 hne.2).trans (hoff.1 c' hne.1), ?_⟩
        rw [setError_col_of_ne hne.2, setError_col_of_ne hne.1]
      · right
        rw [if_neg hpq]
        exact ⟨rfl, hfail fun hp h1 hq => absurd ⟨hp, h1, hq⟩ hpq⟩
    · left
      refine ⟨_, ?_, phase3Done_col (fun c d => reconstructQ_agreeOff hs d) hc hok⟩
      simp only [heqQ]
  · left
    refine ⟨_, ?_, phase3Done_col (fun c d => reconstructP_agreeOff hs d) hc hok⟩
    rw [heqP]

end Phase3

/-! ## Phase 1 -/

section Phase1

variable {t : Tally}

section

variable (hg : t.ioNumerrors ≤ rm.rmFirstdatacol - t.parityUntried)

include hg

theorem phase1_zero (h0 : t.dataErrors = 0) :
    phase1 ch flags rm orig st t
      = if zioChecksumOk rm orig st.data then
          phase1Done rm st t
            (t.parityErrors + t.parityUntried < rm.rmFirstdatacol ∨ flags.resilver = true)
        else .failed st := by
  rw [phase1, if_pos hg, h0]
  rfl

def phase1One (rm : RaidzMap) (st : ReadState) (c : Nat) : Stripe :=
  if (st.col vdevRaidzP).rcError = 0 then vdevRaidzReconstructP rm c st.data
  else vdevRaidzReconstructQ rm c st.data

theorem phase1_one (h1 : t.dataErrors = 1) (hc : firstError rm st rm.rmFirstdatacol = c) :
    phase1 ch flags rm orig st t
      = if zioChecksumOk rm orig (phase1One rm st c) then
          phase1Done rm { st with data := phase1One rm st c } t
            (t.parityErrors < rm.rmFirstdatacol - 1 ∨ flags.resilver = true)
        else .failed { st with data := phase1One rm st c } := by
  subst hc
  rw [phase1, if_pos hg, h1]
  rfl

/-- What phase 1 reconstructs when two data columns are missing. -/
def phase1Two (ch : Children) (rm : RaidzMap) (st : ReadState) (c1 c : Nat) : Stripe :=
  vdevRaidzReconstructPq rm c1 c (ch.freshP c1 c) (ch.freshQ c1 c) st.data

theorem phase1_two (h2 : t.dataErrors = 2) {c1 c : Nat}
    (hc1 : firstError rm st rm.rmFirstdatacol = c1) (hc : firstError rm st (c1 + 1) = c) :
    phase1 ch flags rm orig st t
      = if zioChecksumOk rm orig (phase1Two ch rm st c1 c) then
          .done { st with data := phase1Two ch rm st c1 c } t.unexpectedErrors
        else .failed { st with data := phase1Two ch rm st c1 c } := by
  subst hc1
  subst hc
  rw [phase1, if_pos hg, h2]
  rfl

end

theorem phase1_many (h3 : 2 < t.dataErrors) : phase1 ch flags rm orig st t = .failed st := by
  obtain ⟨n, hn⟩ : ∃ n, t.dataErrors = n + 3 := ⟨t.dataErrors - 3, by omega⟩
  by_cases hg : t.ioNumerrors ≤ rm.rmFirstdatacol - t.parityUntried
  · rw [phase1, if_pos hg, hn]
    rfl
  · rw [phase1, if_neg hg]

theorem phase1_guard (hg : ¬ t.ioNumerrors ≤ rm.rmFirstdatacol - t.parityUntried) :
    phase1 ch flags rm orig st t = .failed st := by
  rw [phase1, if_neg hg]

theorem firstError_one {x : Nat} (hx : dataErrs rm st = {x}) :
    firstError rm st rm.rmFirstdatacol = x ∧ x < rm.rmCols ∧ rm.rmFirstdatacol ≤ x
      ∧ (st.col x).rcError ≠ 0 := by
  have hmem : x ∈ dataErrs rm st := hx ▸ mem_singleton_self x
  obtain ⟨hlt, herr, hlo⟩ := mem_dataErrs.mp hmem
  refine ⟨firstError_eq hlo hlt herr ?_, hlt, hlo, herr⟩
  intro c hclo hcx
  by_contra hne
  have : c ∈ dataErrs rm st := mem_dataErrs.mpr ⟨lt_trans hcx hlt, hne, hclo⟩
  rw [hx, mem_singleton] at this
  omega

theorem exists_pair_lt (h : s.card = 2) : ∃ x y, x < y ∧ s = {x, y} := by
  obtain ⟨a, b, hab, rfl⟩ := card_eq_two.mp h
  rcases lt_or_gt_of_ne hab with hlt | hlt
  · exact ⟨a, b, hlt, rfl⟩
  · exact ⟨b, a, hlt, pair_comm a b⟩

theorem firstError_two {x y : Nat} (hxy : x < y) (hpair : dataErrs rm st = {x, y}) :
    firstError rm st rm.rmFirstdatacol = x ∧ firstError rm st (x + 1) = y
      ∧ rm.rmFirstdatacol ≤ x ∧ y < rm.rmCols ∧ (st.col x).rcError ≠ 0
      ∧ (st.col y).rcError ≠ 0 := by
  have hmx : x ∈ dataErrs rm st := hpair ▸ mem_pair.mpr (.inl rfl)
  have hmy : y ∈ dataErrs rm st := hpair ▸ mem_pair.mpr (.inr rfl)
  obtain ⟨hltx, herrx, hlox⟩ := mem_dataErrs.mp hmx
  obtain ⟨hlty, herry, -⟩ := mem_dataErrs.mp hmy
  have hother : ∀ c, rm.rmFirstdatacol ≤ c → c < y → c ≠ x → (st.col c).rcError = 0 := by
    intro c hclo hcy hcx
    by_contra hne
    have hc : c ∈ dataErrs rm st := mem_dataErrs.mpr ⟨lt_trans hcy hlty, hne, hclo⟩
    rw [hpair, mem_pair] at hc
    omega
  refine ⟨firstError_eq hlox hltx herrx ?_, firstError_eq hxy hlty herry ?_, hlox, hlty,
    herrx, herry⟩
  · intro c hclo hcx
    exact hother c hclo (Nat.lt_trans hcx hxy) (Nat.ne_of_lt hcx)
  · intro c hclo hcy
    exact hother c (le_trans hlox (le_of_lt hclo)) hcy (ne_of_gt hclo)

theorem raidzParityVerify_data (rm : RaidzMap) (st : ReadState) :
    (raidzParityVerify rm st).1.data = vdevRaidzGenerateParity rm st.data := by
  refine forRange_inv (zero_le _)
    (fun _ (s : ReadState × Nat) => s.1.data = vdevRaidzGenerateParity rm st.data) rfl ?_
  intro c s _ _ h
  split_ifs <;> exact h

theorem dataRight_generateParity (hp : OneOrTwo rm) (h : DataRight rm orig d) :
    DataRight rm orig (vdevRaidzGenerateParity rm d) := by
  intro c hc hlo k hk
  rw [generateParity_data hp hlo]
  exact h c hc hlo k hk

theorem phase1Done_right (hp : OneOrTwo rm) (h : DataRight rm orig st.data) (verify : Bool) :
    ∃ st' n, phase1Done rm st t verify = .done st' n ∧ DataRight rm orig st'.data
      ∧ ∀ c, rm.rmFirstdatacol ≤ c → st'.data c = st.data c := by
  cases verify with
  | true =>
    refine ⟨_, _, rfl, ?_⟩
    rw [raidzParityVerify_data]
    exact ⟨dataRight_generateParity hp h, fun c hc => generateParity_data hp hc⟩
  | false => exact ⟨_, _, rfl, h, fun _ _ => rfl⟩

theorem phase1One_frame {x c : Nat} (hc : c ≠ x) : phase1One rm st x c = st.data c := by
  rw [phase1One]
  split_ifs
  · exact (reconstruct_frame (y := x) rm st.data).1 hc
  · exact (reconstruct_frame (y := x) rm st.data).2.1 hc

variable (ch flags orig) in
/-- **PHASE 1** ends with right data or fails; data columns not in error stay as they were. -/
theorem phase1_cases (hp : OneOrTwo rm) (ht : t = tally rm st) :
    (∃ st' n, phase1 ch flags rm orig st t = .done st' n ∧ DataRight rm orig st'.data
        ∧ ∀ c, rm.rmFirstdatacol ≤ c → (st.col c).rcError = 0 → st'.data c = st.data c)
      ∨ ∃ d', phase1 ch flags rm orig st t = .failed { st with data := d' }
        ∧ ∀ c, (st.col c).rcError = 0 ∨ c < rm.rmFirstdatacol → d' c = st.data c := by
  have hcard : t.dataErrors = (dataErrs rm st).card := ht ▸ tally_data rm st
  by_cases hg : t.ioNumerrors ≤ rm.rmFirstdatacol - t.parityUntried
  · rcases hn : t.dataErrors with _ | _ | _ | n
    · rw [phase1_zero hg hn]
      by_cases hok : zioChecksumOk rm orig st.data
      · rw [if_pos hok]
        obtain ⟨st', n, heq, hright, hframe⟩ := phase1Done_right hp (zioChecksumOk_iff.mp hok) _
        exact .inl ⟨st', n, heq, hright, fun c hc _ => hframe c hc⟩
      · rw [if_neg hok]
        exact .inr ⟨st.data, rfl, fun _ _ => rfl⟩
    · obtain ⟨x, hx⟩ := card_eq_one.mp (hcard.symm.trans hn)
      obtain ⟨hfirst, -, hlo, herr⟩ := firstError_one hx
      rw [phase1_one hg hn hfirst]
      have hframe : ∀ c, (st.col c).rcError = 0 ∨ c < rm.rmFirstdatacol →
          phase1One rm st x c = st.data c := by
        rintro c (hc | hc)
        · exact phase1One_frame (fun h => herr (h ▸ hc))
        · exact phase1One_frame (fun h => absurd hlo (not_le.mpr (h ▸ hc)))
      by_cases hok : zioChecksumOk rm orig (phase1One rm st x)
      · rw [if_pos hok]
        have hdata : DataRight rm orig { st with data := phase1One rm st x }.data :=
          zioChecksumOk_iff.mp hok
        obtain ⟨st', n, heq, hright, hframe'⟩ := phase1Done_right (t := t) hp hdata _
        exact .inl ⟨st', n, heq, hright, fun c hc h0 => (hframe' c hc).trans (hframe c (.inl h0))⟩
      · rw [if_neg hok]
        exact .inr ⟨_, rfl, hframe⟩
    · obtain ⟨x, y, hxy, hpair⟩ := exists_pair_lt (hcard.symm.trans hn)
      obtain ⟨hfx, hfy, hlo, -, hex, hey⟩ := firstError_two hxy hpair
      rw [phase1_two hg hn hfx hfy]
      have hframe : ∀ c, (st.col c).rcError = 0 ∨ c < rm.rmFirstdatacol →
          phase1Two ch rm st x y c = st.data c := by
        rintro c (hc | hc)
        · exact (reconstruct_frame rm st.data).2.2 _ _ (fun h => hex (h ▸ hc)) fun h => hey (h ▸ hc)
        · exact (reconstruct_frame rm st.data).2.2 _ _ (by omega) (by omega)
      by_cases hok : zioChecksumOk rm orig (phase1Two ch rm st x y)
      · rw [if_pos hok]
        exact .inl ⟨_, _, rfl, zioChecksumOk_iff.mp hok, fun c _ h0 => hframe c (.inl h0)⟩
      · rw [if_neg hok]
        exact .inr ⟨_, rfl, hframe⟩
    · rw [phase1_many (by omega)]
      exact .inr ⟨st.data, rfl, fun _ _ => rfl⟩
  · rw [phase1_guard hg]
    exact .inr ⟨st.data, rfl, fun _ _ => rfl⟩

end Phase1

/-! ## Bad columns and the four plans -/

section Plans

/-- A column that reads cannot be trusted with: unreadable, stale, failing, or
    silently returning something else than what was written. -/
def BadCol (ch : Children) (rm : RaidzMap) (orig : Stripe) (c : Nat) : Prop :=
  ch.readable c = false ∨ ch.stale c = true ∨ ch.error c ≠ 0
    ∨ ∃ k < (rm.rmCol c).rcSize, ch.bytes c k ≠ vdevRaidzGenerateParity rm orig c k

instance (c : Nat) : Decidable (BadCol ch rm orig c) :=
  inferInstanceAs (Decidable (_ ∨ _ ∨ _ ∨ ∃ k < _, _))

/-- The children once every column has been read: a stale column is as bad as what it holds. -/
def Children.reread (ch : Children) : Children := { ch with stale := fun _ => false }

def badCols (ch : Children) (rm : RaidzMap) (orig : Stripe) : Finset Nat :=
  (range rm.rmCols).filter (BadCol ch rm orig)

theorem mem_badCols : c ∈ badCols ch rm orig ↔ c < rm.rmCols ∧ BadCol ch rm orig c := by
  rw [badCols, mem_filter, mem_range]

theorem badCols_reread : badCols ch.reread rm orig ⊆ badCols ch rm orig := by
  intro c hc
  obtain ⟨hlt, h | h | h⟩ := mem_badCols.mp hc
  · exact mem_badCols.mpr ⟨hlt, .inl h⟩
  · exact Bool.noConfusion h
  · exact mem_badCols.mpr ⟨hlt, .inr (.inr h)⟩

/-- How parity covers a set of bad columns: no data column is bad, or one is
    rebuilt from P, or from Q because P is bad too, or two from both. -/
inductive Plan (f : Nat) (bad : Finset Nat) : Prop where
  | none (h : ∀ c ∈ bad, ¬ f ≤ c)
  | p (x : Nat) (hx : x ∈ bad) (hlo : f ≤ x) (hP : vdevRaidzP ∉ bad) (h : ∀ c ∈ bad, f ≤ c → c = x)
  | q (x : Nat) (hf : f = 2) (hx : x ∈ bad) (hlo : f ≤ x) (hP : vdevRaidzP ∈ bad)
      (hQ : vdevRaidzQ ∉ bad) (h : ∀ c ∈ bad, f ≤ c → c = x)
  | pq (x y : Nat) (hf : f = 2) (hx : x ∈ bad) (hy : y ∈ bad) (hlo : f ≤ x) (hxy : x < y)
      (hP : vdevRaidzP ∉ bad) (hQ : vdevRaidzQ ∉ bad) (h : ∀ c ∈ bad, f ≤ c → c = x ∨ c = y)

theorem two_of_card {f x y : Nat} (hf : f = 1 ∨ f = 2) (hcard : bad.card ≤ f)
    (hx : x ∈ bad) (hy : y ∈ bad) (hne : x ≠ y) : f = 2 ∧ ∀ c ∈ bad, c = x ∨ c = y := by
  have hpair : {x, y} ⊆ bad := insert_subset hx (singleton_subset_iff.mpr hy)
  have h2 : 2 ≤ bad.card := card_pair hne ▸ card_le_card hpair
  have heq : {x, y} = bad := eq_of_subset_of_card_le hpair (by rw [card_pair hne]; omega)
  exact ⟨by omega, fun c hc => mem_pair.mp (heq ▸ hc)⟩

/-- **COVERED**: as many bad columns as parity columns always leave a plan. -/
theorem plan_of_card {f : Nat} (hf : f = 1 ∨ f = 2) (hcard : bad.card ≤ f) : Plan f bad := by
  by_cases hnone : ∀ c ∈ bad, ¬ f ≤ c
  · exact .none hnone
  push Not at hnone
  obtain ⟨x, hx, hlo⟩ := hnone
  by_cases hone : ∀ c ∈ bad, f ≤ c → c = x
  · by_cases hP : vdevRaidzP ∈ bad
    · -- two bad columns already, so f = 2 and Q is good
      have hPx : vdevRaidzP ≠ x := by
        show 0 ≠ x
        omega
      obtain ⟨hf2, htwo⟩ := two_of_card hf hcard hP hx hPx
      refine .q x hf2 hx hlo hP (fun hQ => ?_) hone
      have h1 : 1 = x := (htwo _ hQ).resolve_left (by decide)
      omega
    · exact .p x hx hlo hP hone
  · push Not at hone
    obtain ⟨y, hy, hloy, hne⟩ := hone
    obtain ⟨hf2, htwo⟩ := two_of_card hf hcard hx hy hne.symm
    have hsmall : ∀ c < 2, c ∉ bad := by
      intro c hc hbad
      have := htwo c hbad
      omega
    have hP := hsmall vdevRaidzP (by decide)
    have hQ := hsmall vdevRaidzQ (by decide)
    rcases lt_or_gt_of_ne hne with hlt | hlt
    · exact .pq y x hf2 hy hx hloy hlt hP hQ fun c hc _ => (htwo c hc).symm
    · exact .pq x y hf2 hx hy hlo hlt hP hQ fun c hc _ => htwo c hc

variable {bad : Finset Nat}

/-- Columns 255 apart have the same coefficient in Q: the first is rebuilt as zeros. -/
theorem reconstructPq_255 {lost : Finset Nat} {x y k : Nat} (hs : Shaped rm)
    (hq : rm.rmFirstdatacol = 2) (hlo : rm.rmFirstdatacol ≤ x) (hy : y = x + 255)
    (hlast : y + 1 = rm.rmCols) (pbuf qbuf : Buf)
    (hsv : Survives rm (vdevRaidzGenerateParity rm d) d' lost) (hP : vdevRaidzP ∉ lost)
    (hQ : vdevRaidzQ ∉ lost) (hlost : ∀ c ∈ lost, rm.rmFirstdatacol ≤ c → c = x ∨ c = y)
    (hk : k < (rm.rmCol x).rcSize) : vdevRaidzReconstructPq rm x y pbuf qbuf d' x k = 0#8 := by
  have hk0 := Nat.lt_of_lt_of_le hk (hs.anti _ _ (Nat.zero_le x))
  have hxy : x < y := by omega
  have hhi : y < rm.rmCols := by omega
  obtain ⟨hp, hq'⟩ := parity_add_hidden hsv hlost hq hs hlo hxy hhi hP hQ pbuf qbuf hk0
  have hi : rm.rmCols - 1 - x = 255 := by omega
  have hj : rm.rmCols - 1 - y = 0 := by omega
  have hxy0 : 255 + x - y = 0 := by omega
  have haexp : vdevRaidzLog2 (vdevRaidzExp2 (vdevRaidzPow2 0)
      (255 - vdevRaidzLog2 (vdevRaidzPow2 0 ^^^ 1#8))) = 0 := by decide
  have hper : gf.pow 255 (Gf256.of (dataByte rm d x k)) = Gf256.of (dataByte rm d x k) :=
    gf.pow_period _
  rw [hi, hj, hper, gf.pow_zero] at hq'
  rw [vdevRaidzReconstructPq, update_of_ne (Nat.ne_of_lt hxy), update_self, if_pos hk]
  refine Gf256.of_inj ?_
  rw [hi, hxy0, haexp, Gf256.of_xor, Gf256.of_exp2 (zero_le _), Gf256.of_exp2 (zero_le _),
    gf.pow_zero, gf.pow_zero, Gf256.of_xor, Gf256.of_xor]
  rw [scratch] at hp hq'
  rw [hp, hq', gf.char_two]
  rfl

section

variable (hsv : Survives rm (vdevRaidzGenerateParity rm orig) d bad)

include hsv

theorem survivor_data (hp : OneOrTwo rm) {c k : Nat}
    (hc : c < rm.rmCols) (hlo : rm.rmFirstdatacol ≤ c) (hbad : c ∉ bad)
    (hk : k < (rm.rmCol c).rcSize) : d c k = orig c k := by
  rw [hsv c hc hbad k hk, generateParity_data hp hlo]

theorem dataRight_of_rebuilt (hp : OneOrTwo rm) {X : Nat → Prop}
    (h : ∀ c ∈ bad, rm.rmFirstdatacol ≤ c → X c)
    (hright : ∀ c, X c → ∀ k < (rm.rmCol c).rcSize, d' c k = orig c k)
    (hframe : ∀ c, ¬ X c → d' c = d c) : DataRight rm orig d' := by
  intro c hc hclo k hk
  by_cases hX : X c
  · exact hright c hX k hk
  · rw [hframe c hX]
    exact survivor_data hsv hp hc hclo (fun hb => hX (h c hb hclo)) hk

variable (hs : Shaped rm) {x : Nat} (hlo : rm.rmFirstdatacol ≤ x)

include hs hlo

theorem dataRight_p (hp : OneOrTwo rm) (hhi : x < rm.rmCols)
    (hP : vdevRaidzP ∉ bad) (h : ∀ c ∈ bad, rm.rmFirstdatacol ≤ c → c = x) :
    DataRight rm orig (vdevRaidzReconstructP rm x d) := by
  refine dataRight_of_rebuilt hsv hp h ?_ fun c => (reconstruct_frame (y := x) rm d).1
  rintro c rfl k hk
  exact reconstructP_byte hsv hs hlo hhi hP hk hp h

variable (hf : rm.rmFirstdatacol = 2) (hcols : rm.rmCols - rm.rmFirstdatacol ≤ 256)

include hf hcols

theorem dataRight_q (hhi : x < rm.rmCols) (hQ : vdevRaidzQ ∉ bad)
    (h : ∀ c ∈ bad, rm.rmFirstdatacol ≤ c → c = x) :
    DataRight rm orig (vdevRaidzReconstructQ rm x d) := by
  refine dataRight_of_rebuilt hsv (.inr hf) h ?_ fun c =>
    (reconstruct_frame (y := x) rm d).2.1
  rintro c rfl k hk
  exact reconstructQ_byte hsv hs hf hcols hlo hhi hQ h hk

theorem dataRight_pq {y : Nat} (hxy : x < y)
    (hd : y - x = 255 → ∀ k < (rm.rmCol x).rcSize, orig x k = 0#8) (hhi : y < rm.rmCols)
    (hP : vdevRaidzP ∉ bad) (hQ : vdevRaidzQ ∉ bad)
    (h : ∀ c ∈ bad, rm.rmFirstdatacol ≤ c → c = x ∨ c = y) (pbuf qbuf : Buf) :
    DataRight rm orig (vdevRaidzReconstructPq rm x y pbuf qbuf d) := by
  obtain ⟨hx, hy⟩ : (∀ k < (rm.rmCol x).rcSize,
      vdevRaidzReconstructPq rm x y pbuf qbuf d x k = orig x k) ∧ ∀ k < (rm.rmCol y).rcSize,
      vdevRaidzReconstructPq rm x y pbuf qbuf d y k = orig y k := by
    by_cases hapart : y - x = 255
    · have hx : ∀ k < (rm.rmCol x).rcSize,
          vdevRaidzReconstructPq rm x y pbuf qbuf d x k = orig x k := by
        intro k hk
        rw [hd hapart k hk]
        exact reconstructPq_255 hs hf hlo (by omega) (by omega) pbuf qbuf hsv hP hQ h hk
      exact ⟨hx, reconstructPq_second hsv h hf hs hlo hxy hhi hP hQ pbuf qbuf hx⟩
    · exact reconstructPq_byte hsv h hf hs hlo hxy hhi hP hQ pbuf qbuf hcols (by omega)
  refine dataRight_of_rebuilt hsv (.inr hf) h ?_ fun c hc =>
    (reconstruct_frame rm d).2.2 _ _ (fun hcx => hc (.inl hcx)) fun hcy => hc (.inr hcy)
  rintro c (rfl | rfl) k hk
  · exact hx k hk
  · exact hy k hk

end

end Plans

/-! ## What the columns know -/

/-- What is known of column `c`, in state `io` with a buffer `b`. -/
inductive Known (ch : Children) (f c : Nat) (b : Buf) : ColIo → Prop
  | unreadable (h : ch.readable c = false) : Known ch f c b ⟨enxio, true, true⟩
  | stale (hread : ch.readable c = true) (h : ch.stale c = true) :
      Known ch f c b ⟨estale, false, true⟩
  | tried (hread : ch.readable c = true) (h : ch.error c = 0 → b = ch.bytes c) :
      Known ch f c b (vdevRaidzChildDone (ch.error c))
  /-- Only parity is not read at first. -/
  | untried (hread : ch.readable c = true) (hc : c < f) {io : ColIo} (h0 : io.rcError = 0)
      (h : io.rcTried = false) : Known ch f c b io

/-- Errors are reported by bad columns only, and a column that was read without
    an error holds what its child returned. -/
def Sound (ch : Children) (rm : RaidzMap) (st : ReadState) : Prop :=
  ∀ c < rm.rmCols, Known ch rm.rmFirstdatacol c (st.data c) (st.col c)

theorem Known.badCol {f : Nat} {b : Buf} {io : ColIo} (h : Known ch f c b io)
    (he : io.rcError ≠ 0) : BadCol ch rm orig c := by
  cases h with
  | unreadable h => exact .inl h
  | stale _ h => exact .inr (.inl h)
  | tried => exact .inr (.inr (.inl he))
  | untried _ _ h0 => exact absurd h0 he

theorem Known.bytes {f : Nat} {b : Buf} {io : ColIo} (h : Known ch f c b io) (h0 : io.rcError = 0)
    (ht : c < f → io.rcTried = true) :
    ch.readable c = true ∧ ch.error c = 0 ∧ b = ch.bytes c := by
  cases h with
  | unreadable | stale => cases h0
  | tried hread h => exact ⟨hread, h0, h h0⟩
  | untried _ hc _ hun => exact nomatch (ht hc).symm.trans hun

theorem Known.readable {f : Nat} {b : Buf} {io : ColIo} (h : Known ch f c b io)
    (hun : io.rcTried = false) : ch.readable c = true := by
  cases h with
  | unreadable | tried => cases hun
  | stale hread | untried hread => exact hread

def Fresh (rm : RaidzMap) : Prop := ∀ c, (rm.rmCol c).rcError = 0 ∧ (rm.rmCol c).rcTried = false

theorem swapFirst_fresh {col : Nat → RaidzCol}
    (h : ∀ c, (col c).rcError = 0 ∧ (col c).rcTried = false) :
    ∀ c, (swapFirst col c).rcError = 0 ∧ (swapFirst col c).rcTried = false
  | 0 => h 0
  | 1 => h 1
  | c + 2 => h (c + 2)

theorem vdevRaidzMapAlloc_fresh (zio : Zio) (unitShift dcols nparity : Nat) :
    Fresh (vdevRaidzMapAlloc zio unitShift dcols nparity) := by
  intro c
  rw [rmCol_eq]
  split_ifs
  · exact swapFirst_fresh (fun _ => ⟨rfl, rfl⟩) c
  · exact ⟨rfl, rfl⟩

variable (ch flags rm) in
/-- **Step lemma** of `vdev_raidz_io_start`: it settles what is known of its column, and leaves
    the others alone. -/
theorem ioStartCol_known (h0 : (st.col c).rcError = 0) (hun : (st.col c).rcTried = false) :
    Known ch rm.rmFirstdatacol c ((ioStartCol ch flags rm c st).data c)
        ((ioStartCol ch flags rm c st).col c)
      ∧ ∀ c', c' ≠ c → (ioStartCol ch flags rm c st).col c' = st.col c'
        ∧ (ioStartCol ch flags rm c st).data c' = st.data c' := by
  rw [ioStartCol]
  split_ifs with hread hstale hissue
  · rw [missCol_col_self]
    exact ⟨.unreadable hread, fun c' hc => ⟨missCol_col_of_ne hc, rfl⟩⟩
  · rw [missCol_col_self, hun]
    exact ⟨.stale (Bool.eq_true_of_not_eq_false hread) hstale,
      fun c' hc => ⟨missCol_col_of_ne hc, rfl⟩⟩
  · rw [readCol_col_self, readCol_data_self]
    exact ⟨.tried (Bool.eq_true_of_not_eq_false hread) fun _ => rfl,
      fun c' hc => ⟨readCol_col_of_ne hc, readCol_data_of_ne hc⟩⟩
  · push Not at hissue
    exact ⟨.untried (Bool.eq_true_of_not_eq_false hread) hissue.1 h0 hun, fun _ _ => ⟨rfl, rfl⟩⟩

theorem vdevRaidzIoStart_sound (hfresh : Fresh rm) (d : Stripe) :
    Sound ch rm (vdevRaidzIoStart ch flags rm d) := by
  -- the columns from `rm.rmCols - i` on are settled, the others as they were
  have hinv := forRange_inv (zero_le rm.rmCols)
    (b := fun i st => ioStartCol ch flags rm (rm.rmCols - 1 - i) st) (s := initState rm d)
    (fun i (st : ReadState) => ∀ c < rm.rmCols,
      (rm.rmCols - i ≤ c → Known ch rm.rmFirstdatacol c (st.data c) (st.col c)) ∧
      (c < rm.rmCols - i → (st.col c).rcError = 0 ∧ (st.col c).rcTried = false)) ?_ ?_
  · intro c hc
    exact (hinv c hc).1 (by omega)
  · intro c hc
    exact ⟨fun h => by omega, fun _ => hfresh c⟩
  intro i st _ hi hst c hc
  obtain ⟨h0, hun⟩ := (hst (rm.rmCols - 1 - i) (by omega)).2 (by omega)
  obtain ⟨hknown, hframe⟩ := ioStartCol_known ch flags rm h0 hun
  by_cases hci : c = rm.rmCols - 1 - i
  · subst hci
    exact ⟨fun _ => hknown, fun h => by omega⟩
  · rw [(hframe c hci).1, (hframe c hci).2]
    exact ⟨fun h => (hst c hc).1 (by omega), fun h => (hst c hc).2 (by omega)⟩

def AllTried (rm : RaidzMap) (st : ReadState) : Prop := ∀ c < rm.rmCols, (st.col c).rcTried = true

theorem someUntried_iff : someUntried rm st = false ↔ AllTried rm st := by
  rw [someUntried, decide_eq_false_iff_not]
  constructor
  · intro h c hc
    by_contra hne
    exact h ⟨c, hc, Bool.eq_false_of_not_eq_true hne⟩
  · rintro h ⟨c, hc, hfalse⟩
    exact nomatch (h c hc).symm.trans hfalse

theorem tally_untried (hall : AllTried rm st) : (tally rm st).parityUntried = 0 := by
  rw [(tally_inv rm st).untried, count_iff_forall_not]
  rintro c hc ⟨-, -, hfalse⟩
  exact nomatch (hall c hc).symm.trans hfalse

section

variable (h : Sound ch rm st)

include h

theorem readUntried_sound :
    Sound ch rm (readUntried ch rm st) ∧ AllTried rm (readUntried ch rm st) := by
  have hinv := forRange_inv (zero_le rm.rmCols)
    (b := fun c s => if (s.col c).rcTried then s else readCol ch c s) (s := st)
    (fun i (s : ReadState) => Sound ch rm s ∧ ∀ c < i, (s.col c).rcTried = true) ?_ ?_
  · exact hinv
  · exact ⟨h, fun c hc => absurd hc (not_lt_zero c)⟩
  rintro i s _ hi ⟨hsound, htried⟩
  split_ifs with hti
  · refine ⟨hsound, fun c hc => ?_⟩
    rcases Nat.lt_succ_iff_lt_or_eq.mp hc with hlt | rfl
    · exact htried c hlt
    · exact hti
  have hread := (hsound i hi).readable (Bool.eq_false_of_not_eq_true hti)
  refine ⟨fun c hc => ?_, fun c hc => ?_⟩
  · by_cases hci : c = i
    · subst hci
      rw [readCol_col_self, readCol_data_self]
      exact .tried hread fun _ => rfl
    · rw [readCol_col_of_ne hci, readCol_data_of_ne hci]
      exact hsound c hc
  · by_cases hci : c = i
    · subst hci
      rw [readCol_col_self]
      rfl
    · rw [readCol_col_of_ne hci]
      exact htried c (by omega)

theorem Sound.withData (hd : ∀ c, (st.col c).rcError = 0 → d c = st.data c) (md mp : Nat) :
    Sound ch rm ⟨md, mp, st.col, d⟩ := by
  intro c hc
  have hknown := h c hc
  have hdc := hd c
  generalize st.col c = io at hknown hdc
  cases hknown with
  | unreadable h => exact .unreadable h
  | stale hread h => exact .stale hread h
  | tried hread h => exact .tried hread fun h0 => (hdc h0).trans (h h0)
  | untried hread hf h0 hun => exact .untried hread hf h0 hun

/-- Once every column has been read, none is stale. -/
theorem Sound.reread (hall : AllTried rm st) : Sound ch.reread rm st := by
  intro c hc
  have hknown := h c hc
  have ht := hall c hc
  generalize st.col c = io at hknown ht ⊢
  cases hknown with
  | unreadable h => exact .unreadable h
  | stale => cases ht
  | tried hread h => exact .tried hread h
  | untried _ _ _ hun => exact nomatch ht.symm.trans hun

theorem errs_subset : errs rm st ⊆ badCols ch rm orig := by
  intro c hc
  obtain ⟨hlt, herr⟩ := mem_errs.mp hc
  exact mem_badCols.mpr ⟨hlt, (h c hlt).badCol herr⟩

theorem error_of_not_bad (hc : c < rm.rmCols) (hbad : c ∉ badCols ch rm orig) :
    (st.col c).rcError = 0 := by
  by_contra hne
  exact hbad (mem_badCols.mpr ⟨hc, (h c hc).badCol hne⟩)

variable (orig) in
theorem Sound.survives (hun : (tally rm st).parityUntried = 0) :
    Survives rm (vdevRaidzGenerateParity rm orig) st.data (badCols ch rm orig) := by
  intro c hc hbad k hk
  have herr := error_of_not_bad h hc hbad
  have htried : c < rm.rmFirstdatacol → (st.col c).rcTried = true := by
    intro hlt
    rw [(tally_inv rm st).untried, count_iff_forall_not] at hun
    by_contra hne
    exact hun c hc ⟨herr, hlt, Bool.eq_false_of_not_eq_true hne⟩
  obtain ⟨-, -, hbytes⟩ := (h c hc).bytes herr htried
  rw [hbytes]
  by_contra hne
  exact hbad (mem_badCols.mpr ⟨hc, .inr (.inr (.inr ⟨k, hk, hne⟩))⟩)

end

/-! ## One call of `vdev_raidz_io_done` -/

def phase1Left (st : ReadState) (d : Stripe) : ReadState := ⟨0, 0, st.col, d⟩

theorem ioDone_of_done {n : Nat} (h : phase1 ch flags rm orig st (tally rm st) = .done st' n) :
    vdevRaidzIoDone ch flags rm orig st = finishIo flags 0 st' n := by
  rw [vdevRaidzIoDone, h]

theorem ioDone_of_failed
    (h : phase1 ch flags rm orig st (tally rm st) = .failed { st with data := d }) :
    vdevRaidzIoDone ch flags rm orig st
      = if someUntried rm (phase1Left st d) then .reread (readUntried ch rm (phase1Left st d))
        else if rm.rmFirstdatacol ≤ (tally rm st).ioNumerrors then
          finishIo flags (tally rm st).ioError (phase1Left st d) 1
        else
          match phase3 ch rm orig (phase1Left st d) with
          | .done st'' n => finishIo flags 0 st'' n
          | .failed st'' => finishIo flags ecksum st'' 1 := by
  rw [vdevRaidzIoDone, h]
  rfl

theorem someUntried_of_not (hun : ¬ AllTried rm st) : someUntried rm (phase1Left st d) = true := by
  by_contra hne
  exact hun (someUntried_iff.mp (Bool.eq_false_of_not_eq_true hne))

variable (flags) in
theorem ioDone_of_untried (hp : OneOrTwo rm) (h : Sound ch rm st) (hun : ¬ AllTried rm st) :
    (∃ st' r, vdevRaidzIoDone ch flags rm orig st = .finished 0 st' r
        ∧ DataRight rm orig st'.data)
      ∨ ∃ st', vdevRaidzIoDone ch flags rm orig st = .reread st' ∧ Sound ch rm st'
        ∧ AllTried rm st' := by
  rcases phase1_cases ch flags orig hp rfl with
    ⟨st', n, heq, hright, -⟩ | ⟨d, heq, hd⟩
  · left
    exact ⟨st', _, ioDone_of_done heq, hright⟩
  right
  rw [ioDone_of_failed heq, if_pos (someUntried_of_not hun)]
  exact ⟨_, rfl, readUntried_sound (h.withData (fun c hc => hd c (.inl hc)) 0 0)⟩

variable (ch flags orig) in
theorem ioDone_of_allTried (hs : Shaped rm) (hp : OneOrTwo rm) (hall : AllTried rm st) :
    ∃ e st' r, vdevRaidzIoDone ch flags rm orig st = .finished e st' r
      ∧ (e = 0 → DataRight rm orig st'.data) := by
  rcases phase1_cases ch flags orig hp rfl with
    ⟨st', n, heq, hright, -⟩ | ⟨d, heq, -⟩
  · exact ⟨0, st', _, ioDone_of_done heq, fun _ => hright⟩
  have hnone : someUntried rm (phase1Left st d) = false := someUntried_iff.mpr hall
  rw [ioDone_of_failed heq, hnone]
  by_cases hnum : rm.rmFirstdatacol ≤ (tally rm st).ioNumerrors
  · rw [if_pos hnum]
    refine ⟨_, _, _, rfl, ?_⟩
    intro he
    have := (tally_inv rm st).error.mp he
    omega
  · rw [if_neg hnum]
    rcases phase3_cases hs (phase1Left st d) with ⟨st', heq3, hdone⟩ | ⟨heq3, -⟩
    · rw [heq3]
      exact ⟨0, st', _, rfl, fun _ => hdone.right⟩
    · rw [heq3]
      exact ⟨ecksum, _, _, rfl, fun he => absurd he (by decide)⟩

/-- Bad columns that parity covers: no more of them than parity columns, and the first of two
    data columns 255 apart, to which `2^255 = 1` gives one coefficient, is all zeros. -/
structure Covered (rm : RaidzMap) (orig : Stripe) (bad : Finset Nat) : Prop where
  card : bad.card ≤ rm.rmFirstdatacol
  apart : ∀ x ∈ bad, ∀ y ∈ bad, rm.rmFirstdatacol ≤ x → y - x = 255 →
    ∀ k < (rm.rmCol x).rcSize, orig x k = 0#8

theorem dataErrs_eq (hfull : errs rm st = badCols ch rm orig)
    (hsub : ∀ c ∈ s, c ∈ badCols ch rm orig ∧ rm.rmFirstdatacol ≤ c)
    (hsup : ∀ c ∈ badCols ch rm orig, rm.rmFirstdatacol ≤ c → c ∈ s) : dataErrs rm st = s := by
  ext c
  rw [mem_dataErrs]
  constructor
  · rintro ⟨hlt, herr, hlo⟩
    exact hsup c (hfull ▸ mem_errs.mpr ⟨hlt, herr⟩) hlo
  · intro hc
    obtain ⟨hbad, hlo⟩ := hsub c hc
    obtain ⟨hlt, herr⟩ := mem_errs.mp (hfull ▸ hbad : c ∈ errs rm st)
    exact ⟨hlt, herr, hlo⟩

theorem Shaped.p_lt (hs : Shaped rm) : vdevRaidzP < rm.rmCols := lt_trans hs.parity hs.data

theorem Shaped.q_lt (hs : Shaped rm) (hf : rm.rmFirstdatacol = 2) : vdevRaidzQ < rm.rmCols :=
  lt_trans (by decide : vdevRaidzQ < 2) (hf ▸ hs.data)

section

-- the children decide what is bad; the calls need only their scratch buffers
variable {ch' : Children}

variable (hs : Shaped rm) (hp : OneOrTwo rm) (hcols : rm.rmCols - rm.rmFirstdatacol ≤ 256)
  (h : Sound ch' rm st) (hall : AllTried rm st) (hcov : Covered rm orig (badCols ch' rm orig))

include h hall hcov

theorem phase1_guard_of_covered :
    (tally rm st).ioNumerrors ≤ rm.rmFirstdatacol - (tally rm st).parityUntried := by
  rw [tally_untried hall, tally_num]
  exact le_trans (card_le_card (errs_subset h)) hcov.card

include hp

theorem phase1_of_good_data (hno : ∀ c ∈ badCols ch' rm orig, ¬ rm.rmFirstdatacol ≤ c) :
    ∃ st' n, phase1 ch flags rm orig st (tally rm st) = .done st' n := by
  have hempty : dataErrs rm st = ∅ := by
    rw [eq_empty_iff_forall_notMem]
    intro c hc
    obtain ⟨hlt, herr, hlo⟩ := mem_dataErrs.mp hc
    exact hno c (mem_badCols.mpr ⟨hlt, (h c hlt).badCol herr⟩) hlo
  have h0 : (tally rm st).dataErrors = 0 := by rw [tally_data, hempty, card_empty]
  have hright : DataRight rm orig st.data := by
    intro c hc hlo k hk
    exact survivor_data (h.survives orig (tally_untried hall)) hp hc hlo (fun hb => hno c hb hlo) hk
  rw [phase1_zero (phase1_guard_of_covered h hall hcov) h0, if_pos (zioChecksumOk_iff.mpr hright)]
  obtain ⟨st', n, heq, -, -⟩ := phase1Done_right (t := tally rm st) hp hright _
  exact ⟨st', n, heq⟩

include hs hcols

theorem phase1_of_reported (hfull : errs rm st = badCols ch' rm orig) :
    ∃ st' n, phase1 ch flags rm orig st (tally rm st) = .done st' n := by
  have hsv := h.survives orig (tally_untried hall)
  have hg := phase1_guard_of_covered h hall hcov
  have hrebuild : ∀ x ∈ badCols ch' rm orig, rm.rmFirstdatacol ≤ x →
      (∀ c ∈ badCols ch' rm orig, rm.rmFirstdatacol ≤ c → c = x) →
      DataRight rm orig (phase1One rm st x) →
      ∃ st' n, phase1 ch flags rm orig st (tally rm st) = .done st' n := by
    intro x hx hlo hone hright
    have hset : dataErrs rm st = {x} := by
      refine dataErrs_eq hfull ?_ (fun c hc hclo => mem_singleton.mpr (hone c hc hclo))
      intro c hc
      rw [mem_singleton.mp hc]
      exact ⟨hx, hlo⟩
    have h1 : (tally rm st).dataErrors = 1 := by rw [tally_data, hset, card_singleton]
    rw [phase1_one hg h1 (firstError_one hset).1, if_pos (zioChecksumOk_iff.mpr hright)]
    have hdata : DataRight rm orig { st with data := phase1One rm st x }.data := hright
    obtain ⟨st', n, heq, -, -⟩ := phase1Done_right (t := tally rm st) hp hdata _
    exact ⟨st', n, heq⟩
  cases plan_of_card hp hcov.card with
  | none hno => exact phase1_of_good_data hp h hall hcov hno
  | p x hx hlo hP hone =>
    refine hrebuild x hx hlo hone ?_
    rw [phase1One, if_pos (error_of_not_bad h hs.p_lt hP)]
    exact dataRight_p hsv hs hlo hp (mem_badCols.mp hx).1 hP hone
  | q x hf hx hlo hP hQ hone =>
    refine hrebuild x hx hlo hone ?_
    rw [phase1One, if_neg (mem_errs.mp (hfull ▸ hP : vdevRaidzP ∈ errs rm st)).2]
    exact dataRight_q hsv hs hlo hf hcols (mem_badCols.mp hx).1 hQ hone
  | pq x y hf hx hy hlo hxy hP hQ htwo =>
    have hylt := (mem_badCols.mp hy).1
    have hset : dataErrs rm st = {x, y} := by
      refine dataErrs_eq hfull ?_ (fun c hc hclo => mem_pair.mpr (htwo c hc hclo))
      intro c hc
      rcases mem_pair.mp hc with rfl | rfl
      · exact ⟨hx, hlo⟩
      · exact ⟨hy, le_trans hlo hxy.le⟩
    have h2 : (tally rm st).dataErrors = 2 := by rw [tally_data, hset, card_pair (Nat.ne_of_lt hxy)]
    have hright : DataRight rm orig (phase1Two ch rm st x y) :=
      dataRight_pq hsv hs hlo hf hcols hxy (hcov.apart x hx y hy hlo) hylt hP hQ htwo _ _
    obtain ⟨hfx, hfy, -⟩ := firstError_two hxy hset
    rw [phase1_two hg h2 hfx hfy, if_pos (zioChecksumOk_iff.mpr hright)]
    exact ⟨_, _, rfl⟩

theorem phase3_of_covered (hdata : ∃ x ∈ badCols ch' rm orig, rm.rmFirstdatacol ≤ x) :
    ¬ Phase3Failed ch rm orig st := by
  intro hfail
  have hsv := h.survives orig (tally_untried hall)
  cases plan_of_card hp hcov.card with
  | none hno =>
    obtain ⟨x, hx, hlo⟩ := hdata
    exact hno x hx hlo
  | p x hx hlo hP hone =>
    have hxlt := (mem_badCols.mp hx).1
    exact hfail.p (error_of_not_bad h hs.p_lt hP) x hlo hxlt
      (dataRight_p hsv hs hlo hp hxlt hP hone)
  | q x hf hx hlo _ hQ hone =>
    have hxlt := (mem_badCols.mp hx).1
    exact hfail.q (hf ▸ (by decide)) (error_of_not_bad h (hs.q_lt hf) hQ) x hlo hxlt
      (dataRight_q hsv hs hlo hf hcols hxlt hQ hone)
  | pq x y hf hx hy hlo hxy hP hQ htwo =>
    have hylt := (mem_badCols.mp hy).1
    obtain ⟨_, ⟨d, hoff, rfl⟩, hwrong⟩ := hfail.pq (error_of_not_bad h hs.p_lt hP)
      (hf ▸ (by decide)) (error_of_not_bad h (hs.q_lt hf) hQ) x y hlo hxy hylt
    -- earlier attempts may have left anything in column x, which is bad anyway
    have hsv' : Survives rm (vdevRaidzGenerateParity rm orig) d (badCols ch' rm orig) := by
      intro c hc hbad k hk
      rw [hoff.1 c (fun hcx => hbad (hcx ▸ hx))]
      exact hsv c hc hbad k hk
    exact hwrong (dataRight_pq hsv' hs hlo hf hcols hxy (hcov.apart x hx y hy hlo) hylt
      hP hQ htwo _ _)

variable (flags) in
/-- **PROGRESS**: with everything tried, a covered mix of failures is recovered. -/
theorem ioDone_recovers : ∃ st' r, vdevRaidzIoDone ch flags rm orig st = .finished 0 st' r := by
  by_cases hdata : ∃ x ∈ badCols ch' rm orig, rm.rmFirstdatacol ≤ x
  swap
  · push Not at hdata
    obtain ⟨st', n, heq⟩ := phase1_of_good_data hp h hall hcov (fun c hc => not_le.mpr (hdata c hc))
    exact ⟨st', _, ioDone_of_done heq⟩
  by_cases hfull : errs rm st = badCols ch' rm orig
  · obtain ⟨st', n, heq⟩ := phase1_of_reported hs hp hcols h hall hcov hfull
    exact ⟨st', _, ioDone_of_done heq⟩
  rcases phase1_cases ch flags orig hp rfl with ⟨st', n, heq, -, -⟩ | ⟨d, heq, hd⟩
  · exact ⟨st', _, ioDone_of_done heq⟩
  have hlt : (errs rm st).card < (badCols ch' rm orig).card := by
    refine Finset.card_lt_card (Finset.ssubset_iff_subset_ne.mpr ⟨errs_subset h, hfull⟩)
  have hnum : ¬ rm.rmFirstdatacol ≤ (tally rm st).ioNumerrors := by
    rw [tally_num]
    have := hcov.card
    omega
  have hnone : someUntried rm (phase1Left st d) = false := someUntried_iff.mpr hall
  rw [ioDone_of_failed heq, hnone, if_neg hnum]
  rcases phase3_cases hs (phase1Left st d) with ⟨st', heq3, -⟩ | ⟨heq3, hfail⟩
  · rw [heq3]
    exact ⟨st', _, rfl⟩
  · exact absurd hfail
      (phase3_of_covered hs hp hcols (h.withData (fun c hc => hd c (.inl hc)) 0 0) hall hcov hdata)

end

/-! ## Columns that P and Q do not tell apart -/

/-- Two data columns 255 apart that are bad even when read again, the first not all zeros. -/
structure Twins (ch : Children) (rm : RaidzMap) (orig : Stripe) (x : Nat) : Prop where
  lo : rm.rmFirstdatacol ≤ x
  first : x ∈ badCols ch.reread rm orig
  second : x + 255 ∈ badCols ch.reread rm orig
  nonzero : ∃ k < (rm.rmCol x).rcSize, orig x k ≠ 0#8

def Wrong (rm : RaidzMap) (orig d : Stripe) (c : Nat) : Prop :=
  ∃ k < (rm.rmCol c).rcSize, d c k ≠ orig c k

theorem Wrong.not_right (h : Wrong rm orig d c) (hc : c < rm.rmCols)
    (hlo : rm.rmFirstdatacol ≤ c) : ¬ DataRight rm orig d := by
  obtain ⟨k, hk, hne⟩ := h
  exact fun hright => hne (hright c hc hlo k hk)

theorem Wrong.congr (h : Wrong rm orig d c) (heq : d' c = d c) : Wrong rm orig d' c := by
  rw [Wrong, heq]
  exact h

/-- What the maps of at most 256 units are like. -/
structure Narrow (rm : RaidzMap) : Prop where
  cols : rm.rmCols - rm.rmFirstdatacol ≤ 256
  even : ∀ x, rm.rmFirstdatacol ≤ x → x + 255 < rm.rmCols →
    (rm.rmCol (x + 255)).rcSize = (rm.rmCol x).rcSize

/-- A column that is bad when read, and not in error, holds wrong data. -/
theorem wrong_of_read (hp : OneOrTwo rm) (h : Sound ch rm st) (hlo : rm.rmFirstdatacol ≤ c)
    (hbad : c ∈ badCols ch.reread rm orig) (h0 : (st.col c).rcError = 0) :
    Wrong rm orig st.data c := by
  obtain ⟨hlt, hbad⟩ := mem_badCols.mp hbad
  obtain ⟨hread, he, hb⟩ := (h c hlt).bytes h0 fun hc => absurd hc (not_lt.mpr hlo)
  rcases hbad with hno | hno | hno | ⟨k, hk, hne⟩
  · exact nomatch hread.symm.trans hno
  · exact nomatch hno
  · exact absurd he hno
  · rw [generateParity_data hp hlo] at hne
    exact ⟨k, hk, hb ▸ hne⟩

section

variable {x : Nat} (hs : Shaped rm) (hf : rm.rmFirstdatacol = 2)
  (hcard : (badCols ch rm orig).card ≤ 2) (hn : Narrow rm) (htw : Twins ch rm orig x)

include htw

theorem Twins.hi : x + 255 < rm.rmCols := (mem_badCols.mp htw.second).1

include hcard

theorem Twins.only : ∀ c ∈ badCols ch rm orig, c = x ∨ c = x + 255 :=
  (two_of_card (.inr rfl) hcard (badCols_reread htw.first) (badCols_reread htw.second)
    (by omega)).2

include hf

theorem Twins.parity_good : vdevRaidzP ∉ badCols ch rm orig ∧ vdevRaidzQ ∉ badCols ch rm orig := by
  have hlo := htw.lo
  have honly := htw.only hcard
  constructor
  · intro h
    have : 0 = x ∨ 0 = x + 255 := honly _ h
    omega
  · intro h
    have : 1 = x ∨ 1 = x + 255 := honly _ h
    omega

include hs hn

/-- The pair is not rebuilt: its first column comes out as zeros. -/
theorem Twins.wrong_pq (pbuf qbuf : Buf)
    (hsv : Survives rm (vdevRaidzGenerateParity rm orig) d (badCols ch rm orig)) :
    Wrong rm orig (vdevRaidzReconstructPq rm x (x + 255) pbuf qbuf d) x := by
  obtain ⟨k, hk, hne⟩ := htw.nonzero
  obtain ⟨hP, hQ⟩ := htw.parity_good hf hcard
  have hlo := htw.lo
  have hhi := htw.hi
  have hcols := hn.cols
  refine ⟨k, hk, fun heq => hne (heq.symm.trans ?_)⟩
  exact reconstructPq_255 hs hf htw.lo rfl (by omega) pbuf qbuf hsv hP hQ
    (fun c hc _ => htw.only hcard c hc) hk

/-- A column rebuilt from P takes over the errors of the other one. -/
theorem Twins.wrong_one {a b : Nat} (h : Sound ch rm st) (hall : (tally rm st).parityUntried = 0)
    (hab : a = x ∧ b = x + 255 ∨ a = x + 255 ∧ b = x) (hb : Wrong rm orig st.data b) :
    Wrong rm orig (phase1One rm st a) a := by
  obtain ⟨k, hk, hne⟩ := hb
  obtain ⟨hP, -⟩ := htw.parity_good hf hcard
  have hlo := htw.lo
  have hhi := htw.hi
  have heven := hn.even x hlo hhi
  have hka : k < (rm.rmCol a).rcSize := by
    rcases hab with ⟨rfl, rfl⟩ | ⟨rfl, rfl⟩
    · exact heven ▸ hk
    · exact heven.symm ▸ hk
  refine ⟨k, hka, fun heq => hne ?_⟩
  rw [phase1One, if_pos (error_of_not_bad h hs.p_lt hP)] at heq
  have hsum := reconstructP_add (h.survives orig hall) hs (x := a) (y := b) (by omega)
    (by omega) hP hka (.inr hf) (by omega) (by omega) (by omega) fun c hc _ => by
      have := htw.only hcard c hc
      omega
  rw [heq, dataByte, dataByte, if_pos hk, if_pos hk, left_eq_add] at hsum
  refine Gf256.of_inj ?_
  rw [← add_zero (Gf256.of (st.data b k)), ← hsum, ← add_assoc, add_right_comm, gf.char_two,
    zero_add]

variable (flags) in
/-- **PHASE 1 FAILS** on such columns.  If it could still be repaired by phase 3, both hold
    wrong data. -/
theorem Twins.phase1_fails (h : Sound ch rm st) :
    ∃ d', phase1 ch flags rm orig st (tally rm st) = .failed { st with data := d' }
      ∧ (∀ c, (st.col c).rcError = 0 ∨ c < rm.rmFirstdatacol → d' c = st.data c)
      ∧ ((tally rm st).parityUntried = 0 → (tally rm st).ioNumerrors < 2 →
        Wrong rm orig d' x ∧ Wrong rm orig d' (x + 255)) := by
  have hp : OneOrTwo rm := .inr hf
  have hlo := htw.lo
  have hhi := htw.hi
  have hx0 := wrong_of_read hp h hlo htw.first
  have hy0 := wrong_of_read hp h (hlo.trans (le_add_right x 255)) htw.second
  have hdata : ∀ c ∈ dataErrs rm st, c = x ∨ c = x + 255 := by
    intro c hc
    obtain ⟨hlt, herr, -⟩ := mem_dataErrs.mp hc
    exact htw.only hcard c (mem_badCols.mpr ⟨hlt, (h c hlt).badCol herr⟩)
  rcases phase1_cases ch flags orig hp rfl with ⟨st', n, heq, hright, hframe⟩ | ⟨d', heq, hframe⟩
  · -- a column without an error is wrong to the end, so both are in error and were rebuilt
    have hx : (st.col x).rcError ≠ 0 := fun h0 =>
      ((hx0 h0).congr (hframe x hlo h0)).not_right (by omega) hlo hright
    have hy : (st.col (x + 255)).rcError ≠ 0 := fun h0 =>
      ((hy0 h0).congr (hframe _ (by omega) h0)).not_right hhi (by omega) hright
    have hset : dataErrs rm st = {x, x + 255} := by
      refine Subset.antisymm (fun c hc => mem_pair.mpr (hdata c hc)) fun c hc => ?_
      rcases mem_pair.mp hc with rfl | rfl
      · exact mem_dataErrs.mpr ⟨by omega, hx, hlo⟩
      · exact mem_dataErrs.mpr ⟨hhi, hy, by omega⟩
    by_cases hg : (tally rm st).ioNumerrors ≤ rm.rmFirstdatacol - (tally rm st).parityUntried
    · have h2 : (tally rm st).dataErrors = 2 := by
        rw [tally_data, hset, card_pair (by omega)]
      have hle : (dataErrs rm st).card ≤ (errs rm st).card := card_le_card fun c hc =>
        mem_errs.mpr ⟨(mem_dataErrs.mp hc).1, (mem_dataErrs.mp hc).2.1⟩
      have hun : (tally rm st).parityUntried = 0 := by
        rw [tally_num] at hg
        rw [tally_data] at h2
        omega
      obtain ⟨hfx, hfy, -⟩ := firstError_two (by omega) hset
      have hwrong : Wrong rm orig (phase1Two ch rm st x (x + 255)) x :=
        htw.wrong_pq hs hf hcard hn _ _ (h.survives orig hun)
      rw [phase1_two hg h2 hfx hfy, if_neg (zioChecksumOk_iff.not.mpr
        (hwrong.not_right (by omega) hlo))] at heq
      cases heq
    · rw [phase1_guard hg] at heq
      cases heq
  refine ⟨d', heq, hframe, fun hun hnum => ?_⟩
  have hg : (tally rm st).ioNumerrors ≤ rm.rmFirstdatacol - (tally rm st).parityUntried := by omega
  -- at most one of the two is in error, and then the other one is not
  have hone : ∀ {a b}, a = x ∧ b = x + 255 ∨ a = x + 255 ∧ b = x → (st.col a).rcError ≠ 0 →
      (st.col b).rcError = 0 ∧ (Wrong rm orig st.data b → Wrong rm orig d' a) := by
    intro a b hab ha
    have hb : (st.col b).rcError = 0 := by
      by_contra hb
      have hsub : {a, b} ⊆ errs rm st := by
        refine insert_subset (mem_errs.mpr ⟨by omega, ha⟩) (singleton_subset_iff.mpr ?_)
        exact mem_errs.mpr ⟨by omega, hb⟩
      have hle := card_le_card hsub
      rw [card_pair (by omega), ← tally_num] at hle
      omega
    refine ⟨hb, fun hwb => ?_⟩
    have hset : dataErrs rm st = {a} := by
      refine eq_singleton_iff_unique_mem.mpr ⟨mem_dataErrs.mpr ⟨by omega, ha, by omega⟩, ?_⟩
      intro c hc
      have hcb : c ≠ b := fun h => (mem_dataErrs.mp hc).2.1 (h ▸ hb)
      have := hdata c hc
      omega
    have h1 : (tally rm st).dataErrors = 1 := by rw [tally_data, hset, card_singleton]
    have hwa := htw.wrong_one hs hf hcard hn h hun hab hwb
    rw [phase1_one hg h1 (firstError_one hset).1, if_neg (zioChecksumOk_iff.not.mpr
      (hwa.not_right (by omega) (by omega)))] at heq
    cases heq
    exact hwa
  by_cases hx : (st.col x).rcError = 0
  · by_cases hy : (st.col (x + 255)).rcError = 0
    · exact ⟨(hx0 hx).congr (hframe x (.inl hx)), (hy0 hy).congr (hframe _ (.inl hy))⟩
    · exact ⟨(hx0 hx).congr (hframe x (.inl hx)), (hone (.inr ⟨rfl, rfl⟩) hy).2 (hx0 hx)⟩
  · obtain ⟨hy, hwrong⟩ := hone (.inl ⟨rfl, rfl⟩) hx
    exact ⟨hwrong (hy0 hy), (hy0 hy).congr (hframe _ (.inl hy))⟩

variable (flags) in
/-- **THE READ FAILS**: with everything tried, such columns end in an error. -/
theorem Twins.ioDone_fails (h : Sound ch rm st) (hall : AllTried rm st) :
    ∃ e st' r, vdevRaidzIoDone ch flags rm orig st = .finished e st' r ∧ e ≠ 0 := by
  have hlo := htw.lo
  have hhi := htw.hi
  obtain ⟨d', heq, hframe, hwrong⟩ := htw.phase1_fails flags hs hf hcard hn h
  have hnone : someUntried rm (phase1Left st d') = false := someUntried_iff.mpr hall
  rw [ioDone_of_failed heq, hnone]
  by_cases hnum : rm.rmFirstdatacol ≤ (tally rm st).ioNumerrors
  · rw [if_pos hnum]
    refine ⟨_, _, _, rfl, fun he => ?_⟩
    have := (tally_inv rm st).error.mp he
    omega
  rw [if_neg hnum]
  rcases phase3_cases hs (phase1Left st d') with ⟨st', heq3, hdone⟩ | ⟨heq3, -⟩
  swap
  · rw [heq3]
    exact ⟨ecksum, _, _, rfl, by decide⟩
  obtain ⟨hwx, hwy⟩ := hwrong (tally_untried hall) (by omega)
  -- of two wrong columns one is left, unless both are rebuilt, and then the first is wrong
  have hbad : ∀ c c1, (∀ c', c' ≠ c → c' ≠ c1 → st'.data c' = d' c') → c < c1 →
      c = x ∧ c1 = x + 255 := by
    intro c c1 hkeep hlt
    by_contra hne
    by_cases hx : x = c ∨ x = c1
    · refine (hwy.congr (hkeep _ ?_ ?_)).not_right hhi (by omega) hdone.right <;> omega
    · exact (hwx.congr (hkeep x (fun h => hx (.inl h)) fun h => hx (.inr h))).not_right (by omega)
        hlo hdone.right
  rcases hdone.rebuilt with ⟨c, hkeep⟩ | ⟨c, c1, hlt, d1, hoff, hst⟩
  · have h1 := hbad c (c + 1) (fun c' hc _ => hkeep c' hc) (by omega)
    omega
  · obtain ⟨rfl, rfl⟩ := hbad c c1 (fun c' hc hc1 => by
      rw [hst, (reconstruct_frame rm d1).2.2 _ _ hc hc1]
      exact hoff.1 c' hc) hlt
    have hsv : Survives rm (vdevRaidzGenerateParity rm orig) d1 (badCols ch rm orig) := by
      intro c' hc' hgood k hk
      have hne : c' ≠ c := fun h => hgood (h ▸ badCols_reread htw.first)
      have hsame : d1 c' = st.data c' :=
        (hoff.1 c' hne).trans (hframe c' (.inl (error_of_not_bad h hc' hgood)))
      rw [hsame]
      exact h.survives orig (tally_untried hall) c' hc' hgood k hk
    have hw := htw.wrong_pq hs hf hcard hn (ch.freshP c (c + 255)) (ch.freshQ c (c + 255)) hsv
    rw [← hst] at hw
    exact absurd hdone.right (hw.not_right (by omega) hlo)

end

/-! ## Whole reads -/

/-- A read has ended, and with the right result. -/
def Ends (ch : Children) (rm : RaidzMap) (orig : Stripe) (read : Option (ReadState × IoDone)) :
    Prop :=
  ∃ S e st' r, read = some (S, .finished e st' r) ∧ (e = 0 → DataRight rm orig st'.data)
    ∧ ((badCols ch rm orig).card ≤ rm.rmFirstdatacol → (e = 0 ↔ ¬ ∃ x, Twins ch rm orig x))

variable (ch flags orig) in
theorem vdevRaidzRead_ends (hs : Shaped rm) (hfresh : Fresh rm) (hp : OneOrTwo rm)
    (hn : Narrow rm) (d : Stripe) {fuel : Nat} (hfuel : 2 ≤ fuel) :
    Ends ch rm orig (vdevRaidzRead ch flags rm orig d fuel) := by
  obtain ⟨n, rfl⟩ : ∃ n, fuel = n + 2 := ⟨fuel - 2, by omega⟩
  have hsound : Sound ch rm (vdevRaidzIoStart ch flags rm d) := vdevRaidzIoStart_sound hfresh d
  have htwo : (badCols ch rm orig).card ≤ rm.rmFirstdatacol → (∃ x, Twins ch rm orig x) →
      rm.rmFirstdatacol = 2 := by
    rintro hcard ⟨x, htw⟩
    exact (two_of_card hp hcard (badCols_reread htw.first) (badCols_reread htw.second)
      (by omega)).1
  -- what a call does from a state in which everything has been tried
  have hlast : ∀ {st m}, Sound ch rm st → AllTried rm st →
      Ends ch rm orig (ioDoneLoop ch flags rm orig (m + 1) st) := by
    intro st m h hall
    obtain ⟨e, st', r, heq, hright⟩ := ioDone_of_allTried ch flags orig hs hp hall
    refine ⟨st, e, st', r, by rw [ioDoneLoop, heq], hright, fun hcard => ⟨?_, fun hno => ?_⟩⟩
    · rintro he ⟨x, htw⟩
      have hf := htwo hcard ⟨x, htw⟩
      obtain ⟨e', st2, r2, heq2, hne⟩ := htw.ioDone_fails flags hs hf (hf ▸ hcard) hn h hall
      rw [heq] at heq2
      cases heq2
      exact hne he
    · have hcov : Covered rm orig (badCols ch.reread rm orig) := by
        refine ⟨(card_le_card badCols_reread).trans hcard, fun x hx y hy hlo hapart k hk => ?_⟩
        by_contra hne
        obtain rfl : y = x + 255 := by omega
        exact hno ⟨x, hlo, hx, hy, k, hk, hne⟩
      obtain ⟨st2, r2, heq2⟩ := ioDone_recovers flags hs hp hn.cols (h.reread hall) hall hcov
      rw [heq] at heq2
      cases heq2
      rfl
  rw [vdevRaidzRead]
  by_cases hall : AllTried rm (vdevRaidzIoStart ch flags rm d)
  · exact hlast hsound hall
  rcases ioDone_of_untried flags hp hsound hall with
    ⟨st', r, heq, hright⟩ | ⟨st', heq, hsound', hall'⟩
  · refine ⟨vdevRaidzIoStart ch flags rm d, 0, st', r, by rw [ioDoneLoop, heq], fun _ => hright,
      fun hcard => iff_of_true rfl ?_⟩
    rintro ⟨x, htw⟩
    -- phase 1 would have failed, and the untried columns would be read
    have hf := htwo hcard ⟨x, htw⟩
    obtain ⟨d', heq1, -, -⟩ := htw.phase1_fails flags hs hf (hf ▸ hcard) hn hsound
    rw [ioDone_of_failed heq1, if_pos (someUntried_of_not hall)] at heq
    cases heq
  · rw [ioDoneLoop, heq]
    exact hlast hsound' hall'

section

variable {zio : Zio} {unitShift dcols nparity : Nat} (hz : UnitAligned unitShift zio)
  (hu : 9 ≤ unitShift) (hmax : zio.ioSize ≤ 131072) (hp : 0 < nparity) (hw : nparity < dcols)

include hz hu hmax hp hw

omit hz hp hw in
theorem units_le : zio.ioSize >>> unitShift ≤ 256 := by
  rw [shiftRight_eq_div_pow]
  calc zio.ioSize / 2 ^ unitShift ≤ 131072 / 2 ^ 9 :=
        Nat.div_le_div hmax (Nat.pow_le_pow_right (by decide) hu) (by decide)
    _ = 256 := by decide

theorem vdevRaidzMapAlloc_narrow : Narrow (vdevRaidzMapAlloc zio unitShift dcols nparity) := by
  have g := geometry_of_units hp hw hz.units.2.2
  have hunits := units_le hu hmax
  have hq := g.units
  have hcols := g.cols
  have hbig := g.big
  -- a whole row is no more than the block's units
  have hone : mapQ (zio.ioSize >>> unitShift) dcols nparity ≠ 0 → dcols - nparity
      ≤ mapQ (zio.ioSize >>> unitShift) dcols nparity * (dcols - nparity) :=
    fun h0 => Nat.le_mul_of_pos_left _ (pos_of_ne_zero h0)
  constructor
  · show mapAcols (zio.ioSize >>> unitShift) dcols nparity - nparity ≤ 256
    by_cases h0 : mapQ (zio.ioSize >>> unitShift) dcols nparity = 0
    · rw [if_pos h0] at hcols
      split_ifs at hbig <;> omega
    · rw [if_neg h0] at hcols
      omega
  · intro x hlo hhi
    rw [rmCol_size, rmCol_size, colSize_eq, colSize_eq]
    have hlo' : nparity ≤ x := hlo
    have hhi' : x + 255 < mapAcols (zio.ioSize >>> unitShift) dcols nparity := hhi
    by_cases h0 : mapQ (zio.ioSize >>> unitShift) dcols nparity = 0
    · rw [if_pos h0] at hcols
      rw [if_pos (by omega), if_pos (by omega)]
    · rw [if_neg h0] at hcols
      rw [if_pos (by omega)] at hbig
      rw [if_neg (by omega), if_neg (by omega)]

end

/-- **RAID-Z READ RECOVERY.**  For every block the pipeline writes (whole units, at most 128K) and
    every later read, whatever the children do, the calls of `vdev_raidz_io_done` end; success is
    never reported with wrong data; and with at most `nparity` bad columns the read succeeds exactly
    if no two of those still bad when read again are data columns 255 apart, the first of them not
    all zeros. -/
theorem raidz_read_recovery (zio : Zio) (unitShift dcols nparity : Nat)
    (hz : UnitAligned unitShift zio) (hu : 9 ≤ unitShift) (hmax : zio.ioSize ≤ 131072)
    (hp : nparity = 1 ∨ nparity = 2) (hw : nparity < dcols) (ch : Children) (flags : ReadFlags)
    (orig d : Stripe) (fuel : Nat) (hfuel : 2 ≤ fuel) :
    let rm := vdevRaidzMapAlloc zio unitShift dcols nparity
    ∃ S e st' r, vdevRaidzRead ch flags rm orig d fuel = some (S, .finished e st' r)
      ∧ (e = 0 → DataRight rm orig st'.data)
      ∧ ((badCols ch rm orig).card ≤ nparity → (e = 0 ↔ ¬ ∃ x, Twins ch rm orig x)) := by
  intro rm
  have hpos : 0 < nparity := by omega
  exact vdevRaidzRead_ends ch flags orig (vdevRaidzMapAlloc_shaped hz (by omega) hpos hw)
    (vdevRaidzMapAlloc_fresh zio unitShift dcols nparity) hp
    (vdevRaidzMapAlloc_narrow hz hu hmax hpos hw) d hfuel

/-- Children of which two return an I/O error and the others what was written. -/
def twoFailures (rm : RaidzMap) (orig : Stripe) (x y : Nat) : Children where
  readable _ := true
  stale _ := false
  error c := if c = x ∨ c = y then eio else 0
  bytes c := if c = x ∨ c = y then fun _ => 0 else vdevRaidzGenerateParity rm orig c
  freshP _ _ := fun _ => 0
  freshQ _ _ := fun _ => 0

theorem badCols_twoFailures (rm : RaidzMap) (orig : Stripe) (x y : Nat) :
    badCols (twoFailures rm orig x y) rm orig ⊆ {x, y} := by
  intro c hc
  rw [mem_pair]
  by_contra hne
  rcases (mem_badCols.mp hc).2 with h | h | h | ⟨k, -, h⟩
  · exact Bool.noConfusion h
  · exact Bool.noConfusion h
  · exact h (if_neg hne)
  · exact h (congrFun (if_neg hne) k)

/-- A double-parity read of three data columns, two of which fail. -/
theorem raidz_read_recovery_two_failures :
    let rm := vdevRaidzMapAlloc ⟨0, 1536⟩ 9 5 2
    ∃ S e st' r, vdevRaidzRead (twoFailures rm (fun _ _ => 1) 2 3) ⟨false, false, true⟩ rm
      (fun _ _ => 1) (fun _ _ => 0) 2 = some (S, .finished e st' r)
      ∧ e = 0 ∧ DataRight rm (fun _ _ => 1) st'.data := by
  intro rm
  have hsub := badCols_twoFailures rm (fun _ _ => 1) 2 3
  obtain ⟨S, e, st', r, heq, hright, hrec⟩ := raidz_read_recovery ⟨0, 1536⟩ 9 5 2
    ⟨by decide, by decide, by decide⟩ (by decide) (by decide) (.inr rfl) (by decide)
    (twoFailures rm (fun _ _ => 1) 2 3) ⟨false, false, true⟩ (fun _ _ => 1) (fun _ _ => 0) 2
    (by decide)
  have he : e = 0 := (hrec (card_le_card hsub)).mpr fun ⟨x, htw⟩ => by
    have hy := mem_pair.mp (hsub (badCols_reread htw.second))
    omega
  exact ⟨S, e, st', r, heq, he, hright he⟩

/-! ## 256 data columns -/

theorem vdevRaidzIoStart_scrub (hread : ∀ c, ch.readable c = true)
    (hstale : ∀ c, ch.stale c = false) (hscrub : flags.scrub = true) (d : Stripe) :
    ∀ c < rm.rmCols, (vdevRaidzIoStart ch flags rm d).col c = vdevRaidzChildDone (ch.error c)
      ∧ (vdevRaidzIoStart ch flags rm d).data c = ch.bytes c := by
  have hcol : ∀ c st, ioStartCol ch flags rm c st = readCol ch c st := by
    intro c st
    rw [ioStartCol, hread, hstale, if_neg Bool.noConfusion, if_neg Bool.noConfusion,
      if_pos (.inr (.inr hscrub))]
  have hinv := forRange_inv (zero_le rm.rmCols)
    (b := fun i st => ioStartCol ch flags rm (rm.rmCols - 1 - i) st) (s := initState rm d)
    (fun i (st : ReadState) => ∀ c < rm.rmCols, rm.rmCols - i ≤ c →
      st.col c = vdevRaidzChildDone (ch.error c) ∧ st.data c = ch.bytes c) ?_ ?_
  · intro c hc
    exact hinv c hc (by omega)
  · intro c hc hle
    omega
  intro i st _ hi hst c hc hle
  rw [hcol]
  by_cases hci : c = rm.rmCols - 1 - i
  · subst hci
    exact ⟨readCol_col_self, readCol_data_self⟩
  · rw [readCol_col_of_ne hci, readCol_data_of_ne hci]
    exact hst c hc (by omega)

/-- A scrub of a 128K block on 258 children whose first and last data columns
    return EIO: two bad columns, two parity columns, and the read fails. -/
theorem raidz_read_256_columns :
    let rm := vdevRaidzMapAlloc ⟨0, 131072⟩ 9 258 2
    let ch := twoFailures rm (fun _ _ => 1) 2 257
    (badCols ch rm (fun _ _ => 1)).card ≤ 2
      ∧ ∀ fuel, 2 ≤ fuel → ∃ S e st' r, vdevRaidzRead ch ⟨true, false, true⟩ rm (fun _ _ => 1)
          (fun _ _ => 0) fuel = some (S, .finished e st' r) ∧ e ≠ 0 := by
  intro rm ch
  have hz : UnitAligned 9 ⟨0, 131072⟩ := ⟨by decide, by decide, by decide⟩
  have h258 : rm.rmCols = 258 := by decide
  have hcard : (badCols ch rm (fun _ _ => 1)).card ≤ 2 :=
    card_le_card (badCols_twoFailures rm _ 2 257)
  have hbad : ∀ c, c = 2 ∨ c = 257 → c ∈ badCols ch.reread rm (fun _ _ => 1) := by
    intro c hc
    have herr : ch.error c ≠ 0 := by
      show (if c = 2 ∨ c = 257 then eio else 0) ≠ 0
      rw [if_pos hc]
      decide
    exact mem_badCols.mpr ⟨by omega, .inr (.inr (.inl herr))⟩
  have htw : Twins ch rm (fun _ _ => 1) 2 :=
    ⟨le_refl 2, hbad 2 (.inl rfl), hbad 257 (.inr rfl), 0, by decide, by decide⟩
  refine ⟨hcard, fun fuel hfuel => ?_⟩
  have hs : Shaped rm := vdevRaidzMapAlloc_shaped hz (by decide) (by decide) (by decide)
  have hn : Narrow rm := vdevRaidzMapAlloc_narrow hz le_rfl le_rfl (by decide) (by decide)
  obtain ⟨S, e, st', r, heq, -, hiff⟩ := vdevRaidzRead_ends ch ⟨true, false, true⟩ (fun _ _ => 1)
    hs (vdevRaidzMapAlloc_fresh _ _ _ _) (.inr rfl) hn (fun _ _ => 0) hfuel
  exact ⟨S, e, st', r, heq, fun he => (hiff hcard).mp he ⟨2, htw⟩⟩

end Sirius.Raidz
