import Sirius.Zfs.RaidzRecovery

/-! # RAID-Z self-heal — what a successful read writes back

    After a read that succeeded with unexpected errors (or while resilvering) every column
    with an error is rewritten from its buffer.  The data columns are right by then.  The
    parity columns are right only where `raidz_parity_verify` regenerated them, or where they
    were right before; this module says exactly when that is. -/

namespace Sirius.Raidz

open Sirius.Lib Finset Nat

section Repair

variable {ch : Children} {flags : ReadFlags} {rm : RaidzMap} {orig d : Stripe} {st st' : ReadState}
  {r : Bool} {n : Nat}

/-- Every column in error holds the bytes the write path stores there; these are
    the columns that a repair rewrites. -/
def RepairsRight (rm : RaidzMap) (orig : Stripe) (st : ReadState) : Prop :=
  ∀ c < rm.rmCols, (st.col c).rcError ≠ 0 →
    ∀ k < (rm.rmCol c).rcSize, st.data c k = vdevRaidzGenerateParity rm orig c k

def ParityHeld (rm : RaidzMap) (orig : Stripe) (st : ReadState) : Prop :=
  ∀ c < rm.rmFirstdatacol, (st.col c).rcError ≠ 0 →
    ∀ k < (rm.rmCol c).rcSize, st.data c k = vdevRaidzGenerateParity rm orig c k

/-- The condition on the state before the last `vdev_raidz_io_done`: the parity
    columns in error hold the right bytes already; or one data column is in
    error and this is a resilver; or no data column is in error, the data read
    is right, and this is a resilver or some parity column was read. -/
def RepairSafe (flags : ReadFlags) (rm : RaidzMap) (orig : Stripe) (st : ReadState) : Prop :=
  ParityHeld rm orig st
    ∨ ((dataErrs rm st).card = 1 ∧ flags.resilver = true)
    ∨ (dataErrs rm st = ∅ ∧ DataRight rm orig st.data
        ∧ (flags.resilver = true
          ∨ ∃ c < rm.rmFirstdatacol, (st.col c).rcError = 0 ∧ (st.col c).rcTried = true))

variable (st st') in
theorem repairsRight_iff (hs : Shaped rm) (hp : OneOrTwo rm) (hright : DataRight rm orig st'.data)
    (hpar : ∀ c < rm.rmFirstdatacol, st'.data c = st.data c ∧ st'.col c = st.col c) :
    RepairsRight rm orig st' ↔ ParityHeld rm orig st := by
  constructor
  · intro h c hc herr k hk
    rw [← (hpar c hc).1]
    exact h c (lt_trans hc hs.data) ((hpar c hc).2 ▸ herr) k hk
  intro h c hc herr k hk
  by_cases hlo : rm.rmFirstdatacol ≤ c
  · rw [generateParity_data hp hlo]
    exact hright c hc hlo k hk
  · have hlt : c < rm.rmFirstdatacol := not_le.mp hlo
    rw [(hpar c hlt).1]
    exact h c hlt ((hpar c hlt).2 ▸ herr) k hk

theorem pSum_congr (h : DataRight rm orig d) (k : Nat) :
    pSum rm d k = pSum rm orig k ∧ qSum rm d k = qSum rm orig k := by
  have hbyte : ∀ c, rm.rmFirstdatacol ≤ c → c < rm.rmCols →
      dataByte rm d c k = dataByte rm orig c k := by
    intro c hlo hhi
    rw [dataByte, dataByte]
    split_ifs with hk
    · exact h c hhi hlo k hk
    · rfl
  constructor
  · refine sum_congr rfl ?_
    intro c hc
    rw [mem_Ico] at hc
    rw [hbyte c hc.1 hc.2]
  · refine gf.weighted_congr ?_
    intro c hlo hhi
    rw [hbyte c hlo hhi]

theorem generateParity_congr (hs : Shaped rm) (hp : OneOrTwo rm) (h : DataRight rm orig d)
    {c k : Nat} (hc : c < rm.rmCols) (hk : k < (rm.rmCol c).rcSize) :
    vdevRaidzGenerateParity rm d c k = vdevRaidzGenerateParity rm orig c k := by
  by_cases hlo : rm.rmFirstdatacol ≤ c
  · rw [generateParity_data hp hlo, generateParity_data hp hlo]
    exact h c hc hlo k hk
  have hsz := hs.top c (Nat.le_of_not_le hlo)
  rw [hsz] at hk
  have hcases : c = vdevRaidzP ∨ (c = vdevRaidzQ ∧ rm.rmFirstdatacol ≠ 1) := by
    show c = 0 ∨ (c = 1 ∧ _)
    omega
  refine Gf256.of_inj ?_
  rcases hcases with rfl | ⟨rfl, hq⟩
  · rw [generateParity_p hk hs, generateParity_p hk hs, (pSum_congr h k).1]
  · rw [generateParity_q hk hs hq, generateParity_q hk hs hq, (pSum_congr h k).2]

theorem repairsRight_verify (hs : Shaped rm) (hp : OneOrTwo rm) (h : DataRight rm orig st.data) :
    RepairsRight rm orig (raidzParityVerify rm st).1 := by
  intro c hc _ k hk
  rw [raidzParityVerify_data]
  exact generateParity_congr hs hp h hc hk

theorem parity_read_iff (hs : Shaped rm) :
    (tally rm st).parityErrors + (tally rm st).parityUntried < rm.rmFirstdatacol
      ↔ ∃ c < rm.rmFirstdatacol, (st.col c).rcError = 0 ∧ (st.col c).rcTried = true := by
  -- each parity column is in error, untried, or read
  have hsum : ∀ i, Nat.count (fun c => (st.col c).rcError ≠ 0 ∧ c < rm.rmFirstdatacol) i
      + Nat.count (fun c => (st.col c).rcError = 0 ∧ c < rm.rmFirstdatacol
        ∧ (st.col c).rcTried = false) i
      + Nat.count (fun c => c < rm.rmFirstdatacol ∧ (st.col c).rcError = 0
        ∧ (st.col c).rcTried = true) i = min i rm.rmFirstdatacol := by
    intro i
    induction i with
    | zero => exact (zero_min _).symm
    | succ i ih =>
      rw [count_succ, count_succ, count_succ]
      simp only [ne_eq] at ih ⊢
      by_cases herr : (st.col i).rcError = 0 <;> by_cases hlt : i < rm.rmFirstdatacol <;>
        cases htried : (st.col i).rcTried <;> simp [herr, hlt] <;> omega
  have hcols := hsum rm.rmCols
  rw [min_eq_right hs.data.le, ← (tally_inv rm st).parity, ← (tally_inv rm st).untried] at hcols
  constructor
  · intro hlt
    by_contra hnone
    rw [count_iff_forall_not.mpr fun c _ h => hnone ⟨c, h⟩] at hcols
    omega
  · rintro ⟨c, hc, hgood⟩
    refine lt_of_lt_of_eq (Nat.lt_add_of_pos_right (Nat.pos_of_ne_zero ?_)) hcols
    exact count_ne_iff_exists.mpr ⟨c, hc.trans hs.data, hc, hgood⟩

theorem parityHeld_of_zero (h : (tally rm st).parityErrors = 0) (hs : Shaped rm) :
    ParityHeld rm orig st := by
  intro c hc herr
  rw [(tally_inv rm st).parity, count_iff_forall_not] at h
  exact absurd ⟨herr, hc⟩ (h c (lt_trans hc hs.data))

theorem tally_num_eq (rm : RaidzMap) (st : ReadState) :
    (tally rm st).ioNumerrors = (tally rm st).parityErrors + (tally rm st).dataErrors := by
  refine forRange_inv (zero_le _)
    (fun _ (t : Tally) => t.ioNumerrors = t.parityErrors + t.dataErrors) rfl ?_
  intro i t _ _ h
  by_cases herr : (st.col i).rcError ≠ 0
  · rw [tallyCol, if_pos herr]
    show t.ioNumerrors + 1 = (t.parityErrors + if i < rm.rmFirstdatacol then 1 else 0)
      + (t.dataErrors + if i < rm.rmFirstdatacol then 0 else 1)
    split_ifs <;> omega
  · rw [tallyCol]
    split_ifs
    · exact h
    · exact h

/-- A call that ends in success either found its data in phase 1, or went to phase 3 with everything
    tried and fewer errors than parity columns, and left parity alone. -/
theorem ioDone_success (hs : Shaped rm) (hp : OneOrTwo rm)
    (h : vdevRaidzIoDone ch flags rm orig st = .finished 0 st' r) :
    (∃ n, phase1 ch flags rm orig st (tally rm st) = .done st' n)
      ∨ ((tally rm st).ioNumerrors < rm.rmFirstdatacol ∧ AllTried rm st
        ∧ (∀ st1 n, phase1 ch flags rm orig st (tally rm st) ≠ .done st1 n)
        ∧ DataRight rm orig st'.data
        ∧ ∀ c < rm.rmFirstdatacol, st'.data c = st.data c ∧ st'.col c = st.col c) := by
  rcases phase1_cases ch flags orig hp (rfl : tally rm st = tally rm st) with
    ⟨st1, n, heq, -⟩ | ⟨d, heq, hd⟩
  · left
    rw [ioDone_of_done heq] at h
    cases h
    exact ⟨n, heq⟩
  right
  rw [ioDone_of_failed heq] at h
  cases hsome : someUntried rm (phase1Left st d) with
  | true =>
    rw [hsome] at h
    cases h
  | false =>
    rw [hsome] at h
    by_cases hnum : rm.rmFirstdatacol ≤ (tally rm st).ioNumerrors
    · rw [if_pos hnum] at h
      have he : (tally rm st).ioError = 0 := (IoDone.finished.inj h).1
      have hzero := (tally_inv rm st).error.mp he
      omega
    rw [if_neg hnum] at h
    refine ⟨not_le.mp hnum, someUntried_iff.mp hsome, ?_, ?_⟩
    · intro st1 n hdone
      rw [heq] at hdone
      cases hdone
    rcases phase3_cases hs (phase1Left st d) with ⟨st3, heq3, hdone⟩ | ⟨heq3, -⟩
    · rw [heq3] at h
      cases h
      refine ⟨hdone.right, ?_⟩
      intro c hc
      obtain ⟨hdata, hcol⟩ := hdone.parity c hc
      exact ⟨hdata.trans (hd c (.inr hc)), hcol⟩
    · rw [heq3] at h
      cases h

theorem phase1Done_eq {t : Tally} {v : Bool} (h : phase1Done rm st t v = .done st' n) :
    (v = true ∧ st' = (raidzParityVerify rm st).1) ∨ (v = false ∧ st' = st) := by
  cases v with
  | true =>
    left
    cases h
    exact ⟨rfl, rfl⟩
  | false =>
    right
    cases h
    exact ⟨rfl, rfl⟩

theorem repairSafe_phase3 (hp : OneOrTwo rm) (hs : Shaped rm)
    (hnum : (tally rm st).ioNumerrors < rm.rmFirstdatacol) (hall : AllTried rm st)
    (hno : ∀ st1 n, phase1 ch flags rm orig st (tally rm st) ≠ .done st1 n) :
    ParityHeld rm orig st ↔ RepairSafe flags rm orig st := by
  constructor
  · exact .inl
  rintro (h | ⟨hone, -⟩ | ⟨hempty, hright, -⟩)
  · exact h
  · refine parityHeld_of_zero ?_ hs
    have hsum := tally_num_eq rm st
    rw [tally_data] at hsum
    omega
  · -- with right data phase 1 would have succeeded
    have h0 : (tally rm st).dataErrors = 0 := by rw [tally_data, hempty, card_empty]
    have hg : (tally rm st).ioNumerrors ≤ rm.rmFirstdatacol - (tally rm st).parityUntried := by
      rw [tally_untried hall]
      exact hnum.le
    obtain ⟨st1, n, hdone, -⟩ := phase1Done_right (t := tally rm st) hp hright
      (decide ((tally rm st).parityErrors + (tally rm st).parityUntried < rm.rmFirstdatacol
        ∨ flags.resilver = true))
    refine absurd ?_ (hno st1 n)
    rw [phase1_zero hg h0, if_pos (zioChecksumOk_iff.mpr hright)]
    exact hdone

theorem repairSafe_phase1 (hs : Shaped rm) (hp : OneOrTwo rm)
    (h : phase1 ch flags rm orig st (tally rm st) = .done st' n) :
    RepairsRight rm orig st' ↔ RepairSafe flags rm orig st := by
  have hcard := tally_data rm st
  have hsum := tally_num_eq rm st
  by_cases hg : (tally rm st).ioNumerrors ≤ rm.rmFirstdatacol - (tally rm st).parityUntried
  swap
  · rw [phase1_guard hg] at h
    cases h
  rcases hn : (tally rm st).dataErrors with _ | _ | _ | m
  · rw [phase1_zero hg hn] at h
    have hempty : dataErrs rm st = ∅ := card_eq_zero.mp (hcard.symm.trans hn)
    by_cases hok : zioChecksumOk rm orig st.data
    swap
    · rw [if_neg hok] at h
      cases h
    have hright := zioChecksumOk_iff.mp hok
    rw [if_pos hok] at h
    rcases phase1Done_eq h with ⟨hv, rfl⟩ | ⟨hv, rfl⟩
    · refine iff_of_true (repairsRight_verify hs hp hright) (.inr (.inr ⟨hempty, hright, ?_⟩))
      rcases of_decide_eq_true hv with hread | hres
      · exact .inr ((parity_read_iff hs).mp hread)
      · exact .inl hres
    rw [repairsRight_iff st' st' hs hp hright (fun _ _ => ⟨rfl, rfl⟩)]
    refine ⟨.inl, ?_⟩
    have hnot := of_decide_eq_false hv
    rintro (h | ⟨hone, -⟩ | ⟨-, -, hres | hread⟩)
    · exact h
    · rw [hempty] at hone
      exact absurd hone (by decide)
    · exact absurd (.inr hres) hnot
    · exact absurd (.inl ((parity_read_iff hs).mpr hread)) hnot
  · obtain ⟨x, hx⟩ := card_eq_one.mp (hcard.symm.trans hn)
    obtain ⟨hfirst, -, hlo, -⟩ := firstError_one hx
    rw [phase1_one hg hn hfirst] at h
    by_cases hok : zioChecksumOk rm orig (phase1One rm st x)
    swap
    · rw [if_neg hok] at h
      cases h
    have hright := zioChecksumOk_iff.mp hok
    rw [if_pos hok] at h
    rcases phase1Done_eq h with ⟨hv, rfl⟩ | ⟨hv, rfl⟩
    · refine iff_of_true (repairsRight_verify hs hp hright) ?_
      rcases of_decide_eq_true hv with hfew | hres
      · exact .inl (parityHeld_of_zero (by omega) hs)
      · exact .inr (.inl ⟨hcard.symm.trans hn, hres⟩)
    have hpar : ∀ c < rm.rmFirstdatacol, phase1One rm st x c = st.data c := by
      intro c hc
      exact phase1One_frame (by omega)
    refine (repairsRight_iff st { st with data := phase1One rm st x } hs hp hright
      (fun c hc => ⟨hpar c hc, rfl⟩)).trans ⟨.inl, ?_⟩
    have hnot := of_decide_eq_false hv
    rintro (h | ⟨-, hres⟩ | ⟨hempty, -⟩)
    · exact h
    · exact absurd (.inr hres) hnot
    · rw [hempty] at hx
      exact absurd hx.symm (singleton_ne_empty x)
  · obtain ⟨x, y, hxy, hpair⟩ := exists_pair_lt (hcard.symm.trans hn)
    obtain ⟨hfx, hfy, hlo, -⟩ := firstError_two hxy hpair
    rw [phase1_two hg hn hfx hfy] at h
    by_cases hok : zioChecksumOk rm orig (phase1Two ch rm st x y)
    swap
    · rw [if_neg hok] at h
      cases h
    rw [if_pos hok] at h
    cases h
    -- two data errors leave no room for a parity error
    have hheld : ParityHeld rm orig st := parityHeld_of_zero (by omega) hs
    have hpar : ∀ c < rm.rmFirstdatacol, phase1Two ch rm st x y c = st.data c := by
      intro c hc
      exact (reconstruct_frame rm st.data).2.2 _ _ (by omega) (by omega)
    refine iff_of_true ?_ (.inl hheld)
    exact (repairsRight_iff st { st with data := phase1Two ch rm st x y } hs hp
      (zioChecksumOk_iff.mp hok) (fun c hc => ⟨hpar c hc, rfl⟩)).mpr hheld
  · rw [phase1_many (by omega)] at h
    cases h

/-- **WHEN REPAIRS ARE RIGHT**, for one call that ends in success. -/
theorem ioDone_repairs_iff (hs : Shaped rm) (hp : OneOrTwo rm)
    (h : vdevRaidzIoDone ch flags rm orig st = .finished 0 st' r) :
    RepairsRight rm orig st' ↔ RepairSafe flags rm orig st := by
  rcases ioDone_success hs hp h with ⟨n, hdone⟩ | ⟨hnum, hall, hno, hright, hpar⟩
  · exact repairSafe_phase1 hs hp hdone
  · rw [repairsRight_iff st st' hs hp hright hpar]
    exact repairSafe_phase3 hp hs hnum hall hno

theorem ioDoneLoop_last {fuel : Nat} {S : ReadState} {res : IoDone}
    (h : ioDoneLoop ch flags rm orig fuel st = some (S, res)) :
    vdevRaidzIoDone ch flags rm orig S = res := by
  induction fuel generalizing st with
  | zero => cases h
  | succ fuel ih =>
    rw [ioDoneLoop] at h
    cases hstep : vdevRaidzIoDone ch flags rm orig st with
    | reread st1 =>
      rw [hstep] at h
      exact ih h
    | finished e st1 r =>
      rw [hstep] at h
      cases h
      exact hstep

/-- **WHEN SELF-HEAL WRITES RIGHT BYTES.**  Every read that completes with `io_error == 0` and then
    repairs writes the right bytes to every column in error if and only if the state before the last
    `vdev_raidz_io_done` is `RepairSafe`. -/
theorem raidz_repair_right_iff (zio : Zio) (unitShift dcols nparity : Nat)
    (hz : UnitAligned unitShift zio) (hu : 3 ≤ unitShift) (hp : nparity = 1 ∨ nparity = 2)
    (hw : nparity < dcols) (ch : Children) (flags : ReadFlags) (orig d : Stripe) (fuel : Nat)
    (S st' : ReadState)
    (hread : vdevRaidzRead ch flags (vdevRaidzMapAlloc zio unitShift dcols nparity) orig d fuel
      = some (S, .finished 0 st' true)) :
    RepairsRight (vdevRaidzMapAlloc zio unitShift dcols nparity) orig st'
      ↔ RepairSafe flags (vdevRaidzMapAlloc zio unitShift dcols nparity) orig S :=
  ioDone_repairs_iff (vdevRaidzMapAlloc_shaped hz hu (by omega) hw) hp (ioDoneLoop_last hread)

/-- A scrub on two children in which the parity column returns EIO and leaves its buffer zeroed: the
    data column is right, so the read succeeds at once, and the parity column will be rewritten.
    Only if this is a resilver, parity has been generated again. -/
theorem scrub_parity_eio (resilver : Bool) :
    let rm := vdevRaidzMapAlloc ⟨0, 512⟩ 9 2 1
    ∃ st st', vdevRaidzRead (twoFailures rm (fun _ _ => 1) 0 0) ⟨true, resilver, true⟩ rm
        (fun _ _ => 1) (fun _ _ => 0) 2 = some (st, .finished 0 st' true)
      ∧ dataErrs rm st = ∅ ∧ DataRight rm (fun _ _ => 1) st.data
      ∧ (resilver = false → st'.col 0 = ⟨eio, true, false⟩ ∧ st'.data 0 0 = 0) := by
  intro rm
  generalize hch : twoFailures rm (fun _ _ => 1) 0 0 = ch
  generalize hst : vdevRaidzIoStart ch ⟨true, resilver, true⟩ rm (fun _ _ => 0) = st
  have hstart : ∀ c < rm.rmCols, st.col c = vdevRaidzChildDone (ch.error c)
      ∧ st.data c = ch.bytes c := by
    subst hst hch
    exact vdevRaidzIoStart_scrub (fun _ => rfl) (fun _ => rfl) rfl _
  have hcol0 : st.col 0 = ⟨eio, true, false⟩ := by
    rw [(hstart 0 (by decide)).1, ← hch]
    rfl
  have hcol1 : st.col 1 = ⟨0, true, false⟩ := by
    rw [(hstart 1 (by decide)).1, ← hch]
    rfl
  have htally : tally rm st = ⟨eio, 1, 1, 1, 0, 0⟩ := by
    show tallyCol rm st 1 (tallyCol rm st 0 ⟨0, 0, 0, 0, 0, 0⟩) = _
    rw [tallyCol, tallyCol, hcol0, hcol1]
    rfl
  have hempty : dataErrs rm st = ∅ := by
    rw [← Finset.card_eq_zero, ← tally_data, htally]
  have hright : DataRight rm (fun _ _ => 1) st.data := by
    intro c hc hlo k _
    have hc1 : c ≠ 0 := pos_iff_ne_zero.mp hlo
    rw [(hstart c hc).2, ← hch]
    show (if c = 0 ∨ c = 0 then _ else vdevRaidzGenerateParity rm (fun _ _ => 1) c) k = _
    rw [if_neg (by omega), generateParity_data (.inl rfl) hlo]
  have hphase : ∃ st' n, phase1 ch ⟨true, resilver, true⟩ rm (fun _ _ => 1) st (tally rm st)
      = .done st' (1 + n) ∧ (resilver = false → st' = st) := by
    rw [htally, phase1_zero (by decide) rfl, if_pos (zioChecksumOk_iff.mpr hright)]
    cases resilver with
    | false => exact ⟨st, 0, rfl, fun _ => rfl⟩
    | true => exact ⟨_, _, rfl, fun hf => by cases hf⟩
  obtain ⟨st', n, hdone, hsame⟩ := hphase
  refine ⟨st, st', ?_, hempty, hright, fun hno => ?_⟩
  · rw [vdevRaidzRead, hst, ioDoneLoop, ioDone_of_done hdone]
    simp [finishIo]
  · rw [hsame hno]
    refine ⟨hcol0, ?_⟩
    rw [(hstart 0 (by decide)).2, ← hch]
    rfl

/-- In a resilver that scrub is safe, and repairs the parity column. -/
theorem raidz_repair_right_iff_scrub :
    let rm := vdevRaidzMapAlloc ⟨0, 512⟩ 9 2 1
    ∃ S st', vdevRaidzRead (twoFailures rm (fun _ _ => 1) 0 0) ⟨true, true, true⟩ rm
        (fun _ _ => 1) (fun _ _ => 0) 2 = some (S, .finished 0 st' true)
      ∧ RepairSafe ⟨true, true, true⟩ rm (fun _ _ => 1) S ∧ RepairsRight rm (fun _ _ => 1) st' := by
  intro rm
  obtain ⟨st, st', hread, hempty, hright, -⟩ := scrub_parity_eio true
  have hsafe : RepairSafe ⟨true, true, true⟩ rm (fun _ _ => 1) st :=
    .inr (.inr ⟨hempty, hright, .inl rfl⟩)
  exact ⟨st, st', hread, hsafe, (raidz_repair_right_iff ⟨0, 512⟩ 9 2 1
    ⟨by decide, by decide, by decide⟩ (by decide) (.inl rfl) (by decide) _ _ _ _ 2 st st'
    hread).mpr hsafe⟩

/-- Otherwise the garbage in the parity buffer is written out. -/
theorem raidz_repair_writes_garbage :
    let rm := vdevRaidzMapAlloc ⟨0, 512⟩ 9 2 1
    ∃ S st', vdevRaidzRead (twoFailures rm (fun _ _ => 1) 0 0) ⟨true, false, true⟩ rm
        (fun _ _ => 1) (fun _ _ => 0) 2 = some (S, .finished 0 st' true)
      ∧ ¬ RepairsRight rm (fun _ _ => 1) st' := by
  intro rm
  obtain ⟨st, st', hread, -, -, hzero⟩ := scrub_parity_eio false
  obtain ⟨hcol, hzero⟩ := hzero rfl
  refine ⟨st, st', hread, ?_⟩
  intro hrep
  have hone := hrep 0 (by decide) (by rw [hcol]; decide) 0 (by decide)
  rw [hzero] at hone
  exact absurd hone (by decide)

end Repair

end Sirius.Raidz
