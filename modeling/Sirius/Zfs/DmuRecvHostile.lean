import Sirius.Zfs.DmuRecvSafety

/-! # What a hostile stream can do

    Each of the conditions in `FineStream` is needed: on a DMU on which every call succeeds, an
    accepted record that is not fine overruns the buffer, hands `dmu_write` bytes that were never
    read, leaves a bonus buffer held or keeps `restore_freeobjects` going for ever.
    `receive_safe_iff` puts both directions together. -/

namespace Sirius.Recv

open Sirius.Lib List Option

variable {σ : Type} (dmu : Dmu σ) (src : Source)

def Dmu.willing : Dmu Unit where
  objectInfo _ _ := 0
  txAssign _ := 0
  objectClaim _ _ := (0, ())
  objectReclaim _ _ := (0, ())
  objectSetChecksum _ _ _ := ()
  objectSetCompress _ _ _ := ()
  bonusFill _ _ _ := ()
  freeObject _ _ := (0, ())
  nextOffset _ offset := offset
  le_nextOffset _ offset := Nat.le_refl offset.toNat
  write _ _ _ := ()
  freeLongRange _ _ := (0, ())
  otByteswap _ data := data

/-- A vnode that hands out up to `n + 1` bytes at once, and no signals. -/
def Source.plain (n : ℕ) : Source := ⟨fun _ => n, 0, fun _ => false⟩

variable {s : St σ}

theorem restoreRead_extends (len : ℤ) (herr : s.err = 0) :
    s.acts <+: (restoreRead src len s).2.acts := by
  have h := (readLoop_spec src len.toNat (len.toNat + 1) [] s (by simp) (Nat.zero_le _)
    herr).extends_
  unfold restoreRead
  generalize readLoop src len.toNat (len.toNat + 1) [] s = r at h
  obtain ⟨d, s'⟩ := r
  cases d with
  | none | some data => exact h

theorem ot_extends (s : St σ) (type : ℕ) :
    s.acts <+: (if s.byteswap then s.did (.ot type) else s).acts := by
  split_ifs
  · exact prefix_append _ _
  · exact prefix_refl _

theorem restoreObject_extends (drro : DrrObject) (herr : s.err = 0) :
    s.acts <+: (restoreObject dmu src drro s).2.acts := by
  have hbonus : ∀ os, s.acts <+: (restoreBonus dmu src drro { s with os := os }).2.acts := by
    intro os
    unfold restoreBonus
    split_ifs
    · exact prefix_refl _
    have h := restoreRead_extends src (roundup8 drro.bonuslen.toNat : ℕ)
      (s := ({ s with os := os } : St σ).did (.hold drro.object)) herr
    generalize restoreRead src (roundup8 drro.bonuslen.toNat : ℕ)
      (({ s with os := os } : St σ).did (.hold drro.object)) = r at h
    obtain ⟨d, s'⟩ := r
    have h0 : s.acts <+: s'.acts := (prefix_append _ _).trans h
    cases d with
    | none => exact h0
    | some data => exact (h0.trans (ot_extends s' _)).trans (prefix_append _ _)
  unfold restoreObject
  dsimp only
  split_ifs
  all_goals first | exact prefix_refl _ | exact hbonus _

theorem restoreWrite_extends (drrw : DrrWrite) (herr : s.err = 0) :
    s.acts <+: (restoreWrite dmu src drrw s).2.acts := by
  unfold restoreWrite
  split_ifs
  · exact prefix_refl _
  have h := restoreRead_extends src (toInt drrw.length) herr
  generalize restoreRead src (toInt drrw.length) s = r at h
  obtain ⟨d, s'⟩ := r
  cases d with
  | none => exact h
  | some data =>
    dsimp only
    by_cases hinfo : dmu.objectInfo s'.os drrw.object ≠ 0
    · rw [if_pos hinfo]
      exact h
    rw [if_neg hinfo]
    by_cases htx : dmu.txAssign s'.os ≠ 0
    · rw [if_pos htx]
      exact h
    · rw [if_neg htx]
      exact (h.trans (ot_extends s' _)).trans (prefix_append _ _)

theorem restoreFree_acts (drrf : DrrFree) (s : St σ) :
    (restoreFree dmu drrf s).2.acts = s.acts := by
  unfold restoreFree
  split_ifs <;> rfl

variable {fuel : ℕ}

theorem restoreFreeobjects_acts {drrfo : DrrFreeobjects} {r : ℕ × St σ}
    (h : restoreFreeobjects dmu fuel drrfo s = some r) : r.2.acts = s.acts := by
  unfold restoreFreeobjects at h
  split_ifs at h
  · cases h
    rfl
  · obtain ⟨x, -, rfl⟩ := map_eq_some_iff.mp h
    rfl

variable {pcksum : Cksum} {drr : Drr}

theorem handle_extends (herr : s.err = 0) {b : Bool} {r : ℕ × St σ}
    (h : handle dmu src fuel pcksum drr s = some (b, r)) : s.acts <+: r.2.acts := by
  cases drr with
  | object drro =>
    cases h
    exact restoreObject_extends dmu src drro herr
  | freeobjects drrfo =>
    obtain ⟨x, hx, ⟨⟩⟩ := map_eq_some_iff.mp h
    rw [restoreFreeobjects_acts dmu hx]
  | write drrw =>
    cases h
    exact restoreWrite_extends dmu src drrw herr
  | free drrf =>
    cases h
    rw [restoreFree_acts]
  | finish checksum | other =>
    cases h
    exact prefix_refl _

variable {rounds : ℕ}

theorem recvLoop_record {r : St σ} (h : recvLoop dmu src fuel rounds pcksum s = some r)
    (herr : s.err = 0) (hrec : recordSize ≤ s.vp.length) :
    ∃ m s1, rounds = m + 1 ∧ s1.err = 0 ∧ s1.vp = s.vp.drop recordSize ∧ Adds s s1 ∧
      (r = { s1 with err := eintr } ∧ src.signal s1.voff = true ∨
        ∃ b x, handle dmu src fuel pcksum (decode s.byteswap (s.vp.take recordSize)) s1
            = some (b, x) ∧
          (if b then recvLoop dmu src fuel m x.2.cksum { x.2 with err := x.1 }
            else some { x.2 with err := x.1 }) = some r) := by
  cases rounds with
  | zero => cases h
  | succ m =>
    rw [recvLoop, if_neg (fun h => h herr)] at h
    obtain ⟨s1, hread, herr1, -, hvp, hadds⟩ := restoreRead_complete src (recordSize : ℕ) herr hrec
    have hadds1 := hadds (by simp [recordSize, bufsize])
    rw [hread] at h
    refine ⟨m, s1, rfl, herr1, hvp, hadds1, ?_⟩
    dsimp only at h
    by_cases hsig : src.signal s1.voff
    · rw [if_pos hsig] at h
      cases h
      exact .inl ⟨rfl, hsig⟩
    · rw [if_neg hsig, hadds1.byteswap] at h
      obtain ⟨⟨b, x⟩, hx, hr⟩ := bind_eq_some_iff.mp h
      exact .inr ⟨b, x, hx, hr⟩

theorem recvLoop_extends {rounds : ℕ} {pcksum : Cksum} {s r : St σ}
    (h : recvLoop dmu src fuel rounds pcksum s = some r) : s.acts <+: r.acts := by
  induction rounds generalizing pcksum s r with
  | zero =>
    cases h
  | succ rounds ih =>
    by_cases herr : s.err = 0
    · by_cases hrec : recordSize ≤ s.vp.length
      · obtain ⟨m, s1, hm, herr1, -, hadds, hcase⟩ := recvLoop_record dmu src h herr hrec
        cases hm
        obtain ⟨l, hl, -⟩ := hadds.acts
        have h₁ : s.acts <+: s1.acts := hl ▸ prefix_append _ _
        rcases hcase with ⟨rfl, -⟩ | ⟨b, x, hx, hr⟩
        · exact h₁
        have h2 := h₁.trans (handle_extends dmu src herr1 hx)
        cases b with
        | false =>
          cases hr
          exact h2
        | true =>
          have h3 := ih hr
          exact h2.trans h3
      · have hext := restoreRead_extends src (recordSize : ℕ) herr
        obtain ⟨s1, hread, -, -⟩ :=
          restoreRead_short src (recordSize : ℕ) herr (by rw [Int.toNat_natCast]; omega)
        rw [recvLoop, if_neg (fun h => h herr), hread] at h
        rw [hread] at hext
        cases h
        exact hext
    · rw [recvLoop, if_pos herr] at h
      cases h
      exact prefix_refl _

variable {n : ℕ}

theorem restoreRead_stores (len : ℤ) (hlen : 0 < len.toNat) (hn : s.vp.length ≤ n) :
    Action.store 0 (min len.toNat s.vp.length) ∈ (restoreRead (.plain n) len s).2.acts := by
  have hcount : (vnRdwr (.plain n) s len.toNat).2 = min len.toNat s.vp.length := by
    simp only [vnRdwr, Source.plain]
    omega
  have hloop : Action.store 0 (min len.toNat s.vp.length) ∈
      (readLoop (.plain n) len.toNat (len.toNat + 1) [] s).2.acts := by
    rw [readLoop, if_pos (by simpa using hlen)]
    generalize vnRdwr (.plain n) s len.toNat = r at hcount
    obtain ⟨e, k⟩ := r
    rw [← hcount]
    have hmem : Action.store 0 k ∈ s.acts ++ [Action.store 0 k] := by simp
    by_cases he : (if k = 0 then einval else e) = 0
    · rw [if_neg (fun h => h he)]
      have h := (readLoop_spec (.plain n) len.toNat len.toNat ([] ++ s.vp.take k) { s with
          err := if k = 0 then einval else e, vp := s.vp.drop k, voff := s.voff + k,
          acts := s.acts ++ [.store 0 k] } (by
            have hk0 : k ≠ 0 := by
              rintro rfl
              exact absurd he (by simp [einval])
            simp; omega) (by simp; omega) he).extends_
      exact h.subset hmem
    · rw [if_pos he]
      exact hmem
  unfold restoreRead
  generalize readLoop (.plain n) len.toNat (len.toNat + 1) [] s = r at hloop
  obtain ⟨d, s'⟩ := r
  cases d with
  | none | some data => exact hloop

variable {drro : DrrObject}

/-- With every DMU call a success, what is left of `restore_object` is the bonus buffer. -/
theorem restoreObject_willing (s : St Unit) (hok : ¬ BadObject drro) :
    restoreObject Dmu.willing src drro s = restoreBonus Dmu.willing src drro s := by
  unfold restoreObject
  rw [if_neg (fun h => h.1 rfl), if_neg hok]
  rfl

theorem restoreObject_leaks {s : St Unit} (hok : ¬ BadObject drro) (herr : s.err = 0)
    (hrel : Released s.acts) (hshort : s.vp.length < roundup8 drro.bonuslen.toNat) :
    (restoreObject Dmu.willing (.plain n) drro s).1 ≠ 0 ∧
      ¬ Released (restoreObject Dmu.willing (.plain n) drro s).2.acts := by
  have hlen : roundup8 drro.bonuslen.toNat ≤ bufsize := by
    refine roundup8_le ?_
    by_contra h
    exact hok (by unfold BadObject; omega)
  have h0 : drro.bonuslen ≠ 0 := by
    rintro h
    rw [h] at hshort
    exact absurd hshort (by simp [roundup8])
  obtain ⟨s', hread, hne, hadds⟩ := restoreRead_short (.plain n) (roundup8 drro.bonuslen.toNat : ℕ)
    (s := s.did (.hold drro.object)) herr hshort
  obtain ⟨l, hl, hclean⟩ := (hadds (by simp only [St.did]; omega)).acts
  have heq : restoreObject Dmu.willing (.plain n) drro s = (s'.err, s') := by
    rw [restoreObject_willing _ _ hok, restoreBonus, if_neg h0, hread]
  rw [heq]
  refine ⟨hne, fun hbad => ?_⟩
  have h1 := hbad drro.object
  rw [hl] at h1
  simp [St.did, hrel drro.object, hclean.released drro.object] at h1

theorem restoreBonus_err (herr : s.err = 0) (hlen : roundup8 drro.bonuslen.toNat ≤ s.vp.length) :
    (restoreBonus dmu src drro s).1 = 0 := by
  unfold restoreBonus
  split_ifs
  · rfl
  · obtain ⟨s', hread, -⟩ := restoreRead_complete src (roundup8 drro.bonuslen.toNat : ℕ)
      (s := s.did (.hold drro.object)) herr hlen
    rw [hread]

theorem restoreWrite_overruns {drrw : DrrWrite} {s : St Unit} (hok : ¬ BadWrite drrw)
    (herr : s.err = 0) (hn : s.vp.length ≤ n) (hbad : ¬ Drr.Fine s.vp (.write drrw)) :
    ∃ a ∈ (restoreWrite Dmu.willing (.plain n) drrw s).2.acts, ¬ a.Ok := by
  set t' := toInt drrw.length
  have hbig : bufsize < drrw.length.toNat := not_le.mp fun h => hbad (.inl h)
  unfold restoreWrite
  rw [if_neg hok]
  by_cases hshort : s.vp.length < t'.toNat
  · -- the stream ends inside the data, but behind the buffer
    have hlong : bufsize < s.vp.length := not_le.mp fun h => hbad (.inr ⟨by omega, h⟩)
    have hstore := restoreRead_stores t' (s := s) (by omega) hn
    obtain ⟨s', hread, -⟩ := restoreRead_short (.plain n) t' herr hshort
    rw [hread] at hstore ⊢
    refine ⟨_, hstore, ?_⟩
    simp only [Action.Ok]
    omega
  · obtain ⟨s', hread, -⟩ :=
      restoreRead_complete (.plain n) t' herr (not_lt.mp hshort)
    have hle := toInt_le drrw.length
    by_cases hall : t'.toNat = drrw.length.toNat
    · -- all of it is read, into a buffer that is shorter
      have hstore := restoreRead_stores t' (s := s) (by omega) hn
      rw [hread] at hstore ⊢
      refine ⟨_, (prefix_append _ _).subset ((ot_extends s' drrw.type.toNat).subset hstore), ?_⟩
      simp only [Action.Ok]
      omega
    · rw [hread]
      refine ⟨.write drrw.length.toNat (s.vp.take t'.toNat).length, ?_, ?_⟩
      · simp [Dmu.willing, St.did]
      · simp only [Action.Ok, length_take]
        omega

theorem freeobjectsLoop_err {last : BitVec 64} (hfree : ∀ os obj, (dmu.freeObject os obj).1 = 0)
    (fuel : ℕ) (obj : BitVec 64) (os : σ) (r : ℕ × σ)
    (h : freeobjectsLoop dmu last fuel obj os = some r) : r.1 = 0 := by
  induction fuel generalizing obj os r with
  | zero =>
    cases h
  | succ fuel ih =>
    rw [freeobjectsLoop] at h
    dsimp only at h
    split_ifs at h with hlt hinfo hfail
    · exact ih _ _ _ h
    · exact absurd (hfree os obj) hfail
    · exact ih _ _ _ h
    · cases h
      rfl

variable {r : St Unit} {bytes : List Byte}

/-- **Step lemma** for the conditions: a run in which nothing goes wrong handles an accepted
    record only if it is fine, and is then at the next one. -/
theorem willing_step {s : St Unit}
    (h : recvLoop Dmu.willing (.plain n) fuel rounds pcksum s = some r) (hgood : Clean r.acts)
    (herr : s.err = 0) (hrel : Released s.acts) (hn : s.vp.length ≤ n)
    (hrec : recordSize ≤ s.vp.length)
    (hdrr : drr = decode s.byteswap (s.vp.take recordSize)) (hok : drr.Accepted) :
    drr.Fine (s.vp.drop recordSize) ∧ (drr.payload ≤ (s.vp.drop recordSize).length →
        ∃ m pcksum' s', recvLoop Dmu.willing (.plain n) fuel m pcksum' s' = some r ∧
          s'.err = 0 ∧ Released s'.acts ∧ s'.byteswap = s.byteswap ∧
          s'.vp = (s.vp.drop recordSize).drop drr.payload) := by
  obtain ⟨m, s1, rfl, herr1, hvp, hadds, hcase⟩ := recvLoop_record _ _ h herr hrec
  rcases hcase with ⟨-, hsig⟩ | ⟨b, x, hx, hr⟩
  · exact absurd hsig (by simp [Source.plain])
  rw [← hdrr] at hx
  rw [← hvp]
  have hrel1 := hadds.released hrel
  -- a record handled without an error leaves the loop in front of the next one
  have hgo : b = true → Handled drr s1 x → x.1 = 0 →
      ∃ m pcksum' s', recvLoop Dmu.willing (.plain n) fuel m pcksum' s' = some r ∧
        s'.err = 0 ∧ Released s'.acts ∧ s'.byteswap = s.byteswap ∧
        s'.vp = s1.vp.drop drr.payload := by
    intro hb hh he
    rw [if_pos hb] at hr
    exact ⟨m, _, _, hr, he, hh.adds.released hrel1, hh.adds.byteswap.trans hadds.byteswap,
      (hh.next he).2⟩
  cases drr with
  | object drro =>
    obtain ⟨rfl, rfl⟩ : b = true ∧ x = restoreObject Dmu.willing (.plain n) drro s1 := by
      cases hx
      exact ⟨rfl, rfl⟩
    have hfine : roundup8 drro.bonuslen.toNat ≤ s1.vp.length := by
      by_contra hshort
      obtain ⟨he, hleak⟩ := restoreObject_leaks (n := n) hok herr1 hrel1 (not_le.mp hshort)
      cases m with
      | zero => cases hr
      | succ m =>
        rw [recvLoop, if_pos he] at hr
        cases hr
        exact hleak hgood.released
    refine ⟨hfine, fun _ => hgo rfl (restoreObject_spec _ _ herr1 fun _ => hfine) ?_⟩
    rw [restoreObject_willing _ _ hok]
    exact restoreBonus_err _ _ herr1 hfine
  | freeobjects drrfo =>
    obtain ⟨y, hy, ⟨⟩⟩ := map_eq_some_iff.mp hx
    unfold restoreFreeobjects at hy
    rw [if_neg hok] at hy
    obtain ⟨z, hz, rfl⟩ := map_eq_some_iff.mp hy
    have hz0 := freeobjectsLoop_err Dmu.willing (fun _ _ => rfl) _ _ _ _ hz
    refine ⟨?_, fun _ => hgo rfl ⟨⟨rfl, [], (append_nil _).symm, Clean.nil⟩,
      fun _ => ⟨hok, rfl⟩⟩ hz0⟩
    by_contra hbad
    have hrange := toNat_range hok
    have hbad' : ¬ (drrfo.numobjs.toNat = 0 ∨
        drrfo.firstobj.toNat + drrfo.numobjs.toNat < 2 ^ 55) := hbad
    have hlt : drrfo.firstobj < drrfo.firstobj + drrfo.numobjs :=
      show drrfo.firstobj.toNat < (drrfo.firstobj + drrfo.numobjs).toNat by omega
    rw [freeobjectsLoop_never_ends _ (by omega) (fun _ _ => rfl) _ _ _ hlt] at hz
    cases hz
  | write drrw =>
    obtain ⟨rfl, rfl⟩ : b = true ∧ x = restoreWrite Dmu.willing (.plain n) drrw s1 := by
      cases hx
      exact ⟨rfl, rfl⟩
    have hfine : Drr.Fine s1.vp (.write drrw) := by
      by_contra hbad
      obtain ⟨a, ha, hna⟩ := restoreWrite_overruns (n := n) hok herr1
        (by rw [hvp, length_drop]; omega) hbad
      have hext := recvLoop_extends _ _ hr
      exact hna (hgood.ok a (hext.subset ha))
    refine ⟨hfine, fun hlen => hgo rfl (restoreWrite_spec _ _ herr1 fun _ => hfine) ?_⟩
    have hle := toInt_le drrw.length
    simp only [Drr.payload] at hlen
    obtain ⟨s', hread, -⟩ := restoreRead_complete (.plain n) (toInt drrw.length) herr1 (by omega)
    rw [restoreWrite, if_neg hok, hread]
    rfl
  | free drrf =>
    obtain ⟨rfl, rfl⟩ : b = true ∧ x = restoreFree Dmu.willing drrf s1 := by
      cases hx
      exact ⟨rfl, rfl⟩
    refine ⟨trivial, fun _ => hgo rfl (restoreFree_spec _ drrf s1) ?_⟩
    rw [restoreFree, if_neg hok]
    rfl
  | finish checksum | other => exact absurd hok id

/-- **Run lemma** for the conditions: such a run gets to every record of the stream. -/
theorem willing_reaches {byteswap : Bool} {s : St Unit} (hs : s.vp = bytes)
    (hswap : s.byteswap = byteswap) (herr : s.err = 0) (hacts : s.acts = [])
    (h : recvLoop Dmu.willing (.plain bytes.length) fuel rounds pcksum s = some r)
    (hgood : Clean r.acts) {rest : List Byte} (hb : Boundary byteswap bytes rest) :
    recordSize ≤ rest.length → rest.length ≤ bytes.length ∧ ∃ m pcksum' s',
        recvLoop Dmu.willing (.plain bytes.length) fuel m pcksum' s' = some r ∧
        s'.err = 0 ∧ Released s'.acts ∧ s'.byteswap = byteswap ∧ s'.vp = rest := by
  induction hb with
  | start =>
    exact fun _ => ⟨le_refl _, rounds, pcksum, s, h, herr,
      by rw [hacts]; exact Clean.nil.released, hswap, hs⟩
  | next hb hlen hok ih =>
    intro hrec
    obtain ⟨hle, m, pcksum', s', hrun, herr', hrel, hswap', hvp⟩ := ih hlen
    subst hvp
    rw [← hswap'] at hok hrec ⊢
    obtain ⟨-, hgo⟩ := willing_step hrun hgood herr' hrel hle hlen rfl hok
    simp only [length_drop, recordSize] at hrec hlen ⊢
    obtain ⟨m', pcksum'', s'', hrun', herr'', hrel', hswap'', hvp''⟩ :=
      hgo (by simp only [length_drop, recordSize]; omega)
    exact ⟨by omega, m', pcksum'', s'', hrun', herr'', hrel', hswap'', hvp''⟩

theorem fine_of_receive {drc : Cookie}
    (hrun : dmuRecvStream Dmu.willing (.plain bytes.length) fuel drc bytes 0 () = some r)
    (hsafe : Safe drc r) : FineStream drc.byteswap bytes := by
  intro rest hb hrec hok
  obtain ⟨r0, hloop, hr0⟩ := map_eq_some_iff.mp hrun
  have hclean : Clean r0.acts := by
    have h := hsafe.clean
    rw [← hr0] at h
    split_ifs at h
    · exact h.of_append (Clean.cleanup drc)
    · exact h
  obtain ⟨hle, m, pcksum', s', hrun', herr', hrel, hswap, rfl⟩ :=
    willing_reaches (s := recvStart drc bytes 0 ()) rfl rfl rfl rfl hloop hclean hb hrec
  have hswap' : s'.byteswap = drc.byteswap := hswap
  rw [← hswap'] at hok ⊢
  exact (willing_step hrun' hclean herr' hrel hle hrec rfl hok).1

/-- **HEADLINE** (`receive_safe_iff`): whatever the DMU and the vnode answer, a stream is received
    in finitely many steps, without a byte stored behind `ra.buf`, a write of more than was read,
    a row of `dmu_ot[]` that is not there, a bonus buffer still held or an error without cleanup:
    exactly if every record that its handler accepts is fine. -/
theorem receive_safe_iff (drc : Cookie) (bytes : List Byte) :
    (∀ (σ : Type) (dmu : Dmu σ) (src : Source) (voff : ℕ) (os : σ),
      ∃ fuel r, dmuRecvStream dmu src fuel drc bytes voff os = some r ∧ Safe drc r) ↔
    FineStream drc.byteswap bytes := by
  constructor
  · intro h
    obtain ⟨fuel, r, hrun, hsafe⟩ := h Unit Dmu.willing (.plain bytes.length) 0 ()
    exact fine_of_receive hrun hsafe
  · intro hfine σ dmu src voff os
    exact receive_of_fine dmu src hfine voff os

/-- A begin record as `dmu_recv_begin` accepts it, in the order of the machine. -/
def plainCookie : Cookie where
  drrb := beBytes 8 dmuBackupMagic ++ beBytes 8 1 ++ replicate 288 0
  newfs := true
  realDs := 1
  logicalDs := 1

/-- A `DRR_WRITE` of `2^32` bytes to object 1, and nothing behind it. -/
def hostileStream : List Byte :=
  beBytes 4 3 ++ beBytes 4 0 ++ beBytes 8 1 ++ beBytes 4 19 ++ beBytes 4 0 ++ beBytes 8 0 ++
    beBytes 8 (2 ^ 32) ++ replicate 272 0

/-- The length is 0 as an `int`: nothing is read and `2^32` bytes are written. -/
theorem hostile_write_overruns :
    ¬ ∃ fuel r, dmuRecvStream Dmu.willing (.plain hostileStream.length) fuel plainCookie
      hostileStream 0 () = some r ∧ Safe plainCookie r := by
  rintro ⟨fuel, r, hrun, hsafe⟩
  have hswap : plainCookie.byteswap = false := by decide
  have hdrr : decode false (hostileStream.take recordSize) = .write ⟨1, 19, 0, 2 ^ 32⟩ := by decide
  have hsize : hostileStream.length = recordSize := by
    unfold hostileStream
    simp only [length_append, length_replicate]
    rfl
  have hfine := fine_of_receive hrun hsafe hostileStream Boundary.start (le_of_eq hsize.symm)
  rw [hswap, hdrr] at hfine
  have hok : ¬ BadWrite ⟨1, 19, 0, 2 ^ 32⟩ := by decide
  have hlen : toInt (2 ^ 32) = 0 := by decide
  rcases hfine hok with h | ⟨h, -⟩
  · exact absurd h (by decide)
  · rw [hlen] at h
    omega

end Sirius.Recv
