import Sirius.Zfs.DmuRecv

/-! # Receiving a stream that keeps to its lengths

    `dmu_recv_stream` trusts that a `DRR_WRITE` is no longer than the buffer and that its
    length survives the conversion to `int`, that the bonus announced by a `DRR_OBJECT` really
    follows, and that the objects of a `DRR_FREEOBJECTS` end below `2^55`, where
    `dmu_object_next` shifts their numbers out of 64 bits.  `FineStream` says this of a
    stream, and `receive_of_fine` that it is enough, whatever the DMU and the vnode answer:
    one lemma for each handler, then the loop. -/

namespace Sirius.Recv

open Sirius.Lib List

variable {σ : Type}

/-! ## The actions of a run -/

def Action.Ok : Action → Prop
  | .store done n => done + n ≤ bufsize
  | .write given read => given ≤ read
  | .ot type => type < dmuOtNumtypes
  | _ => True

def Released (acts : List Action) : Prop :=
  ∀ object, acts.count (.hold object) = acts.count (.rele object)

structure Clean (acts : List Action) : Prop where
  ok : ∀ a ∈ acts, a.Ok
  released : Released acts

theorem Clean.nil : Clean [] := ⟨nofun, fun _ => rfl⟩

variable {l l' : List Action} {type : ℕ}

theorem Clean.append (h : Clean l) (h' : Clean l') : Clean (l ++ l') where
  ok a ha := (mem_append.mp ha).elim (h.ok a) (h'.ok a)
  released object := by
    rw [count_append, count_append, h.released object, h'.released object]

theorem Clean.of_append (h : Clean (l ++ l')) (h' : Clean l') : Clean l where
  ok a ha := h.ok a (mem_append_left _ ha)
  released object := by
    have hsum := h.released object
    rw [count_append, count_append, h'.released object] at hsum
    exact Nat.add_right_cancel hsum

theorem Clean.single {a : Action} (h : a.Ok) (hh : ∀ object, a ≠ .hold object)
    (hr : ∀ object, a ≠ .rele object) : Clean [a] where
  ok b hb := by rw [mem_singleton.mp hb]; exact h
  released object := by
    rw [count_singleton, count_singleton, beq_eq_false_iff_ne.mpr (hh object),
      beq_eq_false_iff_ne.mpr (hr object)]

theorem Clean.store {done n : ℕ} (h : done + n ≤ bufsize) : Clean [.store done n] :=
  Clean.single h (fun _ => by simp) (fun _ => by simp)

theorem Clean.ot (h : type < dmuOtNumtypes) : Clean [.ot type] :=
  Clean.single h (fun _ => by simp) (fun _ => by simp)

theorem Clean.write {given read : ℕ} (h : given ≤ read) : Clean [.write given read] :=
  Clean.single h (fun _ => by simp) (fun _ => by simp)

theorem Clean.between (h : Clean l) (object : BitVec 64) :
    Clean (.hold object :: l ++ [.rele object]) where
  ok a ha := by
    rcases mem_append.mp ha with ha | ha
    · rcases mem_cons.mp ha with rfl | ha
      · trivial
      · exact h.ok a ha
    · rw [mem_singleton.mp ha]
      trivial
  released o := by
    have hl := h.released o
    by_cases ho : object = o
    · subst ho
      simp [hl]
    · simp [hl, ho]

theorem Clean.cleanup (drc : Cookie) : Clean (dmuRecvAbortCleanup drc) := by
  unfold dmuRecvAbortCleanup
  refine ⟨fun a ha => ?_, fun object => ?_⟩
  · split_ifs at ha <;> simp only [mem_cons, not_mem_nil, or_false] at ha
    · rcases ha with rfl | rfl <;> trivial
    · rw [ha]; trivial
    · rcases ha with rfl | rfl <;> trivial
  · split_ifs <;> simp

/-- `s'` comes behind `s`, with nothing wrong in between, in the same byte order. -/
structure Adds (s s' : St σ) : Prop where
  byteswap : s'.byteswap = s.byteswap
  acts : ∃ l, s'.acts = s.acts ++ l ∧ Clean l

theorem Adds.refl (s : St σ) : Adds s s := ⟨rfl, [], (append_nil _).symm, Clean.nil⟩

variable {s s' : St σ} {drro : DrrObject} {drr : Drr} {last : BitVec 64}

theorem Adds.trans {s'' : St σ} (h : Adds s s') (h' : Adds s' s'') : Adds s s'' := by
  obtain ⟨l, hl, hc⟩ := h.acts
  obtain ⟨l', hl', hc'⟩ := h'.acts
  exact ⟨h'.byteswap.trans h.byteswap, l ++ l', by rw [hl', hl, append_assoc], hc.append hc'⟩

theorem Adds.clean (h : Adds s s') (hs : Clean s.acts) : Clean s'.acts := by
  obtain ⟨l, hl, hc⟩ := h.acts
  rw [hl]
  exact hs.append hc

theorem Adds.released (h : Adds s s') (hs : Released s.acts) : Released s'.acts := by
  obtain ⟨l, hl, hc⟩ := h.acts
  intro object
  rw [hl, count_append, count_append, hs object, hc.released object]

/-- One round of the loop of `restore_read`: it stores `n` bytes of those that are left, none only
    if there are none left. -/
theorem vnRdwr_count (src : Source) (s : St σ) {want : ℕ} (hw : 0 < want) :
    (vnRdwr src s want).2 ≤ want ∧ (vnRdwr src s want).2 ≤ s.vp.length ∧
      ((vnRdwr src s want).2 = 0 → s.vp = []) := by
  simp only [vnRdwr]
  refine ⟨by omega, by omega, fun h => eq_nil_of_length_eq_zero ?_⟩
  omega

theorem vnRdwr_error {src : Source} {want : ℕ} (h : (vnRdwr src s want).1 ≠ 0) :
    s.vp.length < want := by
  simp only [vnRdwr] at h ⊢
  split_ifs at h with hn
  · omega
  · exact absurd rfl h

/-- What a read leaves, apart from the actions: everything but the stream and the error. -/
structure ReadsTo (src : Source) (len : ℕ) (data : List Byte) (s : St σ)
    (r : Option (List Byte) × St σ) : Prop where
  os : r.2.os = s.os
  cksum : r.2.cksum = s.cksum
  /-- The bytes are there: they are returned. -/
  complete : len ≤ data.length + s.vp.length →
    r.1 = some (data ++ s.vp.take (len - data.length)) ∧ r.2.err = 0 ∧
      r.2.vp = s.vp.drop (len - data.length)
  /-- They are not: the read fails. -/
  short : data.length + s.vp.length < len → r.1 = none ∧ r.2.err ≠ 0
  adds : min len (data.length + s.vp.length) ≤ bufsize → Adds s r.2
  /-- Whatever is stored was done in order. -/
  extends_ : s.acts <+: r.2.acts

/-- **Run lemma** of `restore_read`: the loop reads on until it has its bytes or the stream ends. -/
theorem readLoop_spec (src : Source) (len : ℕ) :
    ∀ (fuel : ℕ) (data : List Byte) (s : St σ), len < data.length + fuel → data.length ≤ len →
      s.err = 0 → ReadsTo src len data s (readLoop src len fuel data s) := by
  intro fuel
  induction fuel with
  | zero =>
    intro data s hfuel hd _
    omega
  | succ fuel ih =>
    intro data s hfuel hd herr
    rw [readLoop]
    by_cases hlt : data.length < len
    · rw [if_pos hlt]
      have hw : 0 < len - data.length := by omega
      obtain ⟨hn, hvp, hzero⟩ := vnRdwr_count src s hw
      have hbad := @vnRdwr_error σ s src (len - data.length)
      generalize vnRdwr src s (len - data.length) = r at hn hvp hzero hbad
      obtain ⟨e, n⟩ := r
      have hstore : min len (data.length + s.vp.length) ≤ bufsize →
          Clean [Action.store data.length n] := fun hb => Clean.store (by omega)
      by_cases he : (if n = 0 then einval else e) = 0
      · -- the round stored something and the loop goes on
        rw [if_neg (by rw [he]; exact fun h => h rfl)]
        have hn0 : n ≠ 0 := by
          rintro rfl
          exact absurd he (by simp [einval])
        have hlen : (data ++ s.vp.take n).length = data.length + n := by
          rw [length_append, length_take, min_eq_left hvp]
        have hrest := ih (data ++ s.vp.take n) { s with
            err := if n = 0 then einval else e, vp := s.vp.drop n, voff := s.voff + n,
            acts := s.acts ++ [.store data.length n] }
          (by rw [hlen]; omega) (by rw [hlen]; omega) he
        have htotal : (data ++ s.vp.take n).length + (s.vp.drop n).length
            = data.length + s.vp.length := by
          rw [length_drop]; omega
        refine ⟨hrest.os, hrest.cksum, fun hc => ?_, fun hs => ?_, fun hb => ?_, ?_⟩
        · obtain ⟨h1, h2, h3⟩ := hrest.complete (by dsimp only; rw [htotal]; exact hc)
          refine ⟨h1.trans ?_, h2, h3.trans ?_⟩
          · rw [append_assoc, ← take_add]
            congr 3
            omega
          · rw [drop_drop]
            congr 1
            omega
        · exact hrest.short (by dsimp only; rw [htotal]; exact hs)
        · refine Adds.trans ?_ (hrest.adds (by dsimp only; rw [htotal]; exact hb))
          exact ⟨rfl, _, rfl, hstore hb⟩
        · exact (prefix_append _ _).trans hrest.extends_
      · rw [if_pos he]
        -- either nothing was stored or the vnode failed: the stream is too short
        have hshort : data.length + s.vp.length < len := by
          by_cases hn0 : n = 0
          · rw [hzero hn0]; omega
          · rw [if_neg hn0] at he
            omega
        exact ⟨rfl, rfl, fun hc => absurd hshort (by omega), fun _ => ⟨rfl, he⟩,
          fun hb => ⟨rfl, _, rfl, hstore hb⟩, prefix_append _ _⟩
    · rw [if_neg hlt]
      have heq : data.length = len := by omega
      refine ⟨rfl, rfl, fun _ => ?_, fun hs => absurd hs (by omega), fun _ => Adds.refl s,
        prefix_refl _⟩
      rw [heq, Nat.sub_self, take_zero, append_nil]
      exact ⟨rfl, herr, rfl⟩

theorem restoreRead_complete (src : Source) (len : ℤ) (herr : s.err = 0)
    (hlen : len.toNat ≤ s.vp.length) : ∃ s',
      restoreRead src len s = (some (s.vp.take len.toNat), s') ∧ s'.err = 0 ∧ s'.os = s.os ∧
        s'.vp = s.vp.drop len.toNat ∧ (len.toNat ≤ bufsize → Adds s s') := by
  have h := readLoop_spec src len.toNat (len.toNat + 1) [] s (by simp) (Nat.zero_le _) herr
  obtain ⟨h1, h2, h3⟩ := h.complete (by simpa using hlen)
  rw [restoreRead, show readLoop src _ _ [] s = (_, _) from Prod.ext h1 rfl]
  exact ⟨_, rfl, h2, h.os, h3, fun hb => { h.adds (by simp; omega) with }⟩

theorem restoreRead_short (src : Source) (len : ℤ) (herr : s.err = 0)
    (hlen : s.vp.length < len.toNat) : ∃ s', restoreRead src len s = (none, s') ∧ s'.err ≠ 0 ∧
        (s.vp.length ≤ bufsize → Adds s s') := by
  have h := readLoop_spec src len.toNat (len.toNat + 1) [] s (by simp) (Nat.zero_le _) herr
  obtain ⟨h1, h2⟩ := h.short (by simpa using hlen)
  rw [restoreRead, show readLoop src _ _ [] s = (_, _) from Prod.ext h1 rfl]
  exact ⟨_, rfl, h2, fun hb => h.adds (by simp; omega)⟩

/-- The length of an accepted write is what `restore_read` gets, if it fits the buffer. -/
theorem toInt_eq {x : BitVec 64} (h : x.toNat ≤ bufsize) : toInt x = x.toNat := by
  unfold toInt bufsize at *
  rw [BitVec.toInt_eq_toNat_cond, BitVec.toNat_setWidth, Nat.mod_eq_of_lt (by omega),
    if_pos (by omega)]

theorem toInt_le (x : BitVec 64) : (toInt x).toNat ≤ x.toNat := by
  unfold toInt
  rw [BitVec.toInt_eq_toNat_cond, BitVec.toNat_setWidth]
  split_ifs <;> omega

theorem roundup8_le {x : ℕ} (h : x ≤ dnMaxBonuslen) : roundup8 x ≤ bufsize := by
  unfold roundup8 dnMaxBonuslen bufsize at *
  omega

theorem adds_ot (h : type < dmuOtNumtypes) :
    Adds s (if s.byteswap then s.did (.ot type) else s) := by
  split_ifs
  · exact ⟨rfl, _, rfl, Clean.ot h⟩
  · exact Adds.refl s

theorem ot_vp (s : St σ) (type : ℕ) : (if s.byteswap then s.did (.ot type) else s).vp = s.vp := by
  split_ifs <;> rfl

def Drr.Accepted : Drr → Prop
  | .object drro => ¬ BadObject drro
  | .freeobjects drrfo => ¬ drrfo.firstobj + drrfo.numobjs < drrfo.firstobj
  | .write drrw => ¬ BadWrite drrw
  | .free drrf => ¬ BadFree drrf
  | .finish _ | .other => False

/-- The bytes of the stream that belong to a record, behind its header. -/
def Drr.payload : Drr → ℕ
  | .object drro => roundup8 drro.bonuslen.toNat
  | .write drrw => drrw.length.toNat
  | _ => 0

/-- What the receiver needs of an accepted record in front of `rest`. -/
def Drr.Fine (rest : List Byte) : Drr → Prop
  | .object drro => roundup8 drro.bonuslen.toNat ≤ rest.length
  | .freeobjects drrfo =>
    drrfo.numobjs.toNat = 0 ∨ drrfo.firstobj.toNat + drrfo.numobjs.toNat < 2 ^ 55
  | .write drrw =>
    drrw.length.toNat ≤ bufsize ∨ ((rest.length : ℤ) < toInt drrw.length ∧ rest.length ≤ bufsize)
  | _ => True

/-- How a handler leaves a record: nothing went wrong, and without an error the stream is at
    the next record. -/
structure Handled (drr : Drr) (s : St σ) (r : ℕ × St σ) : Prop where
  adds : Adds s r.2
  next : r.1 = 0 → drr.Accepted ∧ r.2.vp = s.vp.drop drr.payload

variable (dmu : Dmu σ) (src : Source)

theorem restoreBonus_spec (hok : ¬ BadObject drro) (herr : s.err = 0)
    (hfine : roundup8 drro.bonuslen.toNat ≤ s.vp.length) :
    Handled (.object drro) s (restoreBonus dmu src drro s) := by
  have hlen : drro.bonuslen.toNat ≤ dnMaxBonuslen := by
    by_contra h
    exact hok (by unfold BadObject; omega)
  have htype : drro.bonustype.toNat < dmuOtNumtypes := by
    by_contra h
    exact hok (by unfold BadObject; omega)
  unfold restoreBonus
  by_cases h0 : drro.bonuslen = 0
  · rw [if_pos h0]
    refine ⟨Adds.refl s, fun _ => ⟨hok, ?_⟩⟩
    simp [Drr.payload, h0, roundup8]
  rw [if_neg h0]
  obtain ⟨s', hread, -, -, hvp, hadds⟩ := restoreRead_complete src
    (roundup8 drro.bonuslen.toNat : ℕ) (s := s.did (.hold drro.object)) herr hfine
  rw [hread]
  have hs' := (hadds (roundup8_le hlen)).trans (adds_ot htype)
  obtain ⟨l, hl, hclean⟩ := hs'.acts
  refine ⟨⟨hs'.byteswap, _, ?_, hclean.between drro.object⟩, fun _ => ⟨hok, ?_⟩⟩
  · simp only [St.did] at hl ⊢
    rw [hl]
    simp
  · exact (ot_vp s' _).trans hvp

theorem Handled.failed {e : ℕ} (he : e ≠ 0) (os : σ) : Handled drr s (e, { s with os := os }) :=
  ⟨⟨rfl, [], (append_nil _).symm, Clean.nil⟩, fun h => absurd h he⟩

theorem einval_ne : einval ≠ 0 := by simp [einval]

theorem restoreObject_spec (herr : s.err = 0)
    (hfine : ¬ BadObject drro → roundup8 drro.bonuslen.toNat ≤ s.vp.length) :
    Handled (.object drro) s (restoreObject dmu src drro s) := by
  unfold restoreObject
  by_cases hinfo : dmu.objectInfo s.os drro.object ≠ 0 ∧ dmu.objectInfo s.os drro.object ≠ enoent
  · rw [if_pos hinfo]
    exact Handled.failed einval_ne s.os
  rw [if_neg hinfo]
  by_cases hbad : BadObject drro
  · rw [if_pos hbad]
    exact Handled.failed einval_ne s.os
  rw [if_neg hbad]
  by_cases htx : dmu.txAssign s.os ≠ 0
  · rw [if_pos htx]
    exact Handled.failed htx s.os
  dsimp only
  have hbonus : ∀ os, Handled (.object drro) s (restoreBonus dmu src drro { s with os := os }) := by
    intro os
    have h := restoreBonus_spec dmu src hbad (s := { s with os := os }) herr (hfine hbad)
    exact ⟨⟨h.adds.byteswap, h.adds.acts⟩, h.next⟩
  split_ifs
  · exact Handled.failed einval_ne _
  · exact hbonus _
  · exact Handled.failed einval_ne _
  · exact hbonus _

theorem restoreWrite_spec {drrw : DrrWrite} (herr : s.err = 0)
    (hfine : ¬ BadWrite drrw → Drr.Fine s.vp (.write drrw)) :
    Handled (.write drrw) s (restoreWrite dmu src drrw s) := by
  unfold restoreWrite
  by_cases hbad : BadWrite drrw
  · rw [if_pos hbad]
    exact Handled.failed einval_ne s.os
  rw [if_neg hbad]
  have htype : drrw.type.toNat < dmuOtNumtypes := by
    by_contra h
    exact hbad (.inr (by omega))
  by_cases hshort : s.vp.length < (toInt drrw.length).toNat
  · -- the stream ends inside the data
    have hbuf : s.vp.length ≤ bufsize := by
      rcases hfine hbad with hle | ⟨-, hle⟩
      · have := toInt_le drrw.length
        omega
      · exact hle
    obtain ⟨s', hread, hne, hadds⟩ := restoreRead_short src (toInt drrw.length) herr hshort
    rw [hread]
    exact ⟨hadds hbuf, fun h => absurd h hne⟩
  · have hle : drrw.length.toNat ≤ bufsize := by
      rcases hfine hbad with hle | ⟨hlt, -⟩
      · exact hle
      · omega
    have hint := toInt_eq hle
    obtain ⟨s', hread, -, -, hvp, hadds⟩ :=
      restoreRead_complete src (toInt drrw.length) herr (not_lt.mp hshort)
    rw [hread]
    rw [hint] at hadds hvp hshort
    rw [hint]
    dsimp only
    have hs' := hadds hle
    by_cases hinfo : dmu.objectInfo s'.os drrw.object ≠ 0
    · rw [if_pos hinfo]
      exact ⟨hs', fun h => absurd h einval_ne⟩
    rw [if_neg hinfo]
    by_cases htx : dmu.txAssign s'.os ≠ 0
    · rw [if_pos htx]
      exact ⟨hs', fun h => absurd h htx⟩
    rw [if_neg htx]
    have hlen : drrw.length.toNat ≤ (s.vp.take drrw.length.toNat).length := by
      rw [length_take]
      omega
    have hot := hs'.trans (adds_ot htype)
    obtain ⟨l, hl, hclean⟩ := hot.acts
    refine ⟨⟨hot.byteswap, _, ?_, hclean.append (Clean.write hlen)⟩,
      fun _ => ⟨hbad, (ot_vp s' _).trans hvp⟩⟩
    rw [← append_assoc, ← hl]
    rfl

theorem restoreFree_spec (drrf : DrrFree) (s : St σ) :
    Handled (.free drrf) s (restoreFree dmu drrf s) := by
  unfold restoreFree
  by_cases hbad : BadFree drrf
  · rw [if_pos hbad]
    exact Handled.failed einval_ne s.os
  · split_ifs
    · exact Handled.failed einval_ne s.os
    · exact ⟨⟨rfl, [], (append_nil _).symm, Clean.nil⟩, fun _ => ⟨hbad, rfl⟩⟩

/-- The object `dmu_object_next` finds, as long as its number can be shifted. -/
theorem lt_dmuObjectNext (os : σ) (object : BitVec 64) (h : object.toNat + 1 < 2 ^ 55) :
    object.toNat < (dmuObjectNext dmu os object).toNat := by
  have hsucc : (object + 1).toNat = object.toNat + 1 := by
    rw [BitVec.toNat_add, show (1 : BitVec 64).toNat = 1 from rfl]
    omega
  have hshift : ((object + 1) <<< dnodeShift).toNat = (object.toNat + 1) * 512 := by
    rw [BitVec.toNat_shiftLeft, dnodeShift]
    omega
  have hle : ((object + 1) <<< dnodeShift).toNat
      ≤ (dmu.nextOffset os ((object + 1) <<< dnodeShift)).toNat := dmu.le_nextOffset _ _
  rw [dmuObjectNext, BitVec.toNat_ushiftRight, Nat.shiftRight_eq_div_pow,
    show 2 ^ dnodeShift = 512 from rfl]
  omega

theorem dmuObjectNext_lt (os : σ) (object : BitVec 64) :
    (dmuObjectNext dmu os object).toNat < 2 ^ 55 := by
  rw [dmuObjectNext, BitVec.toNat_ushiftRight, Nat.shiftRight_eq_div_pow,
    show 2 ^ dnodeShift = 512 from rfl]
  omega

/-- **Run lemma** of `restore_freeobjects`: below `2^55` every round gets closer to the end. -/
theorem freeobjectsLoop_ends (hlast : last.toNat < 2 ^ 55) (fuel : ℕ) (obj : BitVec 64) (os : σ)
    (hfuel : last.toNat ≤ obj.toNat + fuel) : ∃ r, freeobjectsLoop dmu last (fuel + 1) obj os
    = some r := by
  induction fuel generalizing obj os with
  | zero =>
    have hge : ¬ obj < last := fun h => absurd (show obj.toNat < last.toNat from h) (by omega)
    rw [freeobjectsLoop, if_neg hge]
    exact ⟨_, rfl⟩
  | succ fuel ih =>
    rw [freeobjectsLoop]
    by_cases hlt : obj < last
    · have hlt' : obj.toNat < last.toNat := hlt
      have hnext : ∀ os', last.toNat ≤ (dmuObjectNext dmu os' obj).toNat + fuel := by
        intro os'
        have := lt_dmuObjectNext dmu os' obj (by omega)
        omega
      dsimp only
      split_ifs
      · exact ih _ _ (hnext os)
      · exact ⟨_, rfl⟩
      · exact ih _ _ (hnext _)
    · rw [if_neg hlt]
      exact ⟨_, rfl⟩

theorem freeobjectsLoop_never_ends (hlast : 2 ^ 55 ≤ last.toNat)
    (hfree : ∀ os obj, (dmu.freeObject os obj).1 = 0) :
    ∀ (fuel : ℕ) (obj : BitVec 64) (os : σ), obj < last →
      freeobjectsLoop dmu last fuel obj os = none := by
  intro fuel
  induction fuel with
  | zero => exact fun _ _ _ => rfl
  | succ fuel ih =>
    intro obj os hlt
    have hnext : ∀ os', dmuObjectNext dmu os' obj < last := fun os' =>
      show (dmuObjectNext dmu os' obj).toNat < last.toNat from
        lt_of_lt_of_le (dmuObjectNext_lt dmu os' obj) hlast
    rw [freeobjectsLoop, if_pos hlt]
    by_cases hinfo : dmu.objectInfo os obj ≠ 0
    · rw [if_pos hinfo]
      exact ih _ _ (hnext os)
    · rw [if_neg hinfo, if_neg (fun h => h (hfree os obj))]
      exact ih _ _ (hnext _)

/-- The end of the range, if `restore_freeobjects` lets it through. -/
theorem toNat_range {first num : BitVec 64} (h : ¬ first + num < first) :
    (first + num).toNat = first.toNat + num.toNat := by
  have h' : ¬ (first + num).toNat < first.toNat := h
  rw [BitVec.toNat_add] at h' ⊢
  omega

variable {fuel : ℕ} {bytes : List Byte}

theorem restoreFreeobjects_spec {drrfo : DrrFreeobjects} (hfuel : 2 ^ 55 ≤ fuel) (s : St σ)
    (hfine : Drr.Accepted (.freeobjects drrfo) → Drr.Fine s.vp (.freeobjects drrfo)) :
    ∃ r, restoreFreeobjects dmu fuel drrfo s = some r ∧ Handled (.freeobjects drrfo) s r := by
  unfold restoreFreeobjects
  by_cases hbad : drrfo.firstobj + drrfo.numobjs < drrfo.firstobj
  · rw [if_pos hbad]
    exact ⟨_, rfl, Handled.failed einval_ne s.os⟩
  rw [if_neg hbad]
  have hrange := toNat_range hbad
  obtain ⟨r, hr⟩ : ∃ r, freeobjectsLoop dmu (drrfo.firstobj + drrfo.numobjs) fuel
      drrfo.firstobj s.os = some r := by
    obtain ⟨n, rfl⟩ : ∃ n, fuel = n + 1 := ⟨fuel - 1, by omega⟩
    rcases hfine hbad with h0 | hlt
    · have hge : ¬ drrfo.firstobj < drrfo.firstobj + drrfo.numobjs := fun h =>
        absurd (show drrfo.firstobj.toNat < (drrfo.firstobj + drrfo.numobjs).toNat from h)
          (by omega)
      rw [freeobjectsLoop, if_neg hge]
      exact ⟨_, rfl⟩
    · exact freeobjectsLoop_ends dmu (by omega) n _ _ (by omega)
  rw [hr]
  exact ⟨_, rfl, ⟨rfl, [], (append_nil _).symm, Clean.nil⟩, fun _ => ⟨hbad, rfl⟩⟩

/-- Where a record of the stream `bytes` starts, if every record in front of it is accepted. -/
inductive Boundary (byteswap : Bool) (bytes : List Byte) : List Byte → Prop
  | start : Boundary byteswap bytes bytes
  | next {rest : List Byte} (h : Boundary byteswap bytes rest) (hlen : recordSize ≤ rest.length)
      (hok : (decode byteswap (rest.take recordSize)).Accepted) :
      Boundary byteswap bytes
        ((rest.drop recordSize).drop (decode byteswap (rest.take recordSize)).payload)

def FineStream (byteswap : Bool) (bytes : List Byte) : Prop :=
  ∀ rest, Boundary byteswap bytes rest → recordSize ≤ rest.length →
    (decode byteswap (rest.take recordSize)).Accepted →
      (decode byteswap (rest.take recordSize)).Fine (rest.drop recordSize)

structure Safe (drc : Cookie) (s : St σ) : Prop where
  /-- Every byte `restore_read` stores lies in the buffer. -/
  stores : ∀ done n, Action.store done n ∈ s.acts → done + n ≤ bufsize
  /-- `dmu_write` gets no more bytes than were read. -/
  writes : ∀ given read, Action.write given read ∈ s.acts → given ≤ read
  /-- `dmu_ot[]` is indexed inside. -/
  tables : ∀ type, Action.ot type ∈ s.acts → type < dmuOtNumtypes
  /-- Every bonus buffer is released. -/
  released : Released s.acts
  /-- An error leads to `dmu_recv_abort_cleanup`. -/
  cleaned : s.err ≠ 0 → dmuRecvAbortCleanup drc <:+ s.acts

/-- **Step lemma** of the receive loop: a fine record is handled, in finitely many steps. -/
theorem handle_spec (hfuel : 2 ^ 55 ≤ fuel) (pcksum : Cksum) (herr : s.err = 0)
    (hfine : drr.Accepted → drr.Fine s.vp) :
    ∃ b r, handle dmu src fuel pcksum drr s = some (b, r) ∧ Adds s r.2 ∧
      (b = true → Handled drr s r) := by
  cases drr with
  | object drro =>
    have h := restoreObject_spec dmu src herr hfine
    exact ⟨true, _, rfl, h.adds, fun _ => h⟩
  | freeobjects drrfo =>
    obtain ⟨r, hr, h⟩ := restoreFreeobjects_spec dmu hfuel s hfine
    exact ⟨true, r, by rw [handle, hr]; rfl, h.adds, fun _ => h⟩
  | write drrw =>
    have h := restoreWrite_spec dmu src herr hfine
    exact ⟨true, _, rfl, h.adds, fun _ => h⟩
  | free drrf =>
    have h := restoreFree_spec dmu drrf s
    exact ⟨true, _, rfl, h.adds, fun _ => h⟩
  | finish checksum | other => exact ⟨false, _, rfl, Adds.refl s, nofun⟩

/-- **Run lemma**: from any record of a fine stream the loop comes to its end with nothing wrong. -/
theorem recvLoop_clean {byteswap : Bool} (hfine : FineStream byteswap bytes)
    (hfuel : 2 ^ 55 ≤ fuel) :
    ∀ (rounds : ℕ) (pcksum : Cksum) (s : St σ), s.vp.length < rounds →
      s.byteswap = byteswap → Clean s.acts → (s.err = 0 → Boundary byteswap bytes s.vp) →
      ∃ r, recvLoop dmu src fuel (rounds + 1) pcksum s = some r ∧ Clean r.acts := by
  intro rounds
  induction rounds with
  | zero =>
    intro pcksum s hlen
    exact absurd hlen (Nat.not_lt_zero _)
  | succ rounds ih =>
    intro pcksum s hlen hswap hclean hbound
    rw [recvLoop]
    by_cases herr : s.err = 0
    · rw [if_neg (fun h => h herr)]
      by_cases hrec : recordSize ≤ s.vp.length
      · obtain ⟨s1, hread, herr1, -, hvp, hadds⟩ :=
          restoreRead_complete src (recordSize : ℕ) herr hrec
        have hadds1 := hadds (by simp [recordSize, bufsize])
        rw [Int.toNat_natCast] at hread hvp
        rw [hread]
        dsimp only
        have hclean1 := hadds1.clean hclean
        by_cases hsig : src.signal s1.voff
        · rw [if_pos hsig]
          exact ⟨_, rfl, hclean1⟩
        rw [if_neg hsig]
        have hswap1 : s1.byteswap = byteswap := hadds1.byteswap.trans hswap
        have hb := hbound herr
        rw [hswap1]
        obtain ⟨b, r, hr, hadds2, hnext⟩ := handle_spec dmu src hfuel pcksum herr1
          (fun hok => by rw [hvp]; exact hfine _ hb hrec hok)
        rw [hr, Option.bind_some]
        cases b with
        | false => exact ⟨_, rfl, hadds2.clean hclean1⟩
        | true =>
          have hh := hnext rfl
          -- an error ends the loop in the next round, without one it is at a boundary
          by_cases he : r.1 = 0
          · obtain ⟨hok, hvp2⟩ := hh.next he
            refine ih _ _ ?_ (hadds2.byteswap.trans hswap1) (hadds2.clean hclean1) (fun _ => ?_)
            · rw [hvp2, hvp, length_drop, length_drop]
              simp only [recordSize] at hrec ⊢
              omega
            · rw [hvp2, hvp]
              exact Boundary.next hb hrec hok
          · rw [recvLoop, if_pos he]
            exact ⟨_, rfl, hadds2.clean hclean1⟩
      · obtain ⟨s1, hread, -, hadds⟩ :=
          restoreRead_short src (recordSize : ℕ) herr (by rw [Int.toNat_natCast]; omega)
        rw [hread]
        exact ⟨_, rfl, (hadds (by simp only [recordSize, bufsize] at hrec ⊢; omega)).clean hclean⟩
    · rw [if_pos herr]
      exact ⟨_, rfl, hclean⟩

variable {drc : Cookie}

theorem Clean.safe (h : Clean s.acts)
    (hc : s.err ≠ 0 → dmuRecvAbortCleanup drc <:+ s.acts) : Safe drc s :=
  ⟨fun _ _ ha => h.ok _ ha, fun _ _ ha => h.ok _ ha, fun _ ha => h.ok _ ha, h.released, hc⟩

theorem Safe.clean (h : Safe drc s) : Clean s.acts where
  ok a ha := by
    cases a with
    | store done n => exact h.stores done n ha
    | write given read => exact h.writes given read ha
    | ot type => exact h.tables type ha
    | _ => trivial
  released := h.released

theorem receive_of_fine (hfine : FineStream drc.byteswap bytes) (voff : ℕ)
    (os : σ) : ∃ fuel r, dmuRecvStream dmu src fuel drc bytes voff os = some r ∧ Safe drc r := by
  obtain ⟨n, hge, hlen⟩ : ∃ n, 2 ^ 55 ≤ n + 1 ∧ bytes.length < n :=
    ⟨2 ^ 55 + bytes.length, by omega, by omega⟩
  obtain ⟨r, hr, hclean⟩ := recvLoop_clean dmu src hfine hge n
    (recvStart drc bytes voff os).cksum (recvStart drc bytes voff os) hlen rfl Clean.nil
    (fun _ => Boundary.start)
  refine ⟨n + 1, ?_⟩
  unfold dmuRecvStream
  dsimp only
  rw [hr, Option.map_some]
  by_cases he : r.err ≠ 0
  · rw [if_pos he]
    exact ⟨_, rfl, (hclean.append (Clean.cleanup drc)).safe fun _ => suffix_append _ _⟩
  · rw [if_neg he]
    exact ⟨_, rfl, hclean.safe fun h => absurd h he⟩

end Sirius.Recv
