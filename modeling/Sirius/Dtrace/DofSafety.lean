import Mathlib.Tactic.Linarith
import Mathlib.Tactic.Ring
import Sirius.Dtrace.Dof

/-! # Where the DOF loader reads

    The headers are validated once and read many times, after relocations have been
    written to the image.  As long as no relocation hits the image's header or the section
    headers, all of these reads give what was validated. -/

namespace Sirius.Dtrace.Dof

open Sirius.Lib Nat

theorem word_lt (m : Memory) (a n : ℕ) : word m a n < 256 ^ n := by
  induction n generalizing a with
  | zero => exact one_pos
  | succ n ih =>
    have h1 := ih (a + 1)
    have h2 := (m a).toNat_lt
    rw [word, pow_succ]
    omega

theorem word_congr {m m' : Memory} {a n : ℕ} (h : ∀ x, a ≤ x → x < a + n → m x = m' x) :
    word m a n = word m' a n := by
  induction n generalizing a with
  | zero => rfl
  | succ n ih =>
    rw [word, word, h a (le_refl a) (by omega), ih fun x h1 h2 => h x (by omega) (by omega)]

theorem strncpyLen_le (m : Memory) (p n : ℕ) : strncpyLen m p n ≤ n := by
  induction n generalizing p with
  | zero => exact le_refl 0
  | succ n ih =>
    rw [strncpyLen]
    split_ifs
    · omega
    · exact succ_le_succ (ih _)

theorem ptr_of_lt {a : ℕ} (h : a < 2 ^ 64) : ptr a = a := mod_eq_of_lt h

def fld (m : Memory) (p : ℕ) (f : Field) : ℕ := word m (ptr (p + f.offset)) f.width

/-- `dofh_loadsz`. -/
def loadsz (m : Memory) : ℕ := fld m 0 dofhLoadsz

/-- `dofh_secnum`. -/
def secnum (m : Memory) : ℕ := fld m 0 dofhSecnum

def secAddr (m : Memory) (i : ℕ) : ℕ := ptr (fld m 0 dofhSecoff + i * fld m 0 dofhSecsize % 2 ^ 32)

def headersEnd (m : Memory) : ℕ :=
  fld m 0 dofhSecoff + (secnum m - 1) * fld m 0 dofhSecsize + sizeofSec

/-- An access by one of the routines that read sections lies in the image. -/
def Inside (m : Memory) (a : Access) : Prop :=
  a.who ≠ .actdesc → a.who ≠ .ecbdesc → a.addr + a.len ≤ loadsz m

def Spares (m : Memory) (a : Access) : Prop :=
  a.write = true → sizeofHdr ≤ a.addr ∧
    (a.addr + a.len ≤ fld m 0 dofhSecoff ∨ headersEnd m ≤ a.addr)

def Sect (m : Memory) (sec : ℕ) : Prop :=
  ∃ i < secnum m, sec = secAddr m i ∧ isLoad (fld m sec dofsFlags) = true

def Frozen (m0 m : Memory) : Prop :=
  ∀ a, a < sizeofHdr ∨ (fld m0 0 dofhSecoff ≤ a ∧ a < headersEnd m0) → m a = m0 a

/-- What callers promise, and the section headers inside the image.  Callers refuse images of
    `dtrace_dof_maxsize` and more; that no image takes half of the address space is enough. -/
structure Framed (m : Memory) : Prop where
  size : sizeofHdr ≤ loadsz m
  fits : loadsz m < 2 ^ 63
  headers : secnum m ≠ 0 → headersEnd m ≤ loadsz m

def Valid (m : Memory) : Prop :=
  ∀ sec, Sect m sec → fld m sec dofsOffset + fld m sec dofsSize ≤ loadsz m

variable {f : Field} {who : Routine} {msg : String}

section

variable {m0 m : Memory}

theorem loadsz_lt (m : Memory) : loadsz m < 2 ^ 64 := by
  have := word_lt m (ptr (0 + dofhLoadsz.offset)) dofhLoadsz.width
  simpa [loadsz, fld, dofhLoadsz] using this

theorem secAddr_bounds (h : Framed m) {i : ℕ} (hi : i < secnum m) :
    fld m 0 dofhSecoff ≤ secAddr m i ∧ secAddr m i + sizeofSec ≤ headersEnd m ∧
      headersEnd m ≤ loadsz m := by
  have hend := h.headers (by omega)
  have hL := loadsz_lt m
  have hmul : i * fld m 0 dofhSecsize % 2 ^ 32 ≤ (secnum m - 1) * fld m 0 dofhSecsize :=
    (mod_le _ _).trans (mul_le_mul_right _ (by omega))
  have haddr : secAddr m i = fld m 0 dofhSecoff + i * fld m 0 dofhSecsize % 2 ^ 32 := by
    refine ptr_of_lt ?_
    rw [headersEnd] at hend
    omega
  rw [haddr, headersEnd] at *
  omega

theorem Frozen.hdr (h : Frozen m0 m) (hf : f.offset + f.width ≤ sizeofHdr) :
    fld m 0 f = fld m0 0 f := by
  rw [sizeofHdr] at hf
  rw [fld, fld, ptr_of_lt (by omega)]
  exact word_congr fun x h1 h2 => h x (.inl (by rw [sizeofHdr]; omega))

theorem Frozen.sec (h : Frozen m0 m) (hm : Framed m0) {i : ℕ} (hi : i < secnum m0)
    (hf : f.offset + f.width ≤ sizeofSec) : fld m (secAddr m0 i) f = fld m0 (secAddr m0 i) f := by
  obtain ⟨h1, h2, h3⟩ := secAddr_bounds hm hi
  have hL := loadsz_lt m0
  rw [fld, fld, ptr_of_lt (by omega)]
  exact word_congr fun x hx1 hx2 => h x (.inr ⟨by omega, by omega⟩)

theorem Frozen.put (h : Frozen m0 m) {a n v : ℕ} (hs : Spares m0 ⟨who, a, n, true⟩) :
    Frozen m0 (putWord m a n v) := by
  intro x hx
  obtain ⟨h1, h2⟩ : sizeofHdr ≤ a ∧ (a + n ≤ fld m0 0 dofhSecoff ∨ headersEnd m0 ≤ a) := hs rfl
  rw [putWord, if_neg, h x hx]
  rintro ⟨h3, h4⟩
  omega

end

/-- A part of the loader that keeps the headers and accesses the image only, and returns
    something that satisfies `p`. -/
def Keeps {α : Type} (m0 : Memory) (x : Loader α) (p : α → Prop) : Prop :=
  Traced.Safe (Spares m0) (Inside m0) (Frozen m0) x fun a m => p a ∧ Frozen m0 m

namespace Keeps

variable {α β : Type} {m0 : Memory} {x : Loader α} {f : α → Loader β} {p p' : α → Prop}
  {q : β → Prop} {c : Prop} [Decidable c]

theorem next (hx : Keeps m0 x p) (hf : ∀ a, p a → Keeps m0 (f a) q) : Keeps m0 (x >>= f) q :=
  Traced.Safe.next hx hf

theorem mono (hx : Keeps m0 x p) (h : ∀ a, p a → p' a) : Keeps m0 x p' :=
  Traced.Safe.conseq hx (fun _ hs => hs) fun a _ hs => ⟨h a hs.1, hs.2⟩

theorem pure {a : α} (h : p a) : Keeps m0 (pure a : Loader α) p :=
  Traced.Safe.pure fun _ hs => ⟨h, hs⟩

theorem fail {e : Failure} : Keeps m0 (Traced.fail e : Loader α) p := Traced.Safe.fail

theorem emit {ev : Memory → Access} {g : Memory → α} (hG : ∀ m, Inside m0 (ev m))
    (hp : ∀ m, Frozen m0 m → p (g m)) : Keeps m0 (Traced.emit ev g : Loader α) p :=
  Traced.Safe.emit (fun m _ => hG m) fun m hs => ⟨hp m hs, hs⟩

theorem failIf {e : Failure} : Keeps m0 (Traced.failIf c e : Loader Unit) fun _ => ¬ c :=
  Traced.Safe.failIf

theorem check {f : Unit → Loader β} (hf : ¬ c → Keeps m0 (f ()) q) :
    Keeps m0 (errorIf c msg >>= f) q :=
  failIf.next fun _ => hf

theorem guard {g : α → Prop} [∀ a, Decidable (g a)] {f : α → Unit → Loader β}
    (hx : Keeps m0 x p) (hf : ∀ a, p a → ¬ g a → Keeps m0 (f a ()) q) :
    Keeps m0 (x >>= fun a => errorIf (g a) msg >>= f a) q :=
  hx.next fun a ha => .check (hf a ha)

theorem checked : Keeps m0 (errorIf c msg) fun _ => True :=
  failIf.mono fun _ _ => trivial

theorem onlyIf {x : Loader Unit} (h : c → Keeps m0 x fun _ => True) :
    Keeps m0 (Traced.onlyIf c x) fun _ => True := by
  by_cases hc : c
  · rw [Traced.onlyIf, if_pos hc]
    exact h hc
  · rw [Traced.onlyIf, if_neg hc]
    exact .pure trivial

theorem forFrom (F : ℕ → α → Prop) {body : ℕ → α → Loader α} {lo n : ℕ} {a : α} (h0 : F lo a)
    (hbody : ∀ i a, i < lo + n → F i a → Keeps m0 (body i a) (F (i + 1))) :
    Keeps m0 (Traced.forFrom body n lo a) (F (lo + n)) :=
  Traced.Safe.conseq (Traced.Safe.forFrom (fun i a m => F i a ∧ Frozen m0 m)
    (fun i a hi => Traced.Safe.assume (hbody i a hi)) n lo a rfl) (fun _ hs => ⟨h0, hs⟩)
    fun _ _ hs => hs

theorem whileFrom (F : ℕ → Prop) {P : Prop} {cond : ℕ → Loader Bool} {body : ℕ → Loader Unit}
    {step bound n i : ℕ} (h0 : F i)
    (hcond : ∀ i, F i → Keeps m0 (cond i) fun b => (b = true → i < bound) ∧ (b = false → P))
    (hbody : ∀ i, i < bound → F i → Keeps m0 (body i) fun _ => F (i + step))
    (hn : bound ≤ i + n * step) :
    Keeps m0 (Traced.whileFrom cond step body (n + 1) i) fun _ => P := by
  refine Traced.Safe.conseq (Traced.Safe.whileFrom (fun i m => F i ∧ Frozen m0 m)
    (fun i => Traced.Safe.assume fun hF => ?_)
    (fun i hi => Traced.Safe.assume fun hF => hbody i hi hF) n i hn) (fun _ hs => ⟨h0, hs⟩)
    fun _ _ hs => hs
  exact Traced.Safe.conseq (hcond i hF) (fun _ hs => hs) fun b m hs =>
    ⟨⟨hF, hs.2⟩, hs.1.1, fun hb => ⟨hs.1.2 hb, hs.2⟩⟩

end Keeps

section

variable {m0 : Memory} {p : ℕ}

theorem Framed.hdr (hm : Framed m0) (hf : f.offset + f.width ≤ sizeofHdr) :
    Keeps m0 (load who 0 f) (· = fld m0 0 f) := by
  refine .emit (fun _ _ _ => ?_) fun _ h => h.hdr hf
  have hs := hm.size
  rw [sizeofHdr] at hs hf
  show ptr (0 + f.offset) + f.width ≤ _
  rw [ptr_of_lt (by omega)]
  omega

theorem Framed.sec (hm : Framed m0) {i : ℕ} (hi : i < secnum m0)
    (hf : f.offset + f.width ≤ sizeofSec) :
    Keeps m0 (load who (secAddr m0 i) f) (· = fld m0 (secAddr m0 i) f) := by
  refine .emit (fun _ _ _ => ?_) fun _ h => h.sec hm hi hf
  obtain ⟨-, h2, h3⟩ := secAddr_bounds hm hi
  have hL := loadsz_lt m0
  show ptr (secAddr m0 i + f.offset) + f.width ≤ _
  rw [ptr_of_lt (by omega)]
  omega

theorem Framed.sect (hm : Framed m0) {sec : ℕ} (hs : Sect m0 sec)
    (hf : f.offset + f.width ≤ sizeofSec) : Keeps m0 (load who sec f) (· = fld m0 sec f) := by
  obtain ⟨i, hi, rfl, -⟩ := hs
  exact hm.sec hi hf

theorem load_inside (hp : p + f.offset + f.width ≤ loadsz m0) :
    Keeps m0 (load who p f) (· < 256 ^ f.width) := by
  refine .emit (fun _ _ _ => ?_) fun _ _ => word_lt ..
  have hL := loadsz_lt m0
  by_cases hz : p + f.offset = 2 ^ 64
  · omega
  · rw [ptr_of_lt (by omega)]
    omega

/-- A read of `dtrace_dof_actdesc` or `dtrace_dof_ecbdesc`, wherever it is. -/
theorem load_any (hw : who = .actdesc ∨ who = .ecbdesc) :
    Keeps m0 (load who p f) (· < 256 ^ f.width) := by
  refine .emit (fun _ h1 h2 => ?_) fun _ _ => word_lt ..
  rcases hw with rfl | rfl
  · exact absurd rfl h1
  · exact absurd rfl h2

theorem loadBytes_inside {n : ℕ} (hp : p + n ≤ loadsz m0) :
    Keeps m0 (loadBytes who p n) fun _ => True := by
  refine .emit (fun _ _ _ => ?_) fun _ _ => trivial
  have hL := loadsz_lt m0
  rw [ptr_of_lt (by omega)]
  exact hp

theorem strncpy_inside {n : ℕ} (hp : p + n ≤ loadsz m0) :
    Keeps m0 (strncpy who p n) fun _ => True := by
  refine .emit (fun m _ _ => ?_) fun _ _ => trivial
  have hL := loadsz_lt m0
  have hlen := strncpyLen_le m (ptr p) n
  show ptr p + strncpyLen m (ptr p) n ≤ _
  rw [ptr_of_lt (by omega)] at hlen ⊢
  omega

end

section

variable {m0 : Memory} (hm : Framed m0)

include hm

theorem secAt_safe (i : ℕ) : Keeps m0 (secAt who i) (· = secAddr m0 i) := by
  refine (hm.hdr (by decide)).next fun secoff hoff => ?_
  refine (hm.hdr (by decide)).next fun secsize hsize => ?_
  refine .pure ?_
  rw [hoff, hsize]
  rfl

/-- **`dtrace_dof_sect`** returns the header of a section that is to be loaded. -/
theorem dofSect_safe (type i : ℕ) : Keeps m0 (dofSect type i) (Sect m0) := by
  refine (secAt_safe hm i).next ?_
  rintro _ rfl
  refine (hm.hdr (by decide)).guard fun num hnum hi => ?_
  have hlt : i < secnum m0 := by
    rw [hnum] at hi
    exact lt_of_not_ge hi
  refine (hm.sec hlt (by decide)).guard fun flags hflags hload => ?_
  have hsect : Sect m0 (secAddr m0 i) := ⟨i, hlt, rfl, by rw [← hflags]; simpa using hload⟩
  refine (Keeps.onlyIf fun _ => ?_).next fun _ _ => .pure hsect
  refine (hm.sec hlt (by decide)).next fun t _ => ?_
  exact .checked

end

theorem load_reads (who : Routine) (p : ℕ) (f : Field) : Traced.Reads (load who p f) :=
  Traced.Reads.emit _ _

theorem errorIf_reads {c : Prop} [Decidable c] : Traced.Reads (errorIf c msg) :=
  Traced.Reads.failIf _ _

theorem dofSect_reads (type i : ℕ) : Traced.Reads (dofSect type i) := by
  have hsecAt : Traced.Reads (secAt .sect i) :=
    (load_reads _ _ _).bind fun _ => (load_reads _ _ _).bind fun _ => .pure _
  refine hsecAt.bind fun sec => (load_reads _ _ _).bind fun _ => errorIf_reads.bind fun _ => ?_
  refine (load_reads _ _ _).bind fun _ => errorIf_reads.bind fun _ => ?_
  refine Traced.Reads.bind (Traced.Reads.onlyIf ?_) fun _ => .pure _
  exact (load_reads _ _ _).bind fun _ => errorIf_reads

/-! ## Probe descriptions and DIF objects -/

section

variable {m0 : Memory} {sec : ℕ}

theorem probeName_safe {probe str size len : ℕ}
    (hprobe : probe + f.offset + f.width ≤ loadsz m0) (hstr : str + size ≤ loadsz m0) :
    Keeps m0 (probeName probe str size f len msg) fun _ => True := by
  refine (load_inside hprobe).guard fun off _ hoff => ?_
  refine strncpy_inside ?_
  omega

variable (hm : Framed m0) (hv : Valid m0)

include hm hv

theorem dofProbedesc_safe (hs : Sect m0 sec) :
    Keeps m0 (dofProbedesc sec) fun _ => True := by
  refine (hm.sect hs (by decide)).guard fun _ _ _ => ?_
  refine (hm.sect hs (by decide)).guard fun _ _ _ => ?_
  refine (hm.sect hs (by decide)).next fun offset hoffset => ?_
  refine (hm.hdr (by decide)).guard fun size hsize htrunc => ?_
  -- The section's size is not looked at: the description is in the image all the same.
  have hin := hv sec hs
  have hfit := hm.fits
  rw [hsize, sizeofProbedesc] at htrunc
  have hprobe : offset + 24 ≤ loadsz m0 := by
    rw [mod_eq_of_lt (by omega)] at htrunc
    exact not_lt.mp htrunc
  rw [ptr_of_lt (by omega)]
  refine (load_inside (show offset + 0 + 4 ≤ _ by omega)).next fun idx _ => ?_
  refine (dofSect_safe hm _ _).next fun strtab hstrtab => ?_
  refine (hm.sect hstrtab (by decide)).next fun str hstr => ?_
  refine (hm.sect hstrtab (by decide)).next fun size' hsize' => ?_
  have htab := hv strtab hstrtab
  rw [← hstr, ← hsize'] at htab
  refine (probeName_safe (show offset + 4 + 4 ≤ _ by omega) htab).next fun _ _ => ?_
  refine (probeName_safe (show offset + 8 + 4 ≤ _ by omega) htab).next fun _ _ => ?_
  refine (probeName_safe (show offset + 12 + 4 ≤ _ by omega) htab).next fun _ _ => ?_
  refine (probeName_safe (show offset + 16 + 4 ≤ _ by omega) htab).next fun _ _ => ?_
  exact .pure trivial

theorem copyTable_safe {subsec : ℕ} (hs : Sect m0 subsec) (row : DifoRow) (dp : DofDifo) :
    Keeps m0 (copyTable subsec row dp) fun _ => True := by
  refine (hm.sect hs (by decide)).guard fun _ _ _ => ?_
  refine (hm.sect hs (by decide)).guard fun _ _ _ => ?_
  refine .check fun _ => ?_
  refine (hm.sect hs (by decide)).guard fun entsize _ _ => ?_
  refine (hm.sect hs (by decide)).guard fun size hsize _ => ?_
  refine (hm.sect hs (by decide)).next fun offset hoffset => ?_
  refine (loadBytes_inside ?_).next fun _ _ => .pure trivial
  rw [hsize, hoffset]
  exact hv subsec hs

theorem difoLink_safe {dofd l : ℕ} (hl : dofd + (8 + 4 * l) + 4 ≤ loadsz m0) (acc : ℕ × DofDifo) :
    Keeps m0 (difoLink dofd l acc) fun _ => True := by
  refine (load_inside hl).next fun idx _ => ?_
  refine (dofSect_safe hm _ _).next fun subsec hsub => ?_
  refine (hm.sect hsub (by decide)).guard fun size _ _ => ?_
  refine (hm.sect hsub (by decide)).next fun type _ => ?_
  cases difoRows.find? (fun row => row.sect = type) with
  | some row =>
    exact (copyTable_safe hm hv hsub row acc.2).next fun _ _ =>
      .pure trivial
  | none =>
    refine (hm.sect hsub (by decide)).next fun _ _ => ?_
    exact .check fun _ => .pure trivial

section

variable (valid : DofDifo → Bool)

include valid

/-- **`dtrace_dof_difo`** of a section that is to be loaded: all links lie in it. -/
theorem dofDifo_safe (hs : Sect m0 sec) : Keeps m0 (dofDifo valid sec) fun _ => True := by
  refine (hm.sect hs (by decide)).guard fun _ _ _ => ?_
  refine (hm.sect hs (by decide)).guard fun _ _ _ => ?_
  refine (hm.sect hs (by decide)).guard fun size hsize hlen => ?_
  refine (hm.sect hs (by decide)).next fun offset hoffset => ?_
  have hin := hv sec hs
  have hL := loadsz_lt m0
  rw [not_or, not_lt, not_not, sizeofDifohdr] at hlen
  rw [ptr_of_lt (by omega)]
  refine (loadBytes_inside (by omega)).next fun rtype _ => ?_
  have hrounds : intRounds ((size - sizeofDifohdr) / 4 + 1) ≤ (size - 12) / 4 + 1 := by
    rw [intRounds, sizeofDifohdr]
    split_ifs
    · exact mod_le _ _
    · exact zero_le _
  refine (Keeps.forFrom (fun _ _ => True) trivial fun l acc hl _ => ?_).next fun acc _ => ?_
  · exact difoLink_safe hm hv (by omega) acc
  · exact .check fun _ => Keeps.failIf.next fun _ _ => .pure trivial

omit hv in
omit valid in
theorem formatString_safe (desc : ℕ) : Keeps m0 (formatString desc) fun _ => True := by
  refine (load_any (.inl rfl)).next fun idx _ => ?_
  refine (dofSect_safe hm _ _).next fun strtab hs => ?_
  refine (load_any (.inl rfl)).next fun str _ => ?_
  refine (load_any (.inl rfl)).next fun size _ => ?_
  refine (load_any (.inl rfl)).next fun arg _ => ?_
  refine Keeps.next (p := fun _ => True) (.emit (fun _ h _ => absurd rfl h) fun _ _ => trivial)
    fun len _ => ?_
  refine Keeps.next (p := fun _ => True) (Traced.Safe.peek fun _ h => ⟨trivial, h⟩) fun last _ => ?_
  refine .check fun _ => ?_
  exact .checked

theorem dofAction_safe (sec offs : ℕ) : Keeps m0 (dofAction valid sec offs) fun _ => True := by
  refine (load_any (.inl rfl)).next fun offset _ => ?_
  refine (load_any (.inl rfl)).next fun kind _ => ?_
  refine (load_any (.inl rfl)).next fun idx _ => ?_
  refine (Keeps.onlyIf fun _ => formatString_safe hm _).next fun _ _ => ?_
  refine (load_any (.inl rfl)).next fun difo _ => ?_
  refine .onlyIf fun _ => ?_
  refine (dofSect_safe hm _ _).next fun difosec hs => ?_
  exact (dofDifo_safe hm hv valid hs).next fun _ _ => .pure trivial

theorem dofActdesc_safe (hs : Sect m0 sec) :
    Keeps m0 (dofActdesc valid sec) fun _ => True := by
  refine (load_any (.inl rfl)).guard fun _ _ _ => ?_
  refine (load_any (.inl rfl)).next fun _ _ => ?_
  refine (load_any (.inl rfl)).guard fun _ _ _ => ?_
  refine (load_any (.inl rfl)).guard fun _ _ _ => ?_
  refine (hm.sect hs (by decide)).next fun size hsize => ?_
  refine (load_any (.inl rfl)).guard fun entsize _ _ => ?_
  refine .check fun hent => ?_
  refine .check fun hmax => ?_
  -- The bound on the actions is a bound on the rounds.
  have hbound : size ≤ 0 + (dtraceActionsMax + 1) * sizeofActdesc := by
    rw [not_not.mp hent] at hmax
    rw [dtraceActionsMax, sizeofActdesc] at *
    omega
  refine .whileFrom (fun _ => True) trivial (fun offs _ => ?_)
    (fun offs _ _ => dofAction_safe hm hv valid sec offs) hbound
  refine (hm.sect hs (by decide)).next fun size' hsize' => .pure ⟨fun hlt => ?_, fun _ => trivial⟩
  rw [hsize, ← hsize']
  exact of_decide_eq_true hlt

theorem dofEcbdesc_safe (sec : ℕ) : Keeps m0 (dofEcbdesc valid sec) fun _ => True := by
  refine (load_any (.inr rfl)).guard fun _ _ _ => ?_
  refine (load_any (.inr rfl)).guard fun _ _ _ => ?_
  refine (load_any (.inr rfl)).next fun offset _ => ?_
  refine (load_any (.inr rfl)).next fun idx _ => ?_
  refine (dofSect_safe hm _ _).next fun probes hprobes => ?_
  refine (dofProbedesc_safe hm hv hprobes).next fun _ _ => ?_
  refine (load_any (.inr rfl)).next fun pred _ => ?_
  refine (Keeps.onlyIf fun _ => ?_).next fun _ _ => ?_
  · refine (dofSect_safe hm _ _).next fun difosec hs => ?_
    exact (dofDifo_safe hm hv valid hs).next fun _ _ => .pure trivial
  · refine (load_any (.inr rfl)).next fun actions _ => ?_
    refine .onlyIf fun _ => ?_
    exact (dofSect_safe hm _ _).next fun actsec hs => dofActdesc_safe hm hv valid hs

end

theorem relocateOne_safe {ts ubase r : ℕ} (hts : Sect m0 ts) (hr : r + sizeofRelodesc ≤ loadsz m0) :
    Keeps m0 (relocateOne ts ubase r) fun _ => True := by
  rw [sizeofRelodesc] at hr
  refine (load_inside (show r + 8 + 8 ≤ _ by omega)).next fun offset hoff => ?_
  refine (hm.sect hts (by decide)).next fun base hbase => ?_
  refine (load_inside (show r + 4 + 4 ≤ _ by omega)).next fun type _ => ?_
  split
  · exact .pure trivial
  · refine (hm.sect hts (by decide)).guard fun size hsize hsite => ?_
    refine .check fun _ => ?_
    have hin := hv ts hts
    have hfit := hm.fits
    rw [not_or, not_le, not_lt] at hsite
    rw [ptr_of_lt (show base + offset < 2 ^ 64 by omega)]
    refine (load_inside (show base + offset + 0 + 8 ≤ _ by omega)).next fun old _ => ?_
    refine Traced.Safe.update (fun m _ _ _ => ?_) fun m h hspares => ⟨trivial, h.put hspares⟩
    show ptr (base + offset) + 8 ≤ _
    rw [ptr_of_lt (by omega)]
    omega
  · exact .fail

theorem relocateAll_safe {rs ts ubase : ℕ} (hrs : Sect m0 rs) (hts : Sect m0 ts) :
    Keeps m0 (relocateAll rs ts ubase) fun _ => True := by
  refine (hm.sect hrs (by decide)).guard fun ent hent hmin => ?_
  refine (hm.sect hrs (by decide)).guard fun _ _ _ => ?_
  refine (hm.sect hrs (by decide)).next fun base hbase => ?_
  refine (hm.sect hrs (by decide)).next fun size hsize => ?_
  refine (hm.sect hrs (by decide)).next fun ent' hent' => ?_
  obtain rfl : ent = ent' := hent.trans hent'.symm
  have hin := hv rs hrs
  have hL := loadsz_lt m0
  have hrounds : size / ent * ent ≤ size := div_mul_le_self size ent
  -- The table pointer after `i` entries.
  refine (Keeps.forFrom (fun i r => r = base + i * ent) ?_ fun i r hi hr => ?_).next fun _ _ =>
    .pure trivial
  · rw [zero_mul, add_zero, ptr_of_lt (by omega)]
  rw [zero_add] at hi
  have hlt : i < size / ent := lt_of_lt_of_le hi (mod_le _ _)
  have hend : (i + 1) * ent ≤ size := (mul_le_mul_right ent hlt).trans hrounds
  rw [succ_mul] at hend
  refine (relocateOne_safe hm hv hts (by omega)).next fun _ _ => ?_
  refine (hm.sect hrs (by decide)).next fun ent'' hent'' => .pure ?_
  rw [hent''.trans hent.symm, hr, succ_mul, ptr_of_lt (by omega), add_assoc]

theorem dofRelocate_safe {sec ubase : ℕ} (hs : Sect m0 sec) :
    Keeps m0 (dofRelocate sec ubase) fun _ => True := by
  refine (hm.sect hs (by decide)).next fun offset hoffset => ?_
  refine (hm.sect hs (by decide)).guard fun size hsize hmin => ?_
  refine (hm.sect hs (by decide)).guard fun _ _ _ => ?_
  have hin := hv sec hs
  have hL := loadsz_lt m0
  rw [not_lt, sizeofRelohdr] at hmin
  rw [ptr_of_lt (by omega)]
  -- Each lookup is made, whether or not the one before it succeeded.
  have hlook : ∀ type i : ℕ, Keeps m0 (Traced.attempt (dofSect type i)) fun r =>
      ∀ sec, r = .ok sec → Sect m0 sec := by
    intro type i
    refine (Traced.Safe.attempt (dofSect_safe hm type i) (dofSect_reads type i)).conseq
      (fun _ h => h) ?_
    rintro r m ⟨h, hr⟩
    exact ⟨fun sec he => (hr sec he).1, h⟩
  refine (load_inside (show offset + 0 + 4 ≤ _ by omega)).next fun _ _ => ?_
  refine (hlook _ _).next fun ss _ => ?_
  refine (load_inside (show offset + 4 + 4 ≤ _ by omega)).next fun _ _ => ?_
  refine (hlook _ _).next fun rs hrs => ?_
  refine (load_inside (show offset + 8 + 4 ≤ _ by omega)).next fun _ _ => ?_
  refine (hlook _ _).next fun ts hts => ?_
  cases ss with
  | error msg => exact .fail
  | ok ss =>
    cases rs with
    | error msg => exact .fail
    | ok rs =>
      cases ts with
      | error msg => exact .fail
      | ok ts => exact relocateAll_safe hm hv (hrs rs rfl) (hts ts rfl)

end

section

variable {m0 : Memory} (hm : Framed m0)

include hm

theorem forSections_safe (F : ℕ → Prop) {body : ℕ → Loader Unit} (h0 : F 0)
    (hbody : ∀ i, i < secnum m0 → F i → Keeps m0 (body (secAddr m0 i)) fun _ => F (i + 1)) :
    Keeps m0 (forSections body) fun _ => F (secnum m0) := by
  have hnum : secnum m0 < 2 ^ 32 := by
    have := word_lt m0 (ptr (0 + dofhSecnum.offset)) dofhSecnum.width
    simpa [secnum, fld, dofhSecnum] using this
  have hfuel : secnum m0 ≤ 0 + 2 ^ 32 * 1 := by omega
  refine .whileFrom (fun i => i ≤ secnum m0 ∧ F i) ⟨zero_le _, h0⟩ (fun i hF => ?_)
    (fun i hi hF => ?_) hfuel
  · refine (hm.hdr (by decide)).next fun num hn => .pure ⟨fun hlt => ?_, fun hge => ?_⟩
    · rw [hn] at hlt
      exact of_decide_eq_true hlt
    · rw [hn] at hge
      have hle : ¬ i < secnum m0 := of_decide_eq_false hge
      rw [← le_antisymm hF.1 (not_lt.mp hle)]
      exact hF.2
  · refine (secAt_safe hm i).next ?_
    rintro _ rfl
    exact (hbody i hi hF.2).mono fun _ h => ⟨hi, h⟩

/-- **THE FIRST PASS**: a section that is to be loaded lies in the image, if no string table
    is empty at the start of it. -/
theorem checkSection_safe (noprobes : Bool) {i : ℕ} (hi : i < secnum m0)
    (hstr : isLoad (fld m0 (secAddr m0 i) dofsFlags) = true →
      fld m0 (secAddr m0 i) dofsType = dofSectStrtab →
      fld m0 (secAddr m0 i) dofsOffset + fld m0 (secAddr m0 i) dofsSize ≠ 0) :
    Keeps m0 (checkSection noprobes (loadsz m0) (secAddr m0 i)) fun _ =>
      isLoad (fld m0 (secAddr m0 i) dofsFlags) = true →
        fld m0 (secAddr m0 i) dofsOffset + fld m0 (secAddr m0 i) dofsSize ≤ loadsz m0 := by
  have hfit := hm.fits
  refine (Keeps.onlyIf fun _ => ?_).next fun _ _ => ?_
  · refine (hm.sec hi (by decide)).next fun type _ => ?_
    exact .checked
  refine (hm.sec hi (by decide)).next fun flags hflags => ?_
  by_cases hload : isLoad flags = true
  · rw [Traced.onlyIf, if_pos hload]
    refine (hm.sec hi (by decide)).guard fun align _ _ => ?_
    refine (hm.sec hi (by decide)).guard fun offset hoffset _ => ?_
    refine (hm.sec hi (by decide)).guard fun size hsize hcorrupt => ?_
    rw [not_or, not_or, not_lt, not_lt, not_lt] at hcorrupt
    obtain ⟨h1, h2, h3⟩ := hcorrupt
    have hin : offset + size ≤ loadsz m0 := by rwa [mod_eq_of_lt (by omega)] at h3
    refine (hm.sec hi (by decide)).next fun type htype => ?_
    rw [hoffset, hsize] at hin
    refine (Keeps.onlyIf fun hs => ?_).mono fun _ _ _ => hin
    have hpos : offset + size ≠ 0 := by
      rw [hoffset, hsize]
      exact hstr (hflags ▸ hload) (htype ▸ hs)
    -- `daddr + offset + size - 1`.
    refine Keeps.next (p := fun _ => True) (.emit (fun _ _ _ => ?_) fun _ _ => trivial)
      fun _ _ => .checked
    show ptr (offset + size + (2 ^ 64 - 1) + 0) + 1 ≤ _
    rw [ptr]
    omega
  · rw [Traced.onlyIf, if_neg hload]
    exact .pure fun hl => absurd (hflags ▸ hl) hload

theorem ident_safe (k : ℕ) (hk : k < 16) :
    Keeps m0 (load who 0 (dofhIdent k)) (· = fld m0 0 (dofhIdent k)) :=
  hm.hdr (show k + 1 ≤ 64 by omega)

theorem checkIdent_safe : Keeps m0 checkIdent fun _ => True := by
  have hsize := hm.size
  rw [sizeofHdr] at hsize
  refine (loadBytes_inside (by omega)).guard fun _ _ _ => ?_
  refine (ident_safe hm 4 (by omega)).guard fun _ _ _ => ?_
  refine (ident_safe hm 5 (by omega)).guard fun _ _ _ => ?_
  refine (ident_safe hm 6 (by omega)).guard fun _ _ _ => ?_
  refine (ident_safe hm 7 (by omega)).guard fun _ _ _ => ?_
  refine (ident_safe hm 8 (by omega)).guard fun _ _ _ => ?_
  refine (ident_safe hm 9 (by omega)).guard fun _ _ _ => ?_
  refine (Keeps.forFrom (fun _ _ => True) trivial fun k _ hk _ => ?_).next fun _ _ => ?_
  · refine (ident_safe hm k hk).next fun _ _ => ?_
    exact .checked
  · refine (hm.hdr (by decide)).next fun _ _ => ?_
    exact .checked

theorem checkHeaders_safe (len : ℕ) : Keeps m0 (checkHeaders len) fun _ => True := by
  refine (hm.hdr (by decide)).guard fun _ _ _ => ?_
  refine (hm.hdr (by decide)).next fun _ _ => (hm.hdr (by decide)).next fun _ _ => ?_
  refine (hm.hdr (by decide)).guard fun _ _ _ => ?_
  refine .check fun _ => (hm.hdr (by decide)).next fun _ _ => ?_
  exact .checked

end

/-- No string table that is to be loaded is empty at the start of the image. -/
def StringTables (m : Memory) : Prop :=
  ∀ sec, Sect m sec → fld m sec dofsType = dofSectStrtab →
    fld m sec dofsOffset + fld m sec dofsSize ≠ 0

instance (m : Memory) (a : Access) : Decidable (Inside m a) :=
  inferInstanceAs (Decidable (_ → _ → _))

instance (m : Memory) (a : Access) : Decidable (Spares m a) := inferInstanceAs (Decidable (_ → _))

/-- **LOADING STAYS INSIDE THE IMAGE**, for every image whose section headers end inside it
    and which has no empty string table at its start: if every relocation that is made
    spares the header and the section headers, then every read and write is inside. -/
theorem dof_loading_inside (valid : DofDifo → Bool) (ubase : ℕ) (noprobes : Bool) (m : Memory)
    (hm : Framed m) (hstr : StringTables m)
    (hspare : ∀ a ∈ (dofSlurp valid ubase noprobes m).trace, Spares m a) :
    ∀ a ∈ (dofSlurp valid ubase noprobes m).trace, Inside m a := by
  have hsafe : Keeps m (dofSlurp valid ubase noprobes) fun _ => True := by
    refine (hm.hdr (by decide)).next ?_
    rintro _ rfl
    refine (checkIdent_safe hm).next fun _ _ => (checkHeaders_safe hm _).next fun _ _ => ?_
    refine (forSections_safe hm
      (fun i => ∀ j < i, j < secnum m → isLoad (fld m (secAddr m j) dofsFlags) = true →
        fld m (secAddr m j) dofsOffset + fld m (secAddr m j) dofsSize ≤ loadsz m)
      (fun j hj => absurd hj (not_lt_zero j)) fun i hi hF => ?_).next fun _ hF => ?_
    · refine (checkSection_safe hm noprobes hi fun hl => ?_).mono fun _ hsec j hj hjn => ?_
      · exact hstr _ ⟨i, hi, rfl, hl⟩
      · rcases Nat.lt_succ_iff_lt_or_eq.mp hj with hlt | rfl
        · exact hF j hlt hjn
        · exact hsec
    have hv : Valid m := by
      rintro sec ⟨i, hi, rfl, hl⟩
      exact hF i hi hi hl
    refine (forSections_safe hm (fun _ => True) trivial fun i hi _ => ?_).next fun _ _ =>
      forSections_safe hm (fun _ => True) trivial fun i hi _ => ?_
    · refine (hm.sec hi (by decide)).next fun flags hflags => .onlyIf fun hl => ?_
      refine (hm.sec hi (by decide)).next fun type _ => .onlyIf fun _ => ?_
      exact dofRelocate_safe hm hv ⟨i, hi, rfl, hflags ▸ hl⟩
    · refine (hm.sec hi (by decide)).next fun type _ => .onlyIf fun _ => ?_
      exact dofEcbdesc_safe hm hv valid _
  exact (hsafe m (fun _ _ => rfl) hspare).1

def bytes : ℕ → ℕ → List UInt8
  | 0, _ => []
  | n + 1, v => UInt8.ofNat v :: bytes n (v / 256)

/-- A header for `num` sections of `secsize` bytes after it. -/
def header (secsize num loadsz : ℕ) : List UInt8 :=
  [0x7F, 0x44, 0x4F, 0x46, 2, 1, 2, 2, 8, 8, 0, 0, 0, 0, 0, 0] ++ bytes 4 0 ++ bytes 4 64 ++
    bytes 4 secsize ++ bytes 4 num ++ bytes 8 64 ++ bytes 8 loadsz ++ bytes 8 loadsz ++ bytes 8 0

def secHeader (type align flags entsize offset size : ℕ) : List UInt8 :=
  bytes 4 type ++ bytes 4 align ++ bytes 4 flags ++ bytes 4 entsize ++ bytes 8 offset ++
    bytes 8 size

def image (l : List UInt8) : Memory := fun a => l.getD a 0

/-- Nine sections: strings, a relocation and its header, the integer table that it changes, an ECB
    with a probe and an action, and the action's DIF object, which links its text and that table. -/
def ecbImage : Memory := image (header 32 9 508 ++ secHeader 8 1 1 0 352 3 ++
  secHeader 10 8 1 24 360 24 ++ secHeader 12 4 1 0 384 12 ++ secHeader 19 8 1 8 400 8 ++
  secHeader 3 8 1 0 408 24 ++ secHeader 4 4 1 0 432 24 ++ secHeader 5 8 1 32 456 32 ++
  secHeader 6 4 1 0 488 16 ++ secHeader 7 4 1 4 504 4 ++
  ([0, 97, 0] ++ bytes 5 0) ++ (bytes 4 0 ++ bytes 4 1 ++ bytes 8 0 ++ bytes 8 0) ++
  (bytes 4 0 ++ bytes 4 1 ++ bytes 4 3 ++ bytes 4 0) ++ bytes 8 7 ++
  (bytes 4 5 ++ bytes 4 dofSecidxNone ++ bytes 4 6 ++ bytes 12 0) ++ (bytes 4 0 ++ bytes 4 1 ++
  bytes 16 0) ++ (bytes 4 7 ++ bytes 4 0 ++ bytes 4 1 ++ bytes 20 0) ++
  (bytes 8 0 ++ bytes 4 8 ++ bytes 4 3) ++ bytes 4 0)

/-- The table is relocated, the probe's name and the object's text and table are read. -/
theorem dof_loading_inside_strings :
    Framed ecbImage ∧
      (∀ a ∈ [⟨.relocate, 400, 8, true⟩, ⟨.probedesc, 353, 2, false⟩, ⟨.difo, 504, 4, false⟩,
        ⟨.difo, 400, 8, false⟩], a ∈ (dofSlurp (fun _ => true) (2 ^ 20) false ecbImage).trace) ∧
      ∀ a ∈ (dofSlurp (fun _ => true) (2 ^ 20) false ecbImage).trace, Inside ecbImage a := by
  have hm : Framed ecbImage := ⟨by decide +kernel, by decide +kernel, by decide +kernel⟩
  have htrace : (∀ a ∈ [⟨.relocate, 400, 8, true⟩, ⟨.probedesc, 353, 2, false⟩,
      ⟨.difo, 504, 4, false⟩, ⟨.difo, 400, 8, false⟩],
        a ∈ (dofSlurp (fun _ => true) (2 ^ 20) false ecbImage).trace) ∧
      ∀ a ∈ (dofSlurp (fun _ => true) (2 ^ 20) false ecbImage).trace, Spares ecbImage a := by
    decide +kernel
  have hstr : ∀ i < secnum ecbImage, fld ecbImage (secAddr ecbImage i) dofsType = dofSectStrtab →
      fld ecbImage (secAddr ecbImage i) dofsOffset + fld ecbImage (secAddr ecbImage i) dofsSize
        ≠ 0 := by
    decide +kernel
  refine ⟨hm, htrace.1, dof_loading_inside _ (2 ^ 20) false ecbImage hm ?_ htrace.2⟩
  rintro sec ⟨i, hi, heq, -⟩
  rw [heq]
  exact hstr i hi

/-- **A SHORT SECTION HEADER**: eight bytes a section header pass the checks, and the flags of
    the last one are read behind the image. -/
theorem short_header_read :
    ∃ m : Memory, sizeofHdr ≤ loadsz m ∧ loadsz m < 2 ^ 63 ∧
      ∃ a ∈ (dofSlurp (fun _ => true) 0 false m).trace, ¬ Inside m a := by
  refine ⟨image (header 8 1 72), by decide, by decide, ⟨.slurp, 72, 4, false⟩, ?_, by decide⟩
  decide +kernel

theorem empty_strings_read :
    Framed (image (header 32 1 96 ++ secHeader 8 1 1 0 0 0)) ∧
      ∃ a ∈ (dofSlurp (fun _ => true) 0 false
        (image (header 32 1 96 ++ secHeader 8 1 1 0 0 0))).trace,
        ¬ Inside (image (header 32 1 96 ++ secHeader 8 1 1 0 0 0)) a := by
  refine ⟨⟨by decide, by decide, by decide⟩, ⟨.slurp, 2 ^ 64 - 1, 1, false⟩, ?_, by decide⟩
  decide +kernel

/-- Five sections: strings, relocations, a relocation header, its target, which is the offset
    in the fifth section header, and a second relocation header. -/
def relocImage : Memory := image (header 32 5 272 ++ secHeader 8 1 1 0 224 1 ++
  secHeader 10 8 1 24 232 24 ++ secHeader 12 4 1 0 256 12 ++ secHeader 1 8 1 0 208 8 ++
  secHeader 12 4 1 0 256 12 ++ bytes 8 0 ++ (bytes 4 0 ++ bytes 4 1 ++ bytes 8 0 ++ bytes 8 0) ++
  (bytes 4 0 ++ bytes 4 1 ++ bytes 4 3) ++ bytes 4 0)

theorem relocated_header_read :
    Framed relocImage ∧ ∃ a ∈ (dofSlurp (fun _ => true) (2 ^ 20) false relocImage).trace,
      ¬ Inside relocImage a := by
  refine ⟨⟨by decide, by decide, by decide⟩, ⟨.relocate, 256 + 2 ^ 20, 4, false⟩, ?_, by decide⟩
  decide +kernel

end Sirius.Dtrace.Dof
