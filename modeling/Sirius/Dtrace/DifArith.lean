import Sirius.Dtrace.DifSafety

/-! # Comparison and division of DIF

    A `cmp` clears the overflow code whatever its operands are, so a signed branch sees the
    sign of the wrapped difference.  The four divisions only look for a divisor of zero. -/

namespace Sirius.Dtrace.Dif

/-- What a condition says of the operands of the comparison before it. -/
def Cond.Says (a b : BitVec 64) : Cond → Prop
  | .a => True
  | .e => a = b
  | .ne => a ≠ b
  | .g => b.toInt < a.toInt
  | .gu => b < a
  | .ge => b.toInt ≤ a.toInt
  | .geu => b ≤ a
  | .l => a.toInt < b.toInt
  | .lu => a < b
  | .le => a.toInt ≤ b.toInt
  | .leu => a ≤ b

/-- The conditions on the signed order. -/
def Cond.signed : List Cond := [.g, .ge, .l, .le]

theorem slt_sub_iff (a b : BitVec 64) :
    ((a - b).slt 0 = true ↔ a.toInt < b.toInt) ↔ ¬ a.ssubOverflow b := by
  have ha := a.toInt_lt
  have ha' := a.le_toInt
  have hb := b.toInt_lt
  have hb' := b.le_toInt
  rw [BitVec.slt_iff_toInt_lt, BitVec.toInt_sub, BitVec.ssubOverflow, Int.bmod_def]
  simp
  omega

section

variable {X : Type} {m : Machine X} {a b : BitVec 64}

/-- The machine has the condition codes of a comparison. -/
structure Compared (m : Machine X) (a b : BitVec 64) : Prop where
  n : m.ccN = (a - b).slt 0
  z : m.ccZ = decide (a - b = 0)
  v : m.ccV = false
  c : m.ccC = decide (a < b)

/-- A signed condition sees the sign of the wrapped difference, and is wrong exactly if
    that overflowed. -/
theorem Compared.holds_signed (h : Compared m a b) {c : Cond} (hc : c ∈ Cond.signed) :
    (c.holds m = true ↔ c.Says a b) ↔ ¬ a.ssubOverflow b := by
  have hz : m.ccZ = decide (a.toInt = b.toInt) := by
    simp only [h.z, sub_eq_zero, BitVec.toInt_inj]
  -- Operands whose difference overflows are not equal.
  have hself : a.toInt = b.toInt → ¬ a.ssubOverflow b := by
    intro he
    rw [BitVec.toInt_inj.mp he]
    simp [BitVec.ssubOverflow]
  rw [← slt_sub_iff, ← h.n] at hself ⊢
  simp only [Cond.signed, List.mem_cons, List.not_mem_nil, or_false] at hc
  cases hn : m.ccN <;> rcases hc with rfl | rfl | rfl | rfl <;>
    simp [Cond.holds, Cond.Says, hn, h.v, hz] at hself ⊢ <;> omega

theorem Compared.holds_unsigned (h : Compared m a b) {c : Cond} (hc : c ∉ Cond.signed) :
    c.holds m = true ↔ c.Says a b := by
  cases c with
  | g | ge | l | le => simp [Cond.signed] at hc
  | a => simp [Cond.holds, Cond.Says]
  | _ =>
    simp only [Cond.holds, Cond.Says, h.z, h.c]
    simp
    try bv_omega

/-- A branch goes where its condition says, unless the condition is signed and the
    difference overflowed. -/
theorem Compared.branch (h : Compared m a b) {c : Cond} {label : ℕ} :
    ((c.Says a b → (if c.holds m then label else m.pc + 1) = label) ∧
      (¬ c.Says a b → (if c.holds m then label else m.pc + 1) = m.pc + 1)) ↔
    (c ∈ Cond.signed → a.ssubOverflow b → label = m.pc + 1) := by
  by_cases hc : c ∈ Cond.signed
  · by_cases ho : a.ssubOverflow b = true
    · have hwrong : ¬ (c.holds m = true ↔ c.Says a b) :=
        fun hr => (h.holds_signed hc).mp hr ho
      simp only [hc, ho, true_implies]
      by_cases hs : c.Says a b
      · have hh : ¬ c.holds m = true := fun hh => hwrong (iff_of_true hh hs)
        simp [hs, hh, eq_comm]
      · have hh : c.holds m = true := not_not.mp fun hh => hwrong (iff_of_false hh hs)
        simp [hs, hh]
    · have hr := (h.holds_signed hc).mpr ho
      by_cases hs : c.Says a b <;> simp [hs, hr, ho]
  · have hr := h.holds_unsigned hc
    by_cases hs : c.Says a b <;> simp [hs, hr, hc]

theorem step_branch {k : Kernel X} {dp : Difo} {br : Instr} {c : Cond}
    (hbr : dp.buf[m.pc]? = some br) (hop : opcode br = some (.branch c)) :
    step k dp m = .ok { m with
      opc := m.pc, pc := if c.holds m then instrLabel br else m.pc + 1 } := by
  have hholds : c.holds { m with opc := m.pc, pc := m.pc + 1 } = c.holds m := by cases c <;> rfl
  simp only [step, hbr, exec, hop, hholds]
  cases c.holds m <;> rfl

end

def Alu.divisions : List Alu := [.sdiv, .udiv, .srem, .urem]

/-- `v` is the quotient or the remainder of `a` and `b`, rounded toward zero. -/
def Alu.Divides (a b v : BitVec 64) : Alu → Prop
  | .sdiv => v.toInt = a.toInt.tdiv b.toInt
  | .srem => v.toInt = a.toInt.tmod b.toInt
  | .udiv => v.toNat = a.toNat / b.toNat
  | .urem => v.toNat = a.toNat % b.toNat
  | _ => False

theorem Alu.eval_division {f : Alu} (hf : f ∈ divisions) (a b : BitVec 64) :
    (f.Overflows a b ∧ f.eval a b = .error .divide) ∨
      ¬ f.Overflows a b ∧ ∃ v, f.eval a b = .ok (v, if b = 0 then cpuDivzero else 0) ∧
        (b = 0 → v = 0) ∧ (b ≠ 0 → f.Divides a b v) := by
  simp only [divisions, List.mem_cons, List.not_mem_nil, or_false] at hf
  by_cases hb : b = 0
  · subst hb
    refine .inr ⟨fun h => absurd h.2.2 (by decide), 0, ?_, fun _ => rfl, fun h => absurd rfl h⟩
    rcases hf with rfl | rfl | rfl | rfl <;> rfl
  by_cases ho : a = .intMin 64 ∧ b = -1
  · rcases hf with rfl | rfl | rfl | rfl <;> simp [Overflows, Divides, Alu.eval, ho]
  · refine .inr ⟨fun h => ho h.2, ?_⟩
    rcases hf with rfl | rfl | rfl | rfl <;> simp only [Alu.eval, if_neg hb, if_neg ho]
    · refine ⟨_, rfl, fun h => absurd h hb, fun _ => BitVec.toInt_sdiv_of_ne_or_ne a b ?_⟩
      exact not_and_or.mp ho
    · exact ⟨_, rfl, fun h => absurd h hb, fun _ => BitVec.toNat_udiv⟩
    · exact ⟨_, rfl, fun h => absurd h hb, fun _ => BitVec.toInt_srem a b⟩
    · exact ⟨_, rfl, fun h => absurd h hb, fun _ => BitVec.toNat_umod⟩

/-- **COMPARISON AND DIVISION**: in an accepted object, whatever the registers hold, a
    branch on the codes of a comparison goes where its condition says of the operands,
    exactly if it is not a signed one behind a difference that overflows, or goes to the
    next instruction anyway.  A division does not trap exactly if it is not a signed one of
    the least integer by -1; then `rd` has the quotient or remainder, or 0 with the flag for
    a divisor of zero. -/
theorem dif_arithmetic {X : Type} {globalMaxsize : ℕ} {tables : Vstate} {kcheckload : Bool}
    {dp dp' : Difo} (h : difoValidate globalMaxsize tables kcheckload dirNregs dp = some (dp', []))
    (k : Kernel X) (m : Machine X) {instr : Instr} (hi : dp'.buf[m.pc]? = some instr) :
    (opcode instr = some .cmp → ∃ a b m',
      m.reg (instrR1 instr) = .ok a ∧ m.reg (instrR2 instr) = .ok b ∧ step k dp' m = .ok m' ∧
      ∀ n : Machine X, n.ccN = m'.ccN → n.ccZ = m'.ccZ → n.ccV = m'.ccV → n.ccC = m'.ccC →
        ∀ br c, dp'.buf[n.pc]? = some br → opcode br = some (.branch c) →
          ∃ n', step k dp' n = .ok n' ∧
            ((c.Says a b → n'.pc = instrLabel br) ∧ (¬ c.Says a b → n'.pc = n.pc + 1) ↔
              (c ∈ Cond.signed → a.ssubOverflow b → instrLabel br = n.pc + 1))) ∧
    ∀ f ∈ Alu.divisions, opcode instr = some (.alu f) → ∃ a b,
      m.reg (instrR1 instr) = .ok a ∧ m.reg (instrR2 instr) = .ok b ∧
      ((∃ m', step k dp' m = .ok m') ↔ ¬ f.Overflows a b) ∧
      ∀ m', step k dp' m = .ok m' →
        m'.env.flags = (m.env.flags ||| if b = 0 then cpuDivzero else 0) ∧
        ∃ v, m'.reg (instrRd instr) = .ok v ∧ (b = 0 → v = 0) ∧ (b ≠ 0 → f.Divides a b v) := by
  have hv := (difoValidate_eq_nil.mp (difoValidate_checked h)).2.1 _ _ hi
  refine ⟨fun hop => ?_, fun f hf hop => ?_⟩
  · rw [Valid, hop] at hv
    obtain ⟨h1, h2, -⟩ := hv
    have hs : step k dp' m = exec k dp' instr { m with opc := m.pc, pc := m.pc + 1 } := by
      rw [step, hi]
    simp only [exec, hop, Machine.reg, dif_pos h1, dif_pos h2] at hs
    refine ⟨_, _, _, dif_pos h1, dif_pos h2, hs, fun n hn hz hV hc br c hbr hbop => ?_⟩
    have hcmp : Compared n (m.regs ⟨_, h1⟩) (m.regs ⟨_, h2⟩) := ⟨hn, hz, hV, hc⟩
    exact ⟨_, step_branch hbr hbop, hcmp.branch⟩
  · rw [Valid, hop] at hv
    obtain ⟨h1, h2, hd, -⟩ := hv
    refine ⟨_, _, dif_pos h1, dif_pos h2, ?_⟩
    simp only [step, hi, exec, hop, Machine.reg, dif_pos h1, dif_pos h2]
    rcases Alu.eval_division hf (m.regs ⟨_, h1⟩) (m.regs ⟨_, h2⟩) with
      ⟨ho, he⟩ | ⟨ho, v, he, hzero, hdiv⟩
    · simp only [bind, Except.bind, he]
      refine ⟨iff_of_false ?_ (not_not.mpr ho), fun m' hs => by cases hs⟩
      rintro ⟨m', hs⟩
      cases hs
    · simp only [bind, Except.bind, he, Machine.setReg, dif_pos hd]
      refine ⟨iff_of_true ⟨_, rfl⟩ ho, fun m' hs => ?_⟩
      cases hs
      refine ⟨rfl, v, ?_, hzero, hdiv⟩
      simp only [Function.update_self]

/-- `setx intMin, %r1; setx 1, %r2; cmp %r1, %r2; bg 5; ret %r0; setx -1, %r2;
    sdiv %r1, %r2, %r3; ret %r3`. -/
def leastDifo : Difo where
  buf := [0x25000001, 0x25000102, 0x0f010200, 0x14000005, 0x23000000, 0x25000202, 0x09010203,
    0x23000003]
  inttab := [.intMin 64, 1, -1]
  strtab := 0
  strlen := 0
  vartab := []
  rtype := ⟨0, 0, 8⟩
  destructive := false

/-- The branch on greater is taken for the least integer and 1, and the division behind it
    traps. -/
theorem least_traps :
    difoValidate 16384 .empty false dirNregs leastDifo = some (leastDifo, []) ∧
    emulate quietKernel leastDifo 8 (.start .empty .quiet (fun _ => 0) (fun _ => ⟨0, 0⟩)) =
      .stopped .divide := by
  exact ⟨by decide, by rfl⟩

/-- A machine with 9 in `%r1` and -4 in the other registers. -/
def nineAt (pc : ℕ) : Machine Unit :=
  { Machine.start .empty .quiet (fun r => if r.val = 1 then 9 else -4) (fun _ => ⟨0, 0⟩)
    with pc := pc }

/-- With 9 and -4 the same object branches, and divides to -2. -/
theorem dif_arithmetic_least :
    (∃ m' n', step quietKernel leastDifo (nineAt 2) = .ok m' ∧
      step quietKernel leastDifo m' = .ok n' ∧ n'.pc = 5) ∧
    ∃ m' v, step quietKernel leastDifo (nineAt 6) = .ok m' ∧ m'.reg 3 = .ok v ∧ v.toInt = -2 := by
  have h : difoValidate 16384 .empty false dirNregs leastDifo = some (leastDifo, []) := by decide
  obtain ⟨a, b, m', ha, hb, hs, hbranch⟩ := (dif_arithmetic h quietKernel (nineAt 2) rfl).1 rfl
  obtain ⟨c, d, hc, hd, hend, hdiv⟩ :=
    (dif_arithmetic h quietKernel (nineAt 6) rfl).2 .sdiv (by decide) rfl
  cases ha; cases hb; cases hc; cases hd
  refine ⟨?_, ?_⟩
  · have hpc : leastDifo.buf[m'.pc]? = some 0x14000005 := by cases hs; rfl
    obtain ⟨n', hn, hright⟩ := hbranch m' rfl rfl rfl rfl _ .g hpc rfl
    have hover : ¬ BitVec.ssubOverflow (9 : BitVec 64) (-4) = true := by decide
    refine ⟨m', n', hs, hn, (hright.mpr fun _ ho => absurd ho hover).1 ?_⟩
    show (-4 : BitVec 64).toInt < (9 : BitVec 64).toInt
    decide
  · obtain ⟨m'', hm''⟩ := hend.mpr fun ho => absurd ho.2.2 (by decide)
    obtain ⟨-, v, hv, -, hq⟩ := hdiv m'' hm''
    exact ⟨m'', v, hm'', hv, (hq (by decide)).trans (by decide)⟩

end Sirius.Dtrace.Dif
