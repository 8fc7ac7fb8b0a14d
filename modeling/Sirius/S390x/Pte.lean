import Mathlib.Data.Nat.Notation

/-! # Table entries of the s390x HAT, from `hat_pte.h`

    An entry of any table is one doubleword.  Its upper 52 bits name a frame, and every
    mask of `hat_pte.h` lies in the lower 12, so an entry is kept as these two parts. -/

namespace Sirius.Hat

/-- `s390xpte_t`. -/
structure Pte where
  frame : ℕ
  low : BitVec 12
  deriving DecidableEq

def rsInvalid : BitVec 12 := 0x020
def ptInvalid : BitVec 12 := 0x400
def pgProtect : BitVec 12 := 0x200
def ptFlagbits : BitVec 12 := 0x0df
def ptWritable : BitVec 12 := 0x001
def ptNx : BitVec 12 := 0x002
def ptNosync : BitVec 12 := 0x008
def ptNoconsist : BitVec 12 := 0x010
def ptSoftware : BitVec 12 := 0x0d8

/-- `PTE_SET`. -/
def Pte.set (p : Pte) (f : BitVec 12) : Pte := { p with low := p.low ||| f }

/-- `PTE_CLR`. -/
def Pte.clr (p : Pte) (f : BitVec 12) : Pte := { p with low := p.low &&& ~~~f }

/-- `PTE_GET`. -/
def Pte.get (p : Pte) (f : BitVec 12) : BitVec 12 := p.low &&& f

/-- `PTE_ISVALID` in a table of level `l`. -/
def pteIsvalid (p : Pte) (l : ℕ) : Bool :=
  if l = 0 then p.get ptInvalid == 0 else p.get rsInvalid == 0

def pteEquiv (a b : Pte) (l : ℕ) : Bool :=
  a.frame == b.frame &&
    if l = 0 then a.get (~~~0x1ff) == b.get (~~~0x1ff) else a.get (~~~0x1df) == b.get (~~~0x1df)

def pteSame (a b : Pte) (l : ℕ) : Bool :=
  a.frame == b.frame &&
    if l = 0 then a.get (~~~0xbff) == b.get (~~~0xbff) else a.get (~~~0x7df) == b.get (~~~0x7df)

/-- `PTE_GET(pte, PT_SOFTWARE) >= PT_NOSYNC`. -/
def Pte.nosync (p : Pte) : Bool := decide (ptNosync ≤ p.get ptSoftware)

/-- `PTE_GET(pte, PT_SOFTWARE) >= PT_NOCONSIST`. -/
def Pte.noconsist (p : Pte) : Bool := decide (ptNoconsist ≤ p.get ptSoftware)

def makepte (pfn : ℕ) : Pte := ⟨pfn, 0⟩

/-- What `invalidateRSP` leaves in an entry of a page table: `ipte` sets the invalid bit of
    a valid one, and the flag bits go in any case. -/
def invalidated (p : Pte) : Pte := (if pteIsvalid p 0 then p.set ptInvalid else p).clr ptFlagbits

structure Attr where
  exec : Bool
  write : Bool
  nosync : Bool
  deriving DecidableEq

/-- The entry that `hati_mkpte` builds for a page. -/
def hatiMkpte (pfn : ℕ) (attr : Attr) (noconsist : Bool) : Pte :=
  let pte := makepte pfn
  let pte := if attr.exec then pte else pte.set ptNx
  let pte :=
    if noconsist then pte.set ptNoconsist
    else if attr.nosync then pte.set ptNosync
    else pte
  if attr.write then (pte.set ptWritable).clr pgProtect else pte.set pgProtect

end Sirius.Hat
