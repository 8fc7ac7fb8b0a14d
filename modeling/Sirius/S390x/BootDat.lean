import Mathlib.Data.List.Pairwise
import Mathlib.Tactic.Ring
import Sirius.S390x.Pte

/-! # The boot-time translation tables of `kipl_mem.c`

    `getRSPsize` counts the region, segment and page tables that memory calls for,
    `updateHtable` lays tables and htables out in the storage obtained, and `createDATTables`
    fills in the entries.  `updateHtable` steps through the storage with its own copies of the
    two pointers and never sees how far the call for the next level got. -/

namespace Sirius.Boot

open Function
open Sirius.Hat (Pte)

structure MemoryChunk where
  start : ℕ
  len : ℕ
  deriving DecidableEq

def mmuPagesize : ℕ := 4096
def segmsize : ℕ := 2 ^ 20
def coreheapBase : ℕ := 0x60000000

def countRsp (mem limit : ℕ) : ℕ := mem / limit + if mem % limit ≠ 0 then 1 else 0

/-- Entries in one table of a level: `PT_SINGLE`, `ST_SINGLE` to `R1_SINGLE`. -/
def single (level : ℕ) : ℕ := if level = 0 then 256 else 2048

/-- The entries that `getRSPsize` counts for a level: `nPageTbls`, `nSegTbls`, `nRegion3`,
    `nRegion2`, `nRegion1`. -/
def entries (sysMem : List MemoryChunk) : ℕ → ℕ
  | 0 => (sysMem.map fun c => countRsp c.len mmuPagesize).sum
  | 1 => (sysMem.map fun c => max (countRsp c.len (2 ^ 20)) 2048).sum
  | 2 => (sysMem.map fun c => max (countRsp c.len (2 ^ 31)) 2048).sum
  | 3 => (sysMem.map fun c => max (countRsp c.len (2 ^ 42)) 2048).sum
  | _ => 2048

/-- `RSP[level].nTables`. -/
def nTables (sysMem : List MemoryChunk) (level : ℕ) : ℕ :=
  if level = 0 then entries sysMem 0 / 256
  else entries sysMem level / 2048 + if entries sysMem level % 2048 ≠ 0 then 1 else 0

/-- `RSP[level].tLen`. -/
def tLen (level : ℕ) : ℕ := single level * 8

/-- `RSP[level].lTables`. -/
def lTables (sysMem : List MemoryChunk) (level : ℕ) : ℕ :=
  (entries sysMem level * 8 + (mmuPagesize - 1)) / mmuPagesize * mmuPagesize

def getRSPsize (sysMem : List MemoryChunk) : ℕ :=
  lTables sysMem 0 + lTables sysMem 1 + lTables sysMem 2 + lTables sysMem 3 + lTables sysMem 4

/-- The number of htables that there is room for in `lHtable`. -/
def nHtables (sysMem : List MemoryChunk) : ℕ :=
  nTables sysMem 0 + nTables sysMem 1 + nTables sysMem 2 + nTables sysMem 3 + nTables sysMem 4

/-- The fields of `htable_t` that are read again during boot.  Pointers are indices into the
    array of htables. -/
structure Htable where
  org : ℕ
  len : ℕ
  vaddr : ℕ
  next : Option ℕ
  child : Option ℕ
  validCnt : ℕ
  deriving DecidableEq

/-- Real storage by doublewords, the htables (`none` where none was written), `RSP[].ht`,
    and what has been written so far: the tables and the htables in the order of their
    creation, and every store into the tables, each as address and length. -/
structure State where
  dw : ℕ → Pte
  hts : ℕ → Option Htable
  first : ℕ → Option ℕ
  tables : List (ℕ × ℕ)
  made : List ℕ
  stores : List (ℕ × ℕ)

/-- The entry that `invalidateRegion`, `invalidateSegment` and `invalidatePageTbl` write. -/
def invalidEntry (level : ℕ) : Pte := ⟨0, if level = 0 then 0x400 else 0x020⟩

/-- `RSP[level].init`. -/
def initTable (level org : ℕ) (dw : ℕ → Pte) : ℕ → Pte :=
  fun a => if org / 8 ≤ a ∧ a < org / 8 + single level then invalidEntry level else dw a

/-- One table of `updateHtable` with its htable; `prev` is null for the first one. -/
def makeTable (level pRSP ht vAddr : ℕ) (prev : Option ℕ) (s : State) : State :=
  let linked := prev.elim s.hts fun p =>
    update s.hts p ((s.hts p).map fun h => { h with next := some ht })
  { dw := initTable level pRSP s.dw
    hts := update linked ht
      (some ⟨pRSP, tLen level, vAddr, none, if level = 0 then none else some (ht + 1), 0⟩)
    first := if prev = none then update s.first level (some ht) else s.first
    tables := s.tables ++ [(pRSP, tLen level)]
    made := s.made ++ [ht]
    stores := s.stores ++ [(pRSP, tLen level)] }

/-- The loop of `updateHtable` at one level, `n` tables before its end; `below` is the
    recursive call.  Only a page table moves `vAddr` on. -/
def tableLoop (level : ℕ) (below : ℕ → ℕ → ℕ → State → State) :
    ℕ → Option ℕ → ℕ → ℕ → ℕ → State → State
  | 0, _, _, _, _, s => s
  | n + 1, prev, pRSP, ht, vAddr, s =>
    let s := makeTable level pRSP ht vAddr prev s
    let s := below (pRSP + tLen level) (ht + 1) vAddr s
    tableLoop level below n (some ht) (pRSP + tLen level) (ht + 1)
      (if level = 0 then vAddr + segmsize else vAddr) s

def updateHtable (count : ℕ → ℕ) : ℕ → ℕ → ℕ → ℕ → State → State
  | 0 => tableLoop 0 (fun _ _ _ s => s) (count 0) none
  | l + 1 => tableLoop (l + 1) (updateHtable count l) (count (l + 1)) none

/-- A region-table entry is pointed at the table `org` of `len` bytes. -/
def regionEntry (type : BitVec 12) (org len : ℕ) (e : Pte) : Pte :=
  ⟨org / 4096, (e.low &&& ~~~(0x02f : BitVec 12)) ||| (type <<< 2) |||
    (BitVec.ofNat 12 (len / mmuPagesize - 1) &&& 0x003)⟩

/-- A segment-table entry is pointed at the page table `org`, which lies on a boundary of
    2048 bytes. -/
def segmentEntry (org : ℕ) (e : Pte) : Pte :=
  ⟨org / 4096, (e.low &&& ~~~(0x820 : BitVec 12)) ||| (if org / 2048 % 2 = 1 then 0x800 else 0)⟩

/-- The entry of a table of level `level` for the table `cht` below it: `RTT1`, `RTT2`,
    `RTT3` or a segment-table entry. -/
def linkEntry (level : ℕ) (cht : Htable) (e : Pte) : Pte :=
  if level = 1 then segmentEntry cht.org e
  else regionEntry (BitVec.ofNat 12 (level - 1)) cht.org cht.len e

def levelShift (level : ℕ) : ℕ := if level = 0 then 12 else 9 + 11 * level

def storeDw (a : ℕ) (e : Pte) (s : State) : State :=
  { s with dw := update s.dw a e, stores := s.stores ++ [(8 * a, 8)] }

/-- `++ht->ht_valid_cnt`. -/
def countEntry (ht : ℕ) (s : State) : State :=
  { s with
    hts := update s.hts ht ((s.hts ht).map fun h => { h with validCnt := h.validCnt + 1 }) }

/-- The loop over the tables below one table.  It fails where it comes upon an htable that
    was never written, or does not come to an end. -/
def linkChildren (level ht : ℕ) : ℕ → Option ℕ → State → Option State
  | _, none, s => some s
  | 0, some _, _ => none
  | fuel + 1, some c, s =>
    (s.hts c).bind fun cht => (s.hts ht).bind fun h =>
      let a := h.org / 8 + (cht.vaddr + 2 ^ 64 - h.vaddr) % 2 ^ 64 / 2 ^ levelShift level
      linkChildren level ht fuel cht.next
        (countEntry ht (storeDw a (linkEntry level cht (s.dw a)) s))

def linkLevel (level fuel : ℕ) : ℕ → Option ℕ → State → Option State
  | _, none, s => some s
  | 0, some _, _ => none
  | n + 1, some ht, s =>
    (s.hts ht).bind fun h => (linkChildren level ht fuel h.child s).bind fun s' =>
      (s'.hts ht).bind fun h' => linkLevel level fuel n h'.next s'

/-- The loop over the entries of one page table, `n` entries before its end. -/
def fillPages (ht : ℕ) : ℕ → ℕ → ℕ → State → State
  | 0, _, _, s => s
  | n + 1, a, pfra, s =>
    if coreheapBase ≤ pfra then s
    else
      let e : Pte := ⟨pfra / 4096, (s.dw a).low &&& ~~~(0x400 : BitVec 12)⟩
      fillPages ht n (a + 1) (pfra + mmuPagesize) (countEntry ht (storeDw a e s))

def fillLevel : ℕ → Option ℕ → State → Option State
  | _, none, s => some s
  | 0, some _, _ => none
  | n + 1, some ht, s =>
    (s.hts ht).bind fun h =>
      fillLevel n h.next (fillPages ht 256 (h.org / 8) h.vaddr s)

def fresh (dw : ℕ → Pte) : State := ⟨dw, fun _ => none, fun _ => none, [], [], []⟩

/-- `createDATTables`, with the storage at `pRSP` for the tables. -/
def createDATTables (sysMem : List MemoryChunk) (pRSP : ℕ) (dw : ℕ → Pte) : Option State :=
  let n := nHtables sysMem + 1
  let s := updateHtable (nTables sysMem) 4 pRSP 0 0 (fresh dw)
  (linkLevel 4 n n (s.first 4) s).bind fun s =>
  (linkLevel 3 n n (s.first 3) s).bind fun s =>
  (linkLevel 2 n n (s.first 2) s).bind fun s =>
  (linkLevel 1 n n (s.first 1) s).bind fun s =>
  fillLevel n (s.first 0) s

/-! ## The walk of the hardware -/

/-- One entry of a region or segment table of the designated part `off` to `len`, whose
    type is to be `type`. -/
def tableEntry (dw : ℕ → Pte) (origin : ℕ) (off len : BitVec 12) (type : BitVec 12)
    (index : ℕ) : Option Pte :=
  let e := dw (origin / 8 + index)
  if index / 512 < off.toNat ∨ len.toNat < index / 512 then none
  else if e.low &&& 0x020 ≠ 0 then none
  else if e.low &&& 0x00c ≠ type then none
  else some e

/-- The table that an entry points at, with its designated part. -/
def below (dw : ℕ → Pte) (e : Pte) (type : BitVec 12) (index : ℕ) : Option Pte :=
  tableEntry dw (e.frame * 4096) ((e.low &&& 0x0c0) >>> 6) (e.low &&& 0x003) type index

/-- Dynamic address translation with the region-first table at `origin`, as it is put into
    the control register: type `RTT1`, length 3.  It gives the frame. -/
def translate (dw : ℕ → Pte) (origin va : ℕ) : Option ℕ :=
  (tableEntry dw origin 0 3 0x00c (va / 2 ^ 53 % 2048)).bind fun r1 =>
  (below dw r1 0x008 (va / 2 ^ 42 % 2048)).bind fun r2 =>
  (below dw r2 0x004 (va / 2 ^ 31 % 2048)).bind fun r3 =>
  (below dw r3 0x000 (va / 2 ^ 20 % 2048)).bind fun st =>
  let e := dw ((st.frame * 4096 + (st.low &&& 0x800).toNat) / 8 + va / 2 ^ 12 % 256)
  if e.low &&& 0xc00 = 0 then some e.frame else none

/-! ## What the construction is for -/

def Apart (a b : ℕ × ℕ) : Prop := a.1 + a.2 ≤ b.1 ∨ b.1 + b.2 ≤ a.1

def IsReal (sysMem : List MemoryChunk) (va : ℕ) : Prop :=
  ∃ c ∈ sysMem, c.start ≤ va ∧ va < c.start + c.len

/-- The tables are built inside the storage obtained, without overlap, and map exactly the
    real memory below `COREHEAP_BASE`, each page to itself. -/
def MapsMemory (sysMem : List MemoryChunk) (pRSP : ℕ) (dw : ℕ → Pte) : Prop :=
  ∃ s, createDATTables sysMem pRSP dw = some s ∧
    (∀ e ∈ s.stores, pRSP ≤ e.1 ∧ e.1 + e.2 ≤ pRSP + getRSPsize sysMem) ∧
    (∀ h ∈ s.made, h < nHtables sysMem) ∧ s.tables.Pairwise Apart ∧ s.made.Nodup ∧
    ∀ va < 2 ^ 64, ∀ f, translate s.dw pRSP va = some f ↔
      f = va / 4096 ∧ IsReal sysMem va ∧ va < coreheapBase

end Sirius.Boot
