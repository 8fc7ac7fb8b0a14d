import Sirius.Lib.SeqNum
import Mathlib.Data.List.Pairwise

/-! # The receiver's SACK blocks — `tcp_sack_insert`, `tcp_sack_remove`

    The first `*num` entries are a list here, the newest block first.  An insertion takes in
    the old blocks that the new one meets, and what it has taken decides what it meets next;
    it looks at four only, so that a fifth is lost.  The comparisons are modular: at each call
    some window of `2^31` numbers must have all live numbers in it; it may move between calls.
    -/

namespace Sirius.Sack

open List Lib

abbrev TcpSeq := BitVec 32

structure SackBlk where
  begin : TcpSeq
  stop : TcpSeq
  deriving DecidableEq

def maxSackBlk : ℕ := 5

variable {w w' x begin stop : TcpSeq} {new h b : SackBlk} {head : List SackBlk}

/-- One turn of the loop of `tcp_sack_insert`: `none` keeps the old block `h` (case 1); otherwise
    it is dropped and the loop goes on with the block given (cases 2 to 5). -/
def absorb (new h : SackBlk) : Option SackBlk :=
  if seqLt new.stop h.begin || seqGt new.begin h.stop then none
  else if seqGeq new.begin h.begin && seqLeq new.stop h.stop then some ⟨h.begin, h.stop⟩
  else if seqLeq new.stop h.stop && seqGeq new.stop h.begin then some ⟨new.begin, h.stop⟩
  else if seqGeq new.begin h.begin && seqLeq new.begin h.stop then some ⟨h.begin, new.stop⟩
  else some new

/-- The loop: the new block at its end, and the blocks copied to `tmp`. -/
def insertLoop (new : SackBlk) : List SackBlk → SackBlk × List SackBlk
  | [] => (new, [])
  | h :: head =>
    match absorb new h with
    | none => ((insertLoop new head).1, h :: (insertLoop new head).2)
    | some new' => insertLoop new' head

def tcpSackInsert (head : List SackBlk) (begin stop : TcpSeq) : List SackBlk :=
  if head.length = 0 then [⟨begin, stop⟩]
  else
    let r := insertLoop ⟨begin, stop⟩ (head.take (maxSackBlk - 1))
    r.1 :: r.2

/-- What `tcp_sack_remove` copies of one block. -/
def trim (stop : TcpSeq) (h : SackBlk) : Option SackBlk :=
  if seqGt stop h.begin then
    if seqGeq stop h.stop then none else some ⟨stop, h.stop⟩
  else some h

def tcpSackRemove (head : List SackBlk) (stop : TcpSeq) : List SackBlk :=
  head.filterMap (trim stop)

def SackBlk.range (b : SackBlk) : Set TcpSeq := seqRange b.begin b.stop

def cover (head : List SackBlk) : Set TcpSeq := {x | ∃ b ∈ head, x ∈ b.range}

theorem cover_cons : cover (b :: head) = b.range ∪ cover head := by
  ext x
  simp [cover, Set.mem_union]

/-- A block that is not empty, in the window from `w` on. -/
structure SackBlk.In (w : TcpSeq) (b : SackBlk) : Prop where
  lt : off w b.begin < off w b.stop
  top : off w b.stop < 2 ^ 31

theorem SackBlk.In.bot (hb : b.In w) : off w b.begin < 2 ^ 31 := hb.lt.trans hb.top

theorem SackBlk.In.mem (hb : b.In w) :
    x ∈ b.range ↔ off w b.begin ≤ off w x ∧ off w x < off w b.stop := mem_seqRange hb.lt.le hb.top

/-- There is a gap between two blocks: they are disjoint and not adjacent. -/
def Apart (w : TcpSeq) (b c : SackBlk) : Prop :=
  off w b.stop < off w c.begin ∨ off w c.stop < off w b.begin

structure Good (w : TcpSeq) (head : List SackBlk) : Prop where
  length : head.length ≤ maxSackBlk
  inside : ∀ b ∈ head, b.In w
  apart : head.Pairwise (Apart w)

/-- All live numbers are in the window from `w` on. -/
def Live (w : TcpSeq) (head : List SackBlk) : Prop :=
  ∀ b ∈ head, off w b.begin < 2 ^ 31 ∧ off w b.stop < 2 ^ 31

instance : Decidable (Live w head) := inferInstanceAs (Decidable (∀ b ∈ head, _))

theorem Good.move (hg : Good w head) (hl : Live w' head) : Good w' head := by
  refine ⟨hg.length, fun b hb => ⟨?_, (hl b hb).2⟩, hg.apart.imp_of_mem fun hb hc hbc => ?_⟩
  · have hin := hg.inside b hb
    exact (off_lt_iff hin.bot hin.top (hl b hb).1 (hl b hb).2).mp hin.lt
  · have hin := hg.inside _ hb
    have hin' := hg.inside _ hc
    exact hbc.imp (off_lt_iff hin.top hin'.bot (hl _ hb).2 (hl _ hc).1).mp
      (off_lt_iff hin'.top hin.bot (hl _ hc).2 (hl _ hb).1).mp

/-- **ONE TURN**: a block with a gap before or after the new one is kept, and otherwise the new
    block becomes the hull of both. -/
theorem absorb_spec (hn : new.In w) (hh : h.In w) : match absorb new h with
    | none => Apart w new h
    | some new' => off w new'.begin = min (off w new.begin) (off w h.begin)
        ∧ off w new'.stop = max (off w new.stop) (off w h.stop) ∧ ¬ Apart w new h := by
  simp only [absorb, Apart, seqLt, seqGt, seqLeq, seqGeq, toInt_sub_of_window hn.top hh.bot,
    toInt_sub_of_window hn.bot hh.top, toInt_sub_of_window hn.bot hh.bot,
    toInt_sub_of_window hn.top hh.top, Bool.or_eq_true, Bool.and_eq_true, decide_eq_true_eq]
  split_ifs <;> dsimp only <;> omega

/-- **THE LOOP** loses no number, and a block that had a gap to everything has one to the result. -/
theorem insertLoop_spec (hn : new.In w) (hl : ∀ h ∈ head, h.In w) :
    let r := insertLoop new head
    r.1.In w ∧ off w r.1.begin ≤ off w new.begin ∧ off w new.stop ≤ off w r.1.stop
      ∧ r.2 <+ head ∧ r.1.range ∪ cover r.2 = new.range ∪ cover head
      ∧ (∀ b, b.In w → Apart w new b → (∀ h ∈ head, Apart w b h) → Apart w r.1 b)
      ∧ (head.Pairwise (Apart w) → ∀ h ∈ r.2, Apart w r.1 h) := by
  induction head generalizing new with
  | nil => exact ⟨hn, le_rfl, le_rfl, .refl _, rfl, fun _ _ hb _ => hb, fun _ _ hh => by cases hh⟩
  | cons h head ih =>
    obtain ⟨hh, htl⟩ := forall_mem_cons.mp hl
    have hspec := absorb_spec hn hh
    cases habs : absorb new h with
    | none =>
      simp only [insertLoop, habs]
      rw [habs] at hspec
      obtain ⟨hin, hlo, hhi, hsub, hcov, hout, hpw⟩ := ih hn htl
      refine ⟨hin, hlo, hhi, hsub.cons_cons h, ?_, fun b hb hbn hbl => ?_, fun hp => ?_⟩
      · rw [cover_cons, cover_cons, Set.union_left_comm, hcov, Set.union_left_comm]
      · exact hout b hb hbn (forall_mem_cons.mp hbl).2
      · obtain ⟨hph, hpt⟩ := pairwise_cons.mp hp
        exact forall_mem_cons.mpr ⟨hout h hh hspec hph, hpw hpt⟩
    | some new' =>
      simp only [insertLoop, habs]
      rw [habs] at hspec
      obtain ⟨hmin, hmax, hmeet⟩ := hspec
      have := hn.lt
      have := hn.top
      have := hh.top
      have hn' : new'.In w := ⟨by omega, by omega⟩
      obtain ⟨hin, hlo, hhi, hsub, hcov, hout, hpw⟩ := ih hn' htl
      refine ⟨hin, by omega, by omega, hsub.cons h, ?_, fun b hb hbn hbl => ?_, fun hp => ?_⟩
      · have hull : new'.range = new.range ∪ h.range := by
          ext x
          rw [Set.mem_union, hn'.mem, hn.mem, hh.mem]
          unfold Apart at hmeet
          omega
        rw [hcov, cover_cons, hull, Set.union_assoc]
      · -- the two blocks meet, so that nothing apart from both lies between them
        obtain ⟨hbh, hbt⟩ := forall_mem_cons.mp hbl
        have := hb.lt
        refine hout b hb ?_ hbt
        unfold Apart at *
        omega
      · exact hpw (pairwise_cons.mp hp).2

/-- What an insertion is for; only the last of five blocks may be lost. -/
def Inserts (head : List SackBlk) (begin stop : TcpSeq) : Prop :=
  (∃ b ∈ (tcpSackInsert head begin stop).head?, seqRange begin stop ⊆ b.range)
    ∧ cover (tcpSackInsert head begin stop) = seqRange begin stop ∪ cover (head.take 4)

theorem Good.insert (hg : Good w head) (hn : SackBlk.In w ⟨begin, stop⟩) :
    Good w (tcpSackInsert head begin stop) ∧ Inserts head begin stop := by
  have htake := take_sublist 4 head
  have hold : ∀ b ∈ head.take 4, b.In w := fun b hb => hg.inside b (htake.subset hb)
  have heq : tcpSackInsert head begin stop = (insertLoop ⟨begin, stop⟩ (head.take 4)).1 ::
      (insertLoop ⟨begin, stop⟩ (head.take 4)).2 := by
    cases head <;> rfl
  obtain ⟨hin, hlo, hhi, hsub, hcov, -, hpw⟩ := insertLoop_spec hn hold
  have hp := hg.apart.sublist htake
  rw [Inserts, heq, cover_cons]
  refine ⟨⟨?_, ?_, pairwise_cons.mpr ⟨hpw hp, hp.sublist hsub⟩⟩, ⟨_, rfl, fun x hx => ?_⟩, hcov⟩
  · exact Nat.succ_le_succ (hsub.length_le.trans (length_take_le ..))
  · exact forall_mem_cons.mpr ⟨hin, fun b hb => hold b (hsub.subset hb)⟩
  · have := hn.mem.mp hx
    exact hin.mem.mpr (by omega)

theorem trim_spec (hh : h.In w) (hs : off w stop < 2 ^ 31) :
    (∀ b ∈ trim stop h, b.In w ∧ off w h.begin ≤ off w b.begin ∧ b.stop = h.stop)
      ∧ ∀ x, (∃ b ∈ trim stop h, x ∈ b.range) ↔ x ∈ h.range ∧ seqGeq x stop := by
  have hge : ∀ x, x ∈ h.range ∧ seqGeq x stop ↔
      (off w h.begin ≤ off w x ∧ off w x < off w h.stop) ∧ off w stop ≤ off w x := by
    intro x
    rw [hh.mem, and_congr_right_iff]
    intro hx
    rw [seqGeq, toInt_sub_of_window (hx.2.trans hh.top) hs, decide_eq_true_iff]
    omega
  simp only [hge]
  simp only [trim, seqGt, seqGeq, toInt_sub_of_window hs hh.bot, toInt_sub_of_window hs hh.top,
    decide_eq_true_eq]
  split_ifs with hgt hcov
  · exact ⟨nofun, fun x => ⟨nofun, fun hx => by omega⟩⟩
  · have hb : SackBlk.In w ⟨stop, h.stop⟩ := ⟨by dsimp only; omega, hh.top⟩
    simp only [Option.mem_some_iff, forall_eq', exists_eq_left', hb.mem]
    exact ⟨⟨hb, by omega, trivial⟩, fun x => by omega⟩
  · simp only [Option.mem_some_iff, forall_eq', exists_eq_left', hh.mem]
    exact ⟨⟨hh, le_rfl, trivial⟩, fun x => by omega⟩

def Removes (head : List SackBlk) (stop : TcpSeq) : Prop :=
  cover (tcpSackRemove head stop) = {x | x ∈ cover head ∧ seqGeq x stop}

theorem Good.remove (hg : Good w head) (hs : off w stop < 2 ^ 31) :
    Good w (tcpSackRemove head stop) ∧ Removes head stop := by
  have htrim := fun h hh => trim_spec (hg.inside h hh) hs
  refine ⟨⟨(length_filterMap_le ..).trans hg.length, fun b hb => ?_, ?_⟩, ?_⟩
  · obtain ⟨h, hh, hb⟩ := mem_filterMap.mp hb
    exact ((htrim h hh).1 b hb).1
  · refine pairwise_filterMap.mpr (hg.apart.imp_of_mem fun hh hh' hap b hb b' hb' => ?_)
    obtain ⟨-, hle, hend⟩ := (htrim _ hh).1 b hb
    obtain ⟨-, hle', hend'⟩ := (htrim _ hh').1 b' hb'
    rw [Apart, ← hend, ← hend'] at hap
    unfold Apart
    omega
  · ext x
    constructor
    · rintro ⟨b, hb, hx⟩
      obtain ⟨h, hh, hb⟩ := mem_filterMap.mp hb
      obtain ⟨hxh, hge⟩ := ((htrim h hh).2 x).mp ⟨b, hb, hx⟩
      exact ⟨⟨h, hh, hxh⟩, hge⟩
    · rintro ⟨⟨h, hh, hx⟩, hge⟩
      obtain ⟨b, hb, hxb⟩ := ((htrim h hh).2 x).mpr ⟨hx, hge⟩
      exact ⟨b, mem_filterMap.mpr ⟨h, hh, hb⟩, hxb⟩

inductive Reachable : List SackBlk → Prop
  | empty : Reachable []
  | insert {head : List SackBlk} (w begin stop : TcpSeq) (h : Reachable head) (hl : Live w head)
      (hn : SackBlk.In w ⟨begin, stop⟩) : Reachable (tcpSackInsert head begin stop)
  | remove {head : List SackBlk} (w stop : TcpSeq) (h : Reachable head) (hl : Live w head)
      (hs : off w stop < 2 ^ 31) : Reachable (tcpSackRemove head stop)

theorem Reachable.good (hr : Reachable head) : ∃ w, Good w head := by
  induction hr with
  | empty => exact ⟨0, Nat.zero_le _, fun _ h => (by cases h), .nil⟩
  | insert w begin stop _ hl hn ih =>
    obtain ⟨_, hg⟩ := ih
    exact ⟨w, ((hg.move hl).insert hn).1⟩
  | remove w stop _ hl hs ih =>
    obtain ⟨_, hg⟩ := ih
    exact ⟨w, ((hg.move hl).remove hs).1⟩

/-- **HEADLINE**: after every run the array has at most `MAX_SACK_BLK` blocks, none empty and any
    two with a gap between them, and the next call does what it is for: an insertion puts a block
    with the segment in it first and covers the segment and what was covered, a removal takes out
    what is below `stop` and nothing else. -/
theorem sack_blocks_exact (hr : Reachable head) :
    (∃ w, Good w head) ∧ ∀ w, Live w head →
      (∀ begin stop, SackBlk.In w ⟨begin, stop⟩ → Inserts head begin stop)
        ∧ ∀ stop, off w stop < 2 ^ 31 → Removes head stop := by
  obtain ⟨w, hg⟩ := hr.good
  refine ⟨⟨w, hg⟩, fun w' hl => ⟨fun begin stop hn => ?_, fun stop hs => ?_⟩⟩
  · exact ((hg.move hl).insert hn).2
  · exact ((hg.move hl).remove hs).2

/-- Two segments around the point where the numbers wrap, with one number between them. -/
theorem sack_blocks_exact_wrapped : Removes [⟨1, 9⟩, ⟨0xfffffff0, 0⟩] 4 :=
  ((sack_blocks_exact (.insert 0xfffffff0 1 9 (.insert 0xfffffff0 0xfffffff0 0 .empty (by decide)
    ⟨by decide, by decide⟩) (by decide) ⟨by decide, by decide⟩)).2 0xfffffff0 (by decide)).2 4
    (by decide)

end Sirius.Sack
