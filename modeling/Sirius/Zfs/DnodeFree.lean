import Mathlib.Tactic.Ring
import Sirius.Zfs.DnodeSync

/-! # What syncing the freed ranges of an object does

    A range dooms the level-0 blocks in it, and an indirect block whose slots it all meets and
    whose blocks it dooms (`Dies`).  The model of `dnode_sync` kills exactly the doomed blocks
    of each range in its turn, each once, and leaves every other pointer alone. -/

namespace Sirius.DnodeSync

open Sirius.Lib List

variable {B : Type} {l : Nat}

theorem shiftRight_mono {a b : Nat} (h : a ≤ b) (n : Nat) : a >>> n ≤ b >>> n := by
  rw [Nat.shiftRight_eq_div_pow, Nat.shiftRight_eq_div_pow]
  exact Nat.div_le_div_right h

theorem shiftRight_succ_mul (a l e : Nat) : a >>> ((l + 1) * e) = a >>> (l * e) >>> e := by
  rw [Nat.succ_mul, Nat.shiftRight_add]

theorem shiftRight_eq_iff {c b e : Nat} : c >>> e = b ↔ b <<< e ≤ c ∧ c < (b + 1) <<< e := by
  rw [Nat.shiftRight_eq_div_pow, Nat.shiftLeft_eq, Nat.shiftLeft_eq,
    Nat.div_eq_iff (Nat.two_pow_pos e), Nat.succ_mul]
  have := Nat.two_pow_pos e
  omega

theorem shiftLeft_lt_succ (b e : Nat) : b <<< e < (b + 1) <<< e := by
  rw [Nat.shiftLeft_eq, Nat.shiftLeft_eq]
  exact mul_lt_mul_of_pos_right (Nat.lt_succ_self b) (Nat.two_pow_pos e)

/-! ## Freeing a set of blocks -/

/-- From `o` to `o'` exactly the blocks of `P` were killed, once each, and their pointers
    cleared. -/
structure Freed (g : Geometry B) (o o' : Object B) (P : Nat → Nat → Prop) : Prop where
  maxblkid : o'.maxblkid = o.maxblkid
  gone : ∀ l i, P l i → o.bp l i ≠ none ∧ o'.bp l i = none
  kept : ∀ l i, ¬ P l i → o'.bp l i = o.bp l i
  killed : ∃ new, o'.kills = o.kills ++ new ∧
    o'.used = o.used - (new.map fun k => (g.dasize k.2.2 : Int)).sum ∧ new.Nodup ∧
    ∀ l i b, (l, i, b) ∈ new ↔ P l i ∧ o.bp l i = some b

namespace Freed

variable {g : Geometry B} {o o1 o2 : Object B} {P Q : Nat → Nat → Prop}

theorem nothing (h : ∀ l i, ¬ P l i) : Freed g o o P where
  maxblkid := rfl
  gone l i hp := absurd hp (h l i)
  kept _ _ _ := rfl
  killed := ⟨[], by simp, by simp, nodup_nil, by simp [h]⟩

theorem congr (hf : Freed g o o1 P) (h : ∀ l i, P l i ↔ Q l i) : Freed g o o1 Q := by
  rwa [show Q = P from funext fun l => funext fun i => propext (h l i).symm]

theorem one {i : Nat} {b : B} (hb : o.bp l i = some b) :
    Freed g o ((o.kill l i b).didUse (g.dasize b)) fun l' i' => l' = l ∧ i' = i where
  maxblkid := rfl
  gone l' i' hp := by
    obtain ⟨rfl, rfl⟩ := hp
    exact ⟨by rw [hb]; exact Option.some_ne_none b, if_pos ⟨rfl, rfl⟩⟩
  kept l' i' hp := if_neg hp
  killed := by
    refine ⟨[(l, i, b)], rfl, by simp [Object.didUse, Object.kill], nodup_singleton _, ?_⟩
    intro l' i' b'
    rw [mem_singleton, Prod.mk.injEq, Prod.mk.injEq]
    constructor
    · rintro ⟨rfl, rfl, rfl⟩
      exact ⟨⟨rfl, rfl⟩, hb⟩
    · rintro ⟨⟨rfl, rfl⟩, hb'⟩
      exact ⟨rfl, rfl, Option.some.inj (hb'.symm.trans hb)⟩

theorem trans (h₁ : Freed g o o1 P) (h₂ : Freed g o1 o2 Q) :
    Freed g o o2 fun l i => P l i ∨ Q l i := by
  have hout : ∀ l i, Q l i → ¬ P l i := fun l i hq hp => (h₂.gone l i hq).1 (h₁.gone l i hp).2
  constructor
  · exact h₂.maxblkid.trans h₁.maxblkid
  · rintro l i (hp | hq)
    · refine ⟨(h₁.gone l i hp).1, ?_⟩
      rw [h₂.kept l i fun hq => hout l i hq hp]
      exact (h₁.gone l i hp).2
    · refine ⟨?_, (h₂.gone l i hq).2⟩
      rw [← h₁.kept l i (hout l i hq)]
      exact (h₂.gone l i hq).1
  · intro l i hn
    obtain ⟨hp, hq⟩ := not_or.mp hn
    exact (h₂.kept l i hq).trans (h₁.kept l i hp)
  · obtain ⟨new1, hk1, hu1, hn1, hm1⟩ := h₁.killed
    obtain ⟨new2, hk2, hu2, hn2, hm2⟩ := h₂.killed
    have hm : ∀ l i b, (l, i, b) ∈ new2 ↔ Q l i ∧ o.bp l i = some b := by
      intro l i b
      rw [hm2]
      refine and_congr_right fun hq => ?_
      rw [h₁.kept l i (hout l i hq)]
    refine ⟨new1 ++ new2, by rw [hk2, hk1, append_assoc], ?_, ?_, ?_⟩
    · rw [hu2, hu1, map_append, sum_append]
      ring
    · refine nodup_append.mpr ⟨hn1, hn2, ?_⟩
      rintro ⟨l, i, b⟩ ha _ hb rfl
      exact hout l i ((hm l i b).mp hb).1 ((hm1 l i b).mp ha).1
    · intro l i b
      rw [mem_append, hm1, hm, or_and_right]

end Freed

variable {g : Geometry B} {buf : Buf} {o : Object B}

theorem Buf.pointee_inj {i j : Nat} (h : buf.pointee g i = buf.pointee g j) : i = j := by
  cases buf with
  | dnode => exact (Prod.mk.inj h).2
  | indirect level blkid => exact add_left_cancel (Prod.mk.inj h).2

/-- The blocks that the slots `[off, k)` point to. -/
def InSlots (g : Geometry B) (o : Object B) (buf : Buf) (off k l i : Nat) : Prop :=
  o.bp l i ≠ none ∧ ∃ j, off ≤ j ∧ j < k ∧ buf.pointee g j = (l, i)

/-- The state of `free_blocks` in front of slot `k`, with the deferred `dnode_diduse_space`
    taken into account. -/
def BlocksFreed (g : Geometry B) (o : Object B) (buf : Buf) (off k : Nat)
    (s : Object B × Nat × Nat) : Prop :=
  Freed g o (s.1.didUse s.2.1) (InSlots g o buf off k)

theorem didUse_kill (o : Object B) (m n l i : Nat) (b : B) :
    ((o.didUse m).kill l i b).didUse n = (o.kill l i b).didUse (m + n) := by
  simp only [Object.didUse, Object.kill]
  push_cast
  ring_nf

theorem inSlots_succ {off k i l' i' : Nat} (hk : off ≤ k) (hp : buf.pointee g k = (l, i)) :
    InSlots g o buf off (k + 1) l' i'
      ↔ InSlots g o buf off k l' i' ∨ o.bp l i ≠ none ∧ l' = l ∧ i' = i := by
  constructor
  · rintro ⟨hne, j, h1, h2, h3⟩
    rcases Nat.lt_succ_iff_lt_or_eq.mp h2 with h2 | rfl
    · exact .inl ⟨hne, j, h1, h2, h3⟩
    · obtain ⟨rfl, rfl⟩ := Prod.mk.inj (hp.symm.trans h3)
      exact .inr ⟨hne, rfl, rfl⟩
  · rintro (⟨hne, j, h1, h2, h3⟩ | ⟨hne, rfl, rfl⟩)
    · exact ⟨hne, j, h1, Nat.lt_succ_of_lt h2, h3⟩
    · exact ⟨hne, k, hk, Nat.lt_succ_self k, hp⟩

theorem freeBlockStep_spec {off k : Nat} (hin : k < buf.size g)
    (hk : off ≤ k) {s : Object B × Nat × Nat} (h : BlocksFreed g o buf off k s) :
    ∃ s', freeBlockStep g buf k s = some s' ∧ BlocksFreed g o buf off (k + 1) s' := by
  obtain ⟨o1, bytes, n⟩ := s
  rcases hp : buf.pointee g k with ⟨l, i⟩
  have hread : o1.read g buf k = some (o1.bp l i) := by rw [Object.read, if_pos hin, hp]
  have hsame : o1.bp l i = o.bp l i := h.kept l i (by
    rintro ⟨-, j, -, hj, hpj⟩
    exact absurd (Buf.pointee_inj (hpj.trans hp.symm)) (ne_of_lt hj))
  cases hb : o1.bp l i with
  | none =>
    have hhole : ¬ o.bp l i ≠ none := fun hne => hne (hsame.symm.trans hb)
    refine ⟨(o1, bytes, n), by simp only [freeBlockStep, hread, hb], h.congr fun l' i' => ?_⟩
    rw [inSlots_succ hk hp, iff_self_or]
    exact fun hne => absurd hne.1 hhole
  | some b =>
    have hne : o.bp l i ≠ none := by
      rw [← hsame, hb]
      exact Option.some_ne_none b
    refine ⟨(o1.kill l i b, bytes + g.dasize b, n + 1),
      by simp only [freeBlockStep, hread, hb, hp], ?_⟩
    have hone := h.trans (Freed.one (o := o1.didUse bytes) hb)
    rw [didUse_kill] at hone
    refine hone.congr fun l' i' => ?_
    rw [inSlots_succ hk hp]
    exact or_congr_right (and_iff_right hne).symm

theorem freeBlocks_spec {off num : Nat} (hsize : off + num ≤ buf.size g) (o : Object B) :
    ∃ o' n, freeBlocks g buf off num o = some (o', n) ∧
      Freed g o o' (InSlots g o buf off (off + num)) := by
  have h0 : BlocksFreed g o buf off off (o, 0, 0) := by
    have hused : o.didUse 0 = o := by simp [Object.didUse]
    rw [BlocksFreed, hused]
    refine Freed.nothing ?_
    rintro l i ⟨-, j, h1, h2, -⟩
    omega
  have hloop : ∃ s', forSome (freeBlockStep g buf) off num (o, 0, 0) = some s' ∧
      BlocksFreed g o buf off (off + num) s' :=
    forSome_inv (BlocksFreed g o buf off) h0 fun k s hlo hhi h =>
      freeBlockStep_spec (by omega) hlo h
  obtain ⟨⟨o1, bytes, n⟩, hrun, hinv⟩ := hloop
  refine ⟨o1.didUse bytes, n, ?_, hinv⟩
  rw [freeBlocks, hrun]
  rfl

/-! ## The blocks a range dooms -/

/-- A range of level-0 blocks; `trunc` if it reaches the last block of the object. -/
structure Cut where
  lo : Nat
  last : Nat
  trunc : Bool
  le : lo ≤ last

variable {k : Cut} {e : Nat} {bp bp' : Nat → Nat → Option B}

/-- The block `(l, i)` holds a block of the range, or lies behind a range that reaches the end. -/
def Meets (k : Cut) (e l i : Nat) : Prop :=
  k.lo >>> (l * e) ≤ i ∧ (i ≤ k.last >>> (l * e) ∨ k.trunc = true)

/-- The blocks a range dooms: level-0 blocks in it, and an indirect block all of whose slots
    meet the range and all of whose blocks are doomed. -/
def Dies (k : Cut) (e : Nat) (bp : Nat → Nat → Option B) : Nat → Nat → Prop
  | 0, i => bp 0 i ≠ none ∧ Meets k e 0 i
  | l + 1, i => bp (l + 1) i ≠ none ∧
      ∀ c, c >>> e = i → Meets k e l c ∧ (bp l c ≠ none → Dies k e bp l c)

namespace Dies

theorem ptr {i : Nat} (h : Dies k e bp l i) : bp l i ≠ none := by
  cases l with
  | zero | succ l => exact h.1

theorem below {c : Nat} (h : Dies k e bp (l + 1) (c >>> e)) (hc : bp l c ≠ none) :
    Dies k e bp l c :=
  (h.2 c rfl).2 hc

theorem meets {i : Nat} (h : Dies k e bp l i) : Meets k e l i := by
  cases l with
  | zero => exact h.2
  | succ l =>
    obtain ⟨⟨h1, h2⟩, -⟩ := h.2 (i <<< e) (Nat.shiftLeft_shiftRight i e)
    have hup := shiftRight_mono h1 e
    rw [Nat.shiftLeft_shiftRight, ← shiftRight_succ_mul] at hup
    refine ⟨hup, h2.imp_left fun h2 => ?_⟩
    have hup := shiftRight_mono h2 e
    rwa [Nat.shiftLeft_shiftRight, ← shiftRight_succ_mul] at hup

theorem congr {i : Nat} (h : (∀ l' c, l' ≤ l → c >>> ((l - l') * e) = i → bp' l' c = bp l' c)) :
    (Dies k e bp' l i ↔ Dies k e bp l i) := by
  induction l generalizing i with
  | zero =>
    rw [Dies, Dies, h 0 i le_rfl (by simp)]
  | succ l ih =>
    have hself : bp' (l + 1) i = bp (l + 1) i := h _ _ le_rfl (by simp)
    have hdown : ∀ c, c >>> e = i → ∀ l' c', l' ≤ l → c' >>> ((l - l') * e) = c →
        bp' l' c' = bp l' c' := by
      intro c hc l' c' hl hc'
      refine h l' c' (Nat.le_succ_of_le hl) ?_
      rw [Nat.succ_sub hl, shiftRight_succ_mul, hc', hc]
    rw [Dies, hself]
    refine and_congr_right fun _ => forall_congr' fun c => forall_congr' fun hc => ?_
    rw [ih (hdown c hc), hdown c hc l c le_rfl (by simp)]

end Dies

/-- A dnode whose pointers are in order: `dn_maxblkid` bounds every block and fits the dnode,
    and what is below a hole is a hole. -/
structure WellFormed (g : Geometry B) (o : Object B) : Prop where
  levels : 0 < g.nlevels
  top : o.maxblkid >>> ((g.nlevels - 1) * g.epbs) < g.nblkptr
  bounded : ∀ l i, o.bp l i ≠ none → l < g.nlevels ∧ i ≤ o.maxblkid >>> (l * g.epbs)
  parented : ∀ l i, o.bp l i ≠ none → l + 1 < g.nlevels → o.bp (l + 1) (i >>> g.epbs) ≠ none

variable {o o' : Object B}

theorem Freed.wellFormed {P : Nat → Nat → Prop} (hf : Freed g o o' P) (h : WellFormed g o)
    (hdown : ∀ l i, P (l + 1) (i >>> g.epbs) → o.bp l i ≠ none → P l i) : WellFormed g o' := by
  have hold : ∀ l i, o'.bp l i ≠ none → ¬ P l i ∧ o.bp l i ≠ none := by
    intro l i hne
    have hnp : ¬ P l i := fun hp => hne (hf.gone l i hp).2
    exact ⟨hnp, by rwa [← hf.kept l i hnp]⟩
  constructor
  · exact h.levels
  · rw [hf.maxblkid]
    exact h.top
  · intro l i hne
    rw [hf.maxblkid]
    exact h.bounded l i (hold l i hne).2
  · intro l i hne hl
    obtain ⟨hnp, hne⟩ := hold l i hne
    rw [hf.kept _ _ fun hp => hnp (hdown l i hp hne)]
    exact h.parented l i hne hl

theorem WellFormed.above (h : WellFormed g o) {i : Nat} (hi : o.bp l i ≠ none) :
    ∀ n, l + n < g.nlevels → o.bp (l + n) (i >>> (n * g.epbs)) ≠ none
  | 0, _ => by simpa using hi
  | n + 1, hn => by
      rw [shiftRight_succ_mul]
      exact h.parented _ _ (h.above hi n (by omega)) hn

theorem WellFormed.le_last (h : WellFormed g o) (hk : k.trunc = true → k.last = o.maxblkid)
    {l i : Nat} (hi : o.bp l i ≠ none) (hm : Meets k g.epbs l i) : i ≤ k.last >>> (l * g.epbs) := by
  rcases hm.2 with h2 | ht
  · exact h2
  · rw [hk ht]
    exact (h.bounded l i hi).2

/-- The doomed blocks at or below the pointers `[start, stop)` of a level. -/
def DoomedBelow (k : Cut) (g : Geometry B) (o : Object B) (level start stop l c : Nat) : Prop :=
  l ≤ level ∧ start ≤ c >>> ((level - l) * g.epbs) ∧ c >>> ((level - l) * g.epbs) < stop ∧
    Dies k g.epbs o.bp l c

/-- What `free_children` of the block `(level, i)` is to do. -/
def FreesBelow (k : Cut) (g : Geometry B) (sub : Nat → Object B → Option (Object B × Outcome))
    (level i : Nat) (o : Object B) : Prop :=
  ∃ o' r, sub i o = some (o', r) ∧
    Freed g o o' (fun l c => l < level ∧ c >>> ((level - l) * g.epbs) = i ∧
      Dies k g.epbs o.bp l c) ∧ (r = .all ↔ Dies k g.epbs o.bp level i)

theorem doomedBelow_down {level start stop c : Nat}
    (h : DoomedBelow k g o level start stop (l + 1) (c >>> g.epbs)) (hc : o.bp l c ≠ none) :
    DoomedBelow k g o level start stop l c := by
  obtain ⟨hl, h1, h2, h3⟩ := h
  have hup : c >>> ((level - l) * g.epbs) = c >>> g.epbs >>> ((level - (l + 1)) * g.epbs) := by
    rw [← Nat.shiftRight_add, show level - l = level - (l + 1) + 1 by omega, Nat.succ_mul,
      add_comm]
  exact ⟨Nat.le_of_succ_le hl, by rw [hup]; exact h1, by rw [hup]; exact h2, h3.below hc⟩

theorem doomedBelow_succ {level start i c : Nat} (hi : start ≤ i) :
    DoomedBelow k g o level start (i + 1) l c
      ↔ DoomedBelow k g o level start i l c ∨
        l ≤ level ∧ c >>> ((level - l) * g.epbs) = i ∧ Dies k g.epbs o.bp l c := by
  constructor
  · rintro ⟨h1, h2, h3, h4⟩
    rcases Nat.lt_succ_iff_lt_or_eq.mp h3 with h3 | h3
    · exact .inl ⟨h1, h2, h3, h4⟩
    · exact .inr ⟨h1, h3, h4⟩
  · rintro (⟨h1, h2, h3, h4⟩ | ⟨h1, h3, h4⟩)
    · exact ⟨h1, h2, Nat.lt_succ_of_lt h3, h4⟩
    · exact ⟨h1, h3.symm ▸ hi, h3.symm ▸ Nat.lt_succ_self i, h4⟩

theorem shiftRight_levels {level l' c e : Nat} (h1 : l' ≤ l) (h2 : l ≤ level) :
    c >>> ((level - l') * e) = c >>> ((l - l') * e) >>> ((level - l) * e) := by
  rw [← Nat.shiftRight_add, ← add_mul, show level - l' = l - l' + (level - l) by omega]

/-- The state of the loop over the pointers of a level in front of pointer `i`. -/
def SlotsFreed (k : Cut) (g : Geometry B) (o : Object B) (level start : Nat) (all : Bool)
    (i : Nat) (s : Object B × Bool × Nat) : Prop :=
  Freed g o s.1 (DoomedBelow k g o level start i) ∧ (s.2.1 = true ↔ all = true ∧
      ∀ j, start ≤ j → j < i → o.bp level j ≠ none → Dies k g.epbs o.bp level j)

section Slot

variable {sub : Nat → Object B → Option (Object B × Outcome)} {buf : Buf}
  {level start off i : Nat} {all : Bool} {s : Object B × Bool × Nat}
  (h : SlotsFreed k g o level start all i s)

include h

theorem SlotsFreed.agree {c : Nat} (hc : c >>> ((level - l) * g.epbs) = i) :
    s.1.bp l c = o.bp l c := by
  refine h.1.kept l c ?_
  rintro ⟨-, -, hlt, -⟩
  exact absurd hc (ne_of_lt hlt)

theorem SlotsFreed.dies {c : Nat} (hl : l ≤ level) (hc : c >>> ((level - l) * g.epbs) = i) :
    Dies k g.epbs s.1.bp l c ↔ Dies k g.epbs o.bp l c := by
  refine Dies.congr fun l' c' hl' hc' => h.agree ?_
  rw [shiftRight_levels hl' hl, hc', hc]

theorem SlotsFreed.wellFormed (hwf : WellFormed g o) : WellFormed g s.1 :=
  h.1.wellFormed hwf fun _ _ => doomedBelow_down

variable (hwf : WellFormed g o) (hlevel : level < g.nlevels)

include hwf hlevel

theorem SlotsFreed.skip (hi : start ≤ i) (hhole : o.bp level i = none) :
    SlotsFreed k g o level start all (i + 1) s := by
  refine ⟨h.1.congr fun l c => ?_, h.2.trans (and_congr_right fun _ => ?_)⟩
  · rw [doomedBelow_succ hi, iff_self_or]
    rintro ⟨hl, hc, hd⟩
    have hup := hwf.above hd.ptr (level - l) (by omega)
    rw [hc, Nat.add_sub_of_le hl] at hup
    exact absurd hhole hup
  · refine ⟨fun hall j h1 h2 hne => hall j h1 ?_ hne, fun hall j h1 h2 => hall j h1 (by omega)⟩
    refine lt_of_le_of_ne (Nat.le_of_lt_succ h2) ?_
    rintro rfl
    exact hne hhole

theorem freeSlotStep_spec (hi : start ≤ i) (hin : off + (i - start) < buf.size g)
    (hp : buf.pointee g (off + (i - start)) = (level, i))
    (hsub : ∀ o1, WellFormed g o1 → o1.maxblkid = o.maxblkid → o1.bp level i ≠ none →
      FreesBelow k g sub level i o1) :
    ∃ s', freeSlotStep g sub buf level start off i s = some s' ∧
      SlotsFreed k g o level start all (i + 1) s' := by
  obtain ⟨o1, all1, n1⟩ := s
  have hwf1 : WellFormed g o1 := h.wellFormed hwf
  have hself : o1.bp level i = o.bp level i := h.agree (by simp)
  have hread : o1.read g buf (off + (i - start)) = some (o1.bp level i) := by
    rw [Object.read, if_pos hin, hp]
  cases hb : o1.bp level i with
  | none =>
    exact ⟨_, by simp only [freeSlotStep, hread, hb], h.skip hwf hlevel hi (hself ▸ hb)⟩
  | some b =>
    have hne : o1.bp level i ≠ none := hb ▸ Option.some_ne_none b
    have hhold : o1.hold g level i = some () := if_pos (hwf1.bounded level i hne).2
    obtain ⟨o2, r, hrun, hfreed, hr⟩ := hsub o1 hwf1 h.1.maxblkid hne
    rw [h.dies le_rfl (by simp)] at hr
    have hself2 : o2.bp level i = o1.bp level i :=
      hfreed.kept level i fun hc => absurd hc.1 (lt_irrefl level)
    -- with what `free_children` frees, the blocks strictly below the pointer are done
    have hbelow : Freed g o o2 fun l c => DoomedBelow k g o level start i l c ∨
        l < level ∧ c >>> ((level - l) * g.epbs) = i ∧ Dies k g.epbs o.bp l c :=
      (h.1.trans hfreed).congr fun l c => or_congr_right <| and_congr_right fun hl =>
        and_congr_right fun hc => h.dies (le_of_lt hl) hc
    have hall : ∀ a : Bool, (a = true ↔ all1 = true ∧ Dies k g.epbs o.bp level i) →
        (a = true ↔ all = true ∧ ∀ j, start ≤ j → j < i + 1 → o.bp level j ≠ none →
          Dies k g.epbs o.bp level j) := by
      intro a ha
      rw [ha, h.2, and_assoc]
      refine and_congr_right fun _ => ⟨?_, fun hj => ⟨fun j h1 h2 => hj j h1 (by omega),
        hj i hi (Nat.lt_succ_self i) (hself ▸ hne)⟩⟩
      rintro ⟨hj, hd⟩ j h1 h2 hjne
      rcases Nat.lt_succ_iff_lt_or_eq.mp h2 with h2 | rfl
      · exact hj j h1 h2 hjne
      · exact hd
    cases r with
    | all =>
      have hd : Dies k g.epbs o.bp level i := hr.mp rfl
      obtain ⟨o3, n, hfree, hfreed3⟩ :=
        freeBlocks_spec (show off + (i - start) + 1 ≤ buf.size g from hin) o2
      refine ⟨(o3, all1, n1 + n), ?_, ?_, hall all1 (by simp [hd])⟩
      · simp only [freeSlotStep, hread, hb, hhold, hrun]
        exact congrArg (Option.bind · _) hfree
      refine (hbelow.trans hfreed3).congr fun l c => ?_
      rw [doomedBelow_succ hi, or_assoc, inSlots_succ le_rfl hp]
      refine or_congr_right ⟨?_, ?_⟩
      · rintro (⟨hl, hc, hd⟩ | ⟨-, j, h1, h2, -⟩ | ⟨-, rfl, rfl⟩)
        · exact ⟨le_of_lt hl, hc, hd⟩
        · omega
        · exact ⟨le_rfl, by simp, hd⟩
      · rintro ⟨hl, hc, hd⟩
        rcases lt_or_eq_of_le hl with hl | rfl
        · exact .inl ⟨hl, hc, hd⟩
        · have hci : c = i := by simpa using hc
          exact .inr (.inr ⟨by rw [hself2]; exact hne, rfl, hci⟩)
    | blocks n =>
      have hd : ¬ Dies k g.epbs o.bp level i := fun hd => Outcome.noConfusion (hr.mpr hd)
      refine ⟨(o2, false, n1), ?_, ?_, hall false (by simp [hd])⟩
      · simp only [freeSlotStep, hread, hb, hhold, hrun]
        rfl
      refine hbelow.congr fun l c => ?_
      rw [doomedBelow_succ hi]
      refine or_congr_right ⟨fun ⟨hl, hc⟩ => ⟨le_of_lt hl, hc⟩, ?_⟩
      rintro ⟨hl, hc, hdc⟩
      refine ⟨lt_of_le_of_ne hl ?_, hc, hdc⟩
      rintro rfl
      have hci : c = i := by simpa using hc
      exact hd (hci ▸ hdc)

omit h in
/-- **THE LOOP** over the pointers `[start, stop]` to indirect blocks. -/
theorem freeSlots_spec {stop : Nat}
    (hslot : ∀ i, start ≤ i → i ≤ stop → off + (i - start) < buf.size g ∧
      buf.pointee g (off + (i - start)) = (level, i))
    (hsub : ∀ i o1, start ≤ i → i ≤ stop → WellFormed g o1 → o1.maxblkid = o.maxblkid →
      o1.bp level i ≠ none → FreesBelow k g sub level i o1) (hle : start ≤ stop) (all : Bool) :
    ∃ o' all' n, freeSlots g sub buf level start off (stop + 1 - start) all o
        = some (o', all', n) ∧
      Freed g o o' (DoomedBelow k g o level start (stop + 1)) ∧
      (all' = true ↔ all = true ∧
        ∀ j, start ≤ j → j ≤ stop → o.bp level j ≠ none → Dies k g.epbs o.bp level j) := by
  have h0 : SlotsFreed k g o level start all start (o, all, 0) := by
    refine ⟨Freed.nothing ?_, ?_⟩
    · rintro l c ⟨-, h1, h2, -⟩
      omega
    · refine (and_iff_left ?_).symm
      intro j h1 h2
      omega
  have hloop : ∃ s', freeSlots g sub buf level start off (stop + 1 - start) all o = some s' ∧
      SlotsFreed k g o level start all (start + (stop + 1 - start)) s' := by
    refine forSome_inv (SlotsFreed k g o level start all) h0 fun i s hlo hhi h => ?_
    have hi : i ≤ stop := by omega
    obtain ⟨hin, hp⟩ := hslot i hlo hi
    exact freeSlotStep_spec h hwf hlevel hlo hin hp fun o1 => hsub i o1 hlo hi
  rw [show start + (stop + 1 - start) = stop + 1 by omega] at hloop
  obtain ⟨⟨o', all', n⟩, hrun, hfreed, hall⟩ := hloop
  simp only [Nat.lt_succ_iff] at hall
  exact ⟨o', all', n, hrun, hfreed, hall⟩

end Slot

/-! ## `free_children` -/

section Children

variable {l b nblks : Nat}

theorem window_spec (hnblks : k.lo + nblks - 1 = k.last) (hlo : k.lo >>> ((l + 1) * g.epbs) ≤ b)
    (hhi : b ≤ k.last >>> ((l + 1) * g.epbs)) :
    let w := window g l b k.lo nblks k.trunc
    w.start ≤ w.stop ∧ (b <<< g.epbs) + w.off = w.start ∧ w.stop < (b + 1) <<< g.epbs ∧
      (∀ c, w.start ≤ c ∧ c ≤ w.stop ↔
        c >>> g.epbs = b ∧ k.lo >>> (l * g.epbs) ≤ c ∧ c ≤ k.last >>> (l * g.epbs)) ∧
      (w.all = true ↔ ∀ c, c >>> g.epbs = b → Meets k g.epbs l c) := by
  rw [shiftRight_succ_mul] at hlo hhi
  have hSE := shiftRight_mono k.le (l * g.epbs)
  have hwidth := shiftLeft_lt_succ b g.epbs
  simp only [window, hnblks, Meets]
  generalize k.lo >>> (l * g.epbs) = S at *
  generalize k.last >>> (l * g.epbs) = E at *
  -- the range begins before the end of the block and ends after its beginning
  have hS : S < (b + 1) <<< g.epbs := by
    by_contra hcon
    have := shiftRight_mono (not_lt.mp hcon) g.epbs
    rw [Nat.shiftLeft_shiftRight] at this
    omega
  have hE : b <<< g.epbs ≤ E := by
    by_contra hcon
    have hEb : E >>> g.epbs < b := by
      rw [Nat.shiftRight_eq_div_pow, Nat.div_lt_iff_lt_mul (Nat.two_pow_pos _)]
      omega
    omega
  simp only [shiftRight_eq_iff]
  generalize b <<< g.epbs = lo at *
  generalize (b + 1) <<< g.epbs = hi at *
  refine ⟨?_, ?_, ?_, ?_, ?_⟩
  · split_ifs <;> simp only <;> omega
  · split_ifs <;> simp only <;> omega
  · split_ifs <;> simp only <;> omega
  · intro c
    split_ifs <;> simp only <;> omega
  have hall : (∀ c, lo ≤ c ∧ c < hi → S ≤ c ∧ (c ≤ E ∨ k.trunc = true)) ↔
      S ≤ lo ∧ (hi - 1 ≤ E ∨ k.trunc = true) := by
    constructor
    · intro h
      exact ⟨(h lo ⟨le_rfl, hwidth⟩).1, (h (hi - 1) ⟨by omega, by omega⟩).2⟩
    · rintro ⟨h1, h2⟩ c ⟨hc1, hc2⟩
      exact ⟨by omega, h2.imp_left fun h2 => by omega⟩
  rw [hall]
  by_cases h1 : lo < S
  · by_cases h2 : hi - 1 ≤ E <;> simp [h1, h2]
  · by_cases h2 : hi - 1 ≤ E <;> simp [h1, h2, not_lt.mp h1]

theorem outcome_all_iff {all : Bool} {n : Nat} :
    (if all then Outcome.all else .blocks n) = .all ↔ all = true := by
  cases all <;> simp

/-- **`free_children`** kills what the range dooms below the block, and says `ALL` if the block
    itself is doomed. -/
theorem freeChildren_spec (hnblks : k.lo + nblks - 1 = k.last) (l : Nat) :
    ∀ {b : Nat} {o : Object B}, WellFormed g o → l + 1 < g.nlevels →
      (k.trunc = true → k.last = o.maxblkid) → k.lo >>> ((l + 1) * g.epbs) ≤ b →
      b ≤ k.last >>> ((l + 1) * g.epbs) → o.bp (l + 1) b ≠ none →
      FreesBelow k g (freeChildren g k.lo nblks k.trunc l) (l + 1) b o := by
  induction l with
  | zero =>
    intro b o hwf _ hk hlo hhi hb
    obtain ⟨hle, hoff, hstop, hwin, hall⟩ := window_spec hnblks hlo hhi
    generalize hw : window g 0 b k.lo nblks k.trunc = w at *
    have hsize : w.off + (w.stop - w.start + 1) ≤ (Buf.indirect 1 b).size g := by
      rw [Buf.size]
      rw [Nat.shiftLeft_eq, Nat.succ_mul] at hstop
      omega
    obtain ⟨o', n, hrun, hfreed⟩ := freeBlocks_spec hsize o
    refine ⟨o', if w.all then .all else .blocks n, ?_, hfreed.congr fun l c => ?_, ?_⟩
    · rw [freeChildren, hw]
      exact congrArg (Option.bind · _) hrun
    · constructor
      · rintro ⟨hne, j, h1, h2, hp⟩
        obtain ⟨rfl, rfl⟩ := Prod.mk.inj hp
        obtain ⟨h3, h4, h5⟩ := (hwin ((b <<< g.epbs) + j)).mp ⟨by omega, by omega⟩
        exact ⟨one_pos, by simpa using h3, hne, h4, .inl h5⟩
      · rintro ⟨hl, hc, hd⟩
        obtain rfl := Nat.lt_one_iff.mp hl
        have hcb : c >>> g.epbs = b := by simpa using hc
        obtain ⟨h1, h2⟩ := (hwin c).mpr ⟨hcb, hd.meets.1, hwf.le_last hk hd.ptr hd.meets⟩
        exact ⟨hd.ptr, c - b <<< g.epbs, by omega, by omega, by
          simp only [Buf.pointee, Prod.mk.injEq, true_and]; omega⟩
    · rw [outcome_all_iff, hall]
      refine ⟨fun h => ⟨hb, fun c hc => ⟨h c hc, fun hne => ⟨hne, h c hc⟩⟩⟩,
        fun h c hc => (h.2 c hc).1⟩
  | succ l ih =>
    intro b o hwf hl hk hlo hhi hb
    obtain ⟨hle, hoff, hstop, hwin, hall⟩ := window_spec hnblks hlo hhi
    generalize hw : window g (l + 1) b k.lo nblks k.trunc = w at *
    have hslot : ∀ i, w.start ≤ i → i ≤ w.stop →
        w.off + (i - w.start) < (Buf.indirect (l + 2) b).size g ∧
        (Buf.indirect (l + 2) b).pointee g (w.off + (i - w.start)) = (l + 1, i) := by
      intro i h1 h2
      rw [Nat.shiftLeft_eq, Nat.succ_mul] at hstop
      rw [Buf.size, Buf.pointee, Prod.mk.injEq]
      exact ⟨by omega, rfl, by omega⟩
    have hsub : ∀ i o1, w.start ≤ i → i ≤ w.stop → WellFormed g o1 →
        o1.maxblkid = o.maxblkid → o1.bp (l + 1) i ≠ none →
        FreesBelow k g (freeChildren g k.lo nblks k.trunc l) (l + 1) i o1 := by
      intro i o1 h1 h2 hwf1 hmax hne
      obtain ⟨-, h3, h4⟩ := (hwin i).mp ⟨h1, h2⟩
      exact ih hwf1 (by omega) (hmax ▸ hk) h3 h4 hne
    obtain ⟨o', all', n, hrun, hfreed, hall'⟩ := freeSlots_spec hwf (by omega) hslot hsub hle w.all
    refine ⟨o', if all' then .all else .blocks n, ?_, hfreed.congr fun l' c => ?_, ?_⟩
    · rw [freeChildren, hw]
      exact congrArg (Option.bind · _) hrun
    · constructor
      · rintro ⟨hl', h1, h2, hd⟩
        obtain ⟨h3, -⟩ := (hwin _).mp ⟨h1, Nat.le_of_lt_succ h2⟩
        refine ⟨Nat.lt_succ_of_le hl', ?_, hd⟩
        rw [Nat.succ_sub hl', shiftRight_succ_mul, h3]
      rintro ⟨hl', hc, hd⟩
      have hl' : l' ≤ l + 1 := Nat.le_of_lt_succ hl'
      rw [Nat.succ_sub hl', shiftRight_succ_mul] at hc
      have hup : ∀ a, a >>> (l' * g.epbs) >>> ((l + 1 - l') * g.epbs)
          = a >>> ((l + 1) * g.epbs) := by
        intro a
        rw [← Nat.shiftRight_add, ← add_mul, Nat.add_sub_of_le hl']
      have h1 := shiftRight_mono hd.meets.1 ((l + 1 - l') * g.epbs)
      have h2 := shiftRight_mono (hwf.le_last hk hd.ptr hd.meets) ((l + 1 - l') * g.epbs)
      rw [hup] at h1 h2
      obtain ⟨h3, h4⟩ := (hwin _).mpr ⟨hc, h1, h2⟩
      exact ⟨hl', h3, Nat.lt_succ_of_le h4, hd⟩
    · rw [outcome_all_iff, hall', hall]
      constructor
      · rintro ⟨hmeets, hdie⟩
        refine ⟨hb, fun c hc => ⟨hmeets c hc, fun hne => ?_⟩⟩
        obtain ⟨h1, h2⟩ := (hwin c).mpr ⟨hc, (hmeets c hc).1, hwf.le_last hk hne (hmeets c hc)⟩
        exact hdie c h1 h2 hne
      · rintro ⟨-, h⟩
        refine ⟨fun c hc => (h c hc).1, fun c h1 h2 => ?_⟩
        exact (h c ((hwin c).mp ⟨h1, h2⟩).1).2

end Children

end Sirius.DnodeSync
