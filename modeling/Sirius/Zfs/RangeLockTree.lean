import Sirius.Zfs.RangeLock

/-! # What sharing a range does to the tree

    `zfs_range_add_reader` edits the tree in place while it walks it.  Each edit is evaluated
    on a tree given by its nodes in order, and the edits of one call are collected in a
    derivation `Overlay`: nodes are kept, cut in two, shared once more, or laid into a gap.
    What a call does to counts, to the locks of other callers and to addresses is an induction
    over it. -/

namespace Sirius.Rlock

open Sirius.Lib List Nat

variable {A C S : List Rl} {n m : Rl} {b b' : ℕ} (away : List Rl)

/-! ## The shape of the tree -/

/-- The ranges are ordered, and the addresses are those of live, different locks. -/
structure Shape (tree : List Rl) (brk : ℕ) : Prop where
  ordered : Ordered Rl.rOff Rl.stop tree
  nodup : (tree.map Rl.addr).Nodup
  below : ∀ n ∈ tree, n.addr < brk

theorem others_of_nodup (hnd : ((A ++ n :: C).map Rl.addr).Nodup) :
    (∀ a ∈ A, Rl.isAt n.addr a = false) ∧ ∀ c ∈ C, Rl.isAt n.addr c = false := by
  rw [map_append] at hnd
  obtain ⟨-, hC, hAC⟩ := nodup_append.mp hnd
  constructor
  · intro a ha
    exact beq_eq_false_iff_ne.mpr (hAC _ (mem_map_of_mem ha) _ mem_cons_self)
  · intro c hc
    refine beq_eq_false_iff_ne.mpr ?_
    intro heq
    exact (nodup_cons.mp hC).1 (heq ▸ mem_map_of_mem hc)

namespace Shape

theorem mono (h : Shape S b) (hb : b ≤ b') : Shape S b' :=
  { h with below := fun n hn => (h.below n hn).trans_le hb }

section

variable (h : Shape (A ++ n :: C) b)

include h

theorem others : (∀ a ∈ A, Rl.isAt n.addr a = false) ∧ ∀ c ∈ C, Rl.isAt n.addr c = false :=
  others_of_nodup h.nodup

theorem remove : Shape (A ++ C) b := by
  have hsub := (sublist_cons_self n C).append_left A
  exact ⟨h.ordered.sublist hsub, h.nodup.sublist (hsub.map _),
    fun a ha => h.below a (hsub.subset ha)⟩

omit h in
theorem insert (h : Shape (A ++ C) b) (hA : ∀ a ∈ A, a.stop ≤ m.rOff) (hm : m.rOff < m.stop)
    (hC : ∀ c ∈ C, m.stop ≤ c.rOff) (hnew : ∀ a ∈ A ++ C, a.addr ≠ m.addr) (hb : m.addr < b) :
    Shape (A ++ m :: C) b := by
  have hmid : (A ++ m :: C).Perm (m :: (A ++ C)) := perm_middle
  obtain ⟨hoA, hoC, hAC⟩ := Ordered.append_iff.mp h.ordered
  refine ⟨Ordered.append_iff.mpr ⟨hoA, Ordered.cons_iff.mpr ⟨hm, hC, hoC⟩, ?_⟩, ?_, ?_⟩
  · intro a ha
    exact forall_mem_cons.mpr ⟨hA a ha, hAC a ha⟩
  · rw [(hmid.map Rl.addr).nodup_iff, map_cons, nodup_cons]
    refine ⟨?_, h.nodup⟩
    intro hmem
    obtain ⟨a, ha, heq⟩ := mem_map.mp hmem
    exact hnew a ha heq
  · intro a ha
    rcases mem_cons.mp (hmid.mem_iff.mp ha) with rfl | ha
    · exact hb
    · exact h.below a ha

theorem around : n.rOff < n.stop ∧ (∀ a ∈ A, a.stop ≤ n.rOff) ∧ ∀ c ∈ C, n.stop ≤ c.rOff := by
  obtain ⟨-, hC, hAC⟩ := Ordered.append_iff.mp h.ordered
  obtain ⟨hn, hnC, -⟩ := Ordered.cons_iff.mp hC
  exact ⟨hn, fun a ha => hAC a ha n mem_cons_self, hnC⟩

theorem from_head : ∀ c ∈ n :: C, n.rOff ≤ c.rOff :=
  forall_mem_cons.mpr ⟨le_rfl, fun c hc => (h.around.1.trans_le (h.around.2.2 c hc)).le⟩

theorem replace (hlo : n.rOff ≤ m.rOff) (hm : m.rOff < m.stop)
    (hhi : m.stop ≤ n.stop) (hb : b ≤ b') (hat : m.addr = n.addr ∨ b ≤ m.addr ∧ m.addr < b') :
    Shape (A ++ m :: C) b' := by
  obtain ⟨-, hA, hC⟩ := h.around
  refine (h.remove.mono hb).insert (fun a ha => (hA a ha).trans hlo) hm
    (fun c hc => hhi.trans (hC c hc)) ?_ ?_
  · intro a ha
    rcases hat with heq | ⟨hge, -⟩
    · obtain ⟨hoA, hoC⟩ := h.others
      rw [heq]
      rcases mem_append.mp ha with ha | ha
      · exact beq_eq_false_iff_ne.mp (hoA a ha)
      · exact beq_eq_false_iff_ne.mp (hoC a ha)
    · exact ((h.remove.below a ha).trans_le hge).ne
  · rcases hat with heq | ⟨-, hlt⟩
    · rw [heq]
      exact (h.below n (mem_append_right _ mem_cons_self)).trans_le hb
    · exact hlt

end

end Shape

theorem avlAdd_append (hA : ∀ a ∈ A, a.rOff < m.rOff) (hC : ∀ c ∈ C, m.rOff < c.rOff) :
    avlAdd (A ++ C) m = .ok (A ++ m :: C) := by
  have hfind : avlFind (A ++ C) m.rOff = none := by
    rw [avlFind, find?_key_append hA]
    refine find?_eq_none.mpr ?_
    intro c hc
    simpa using (hC c hc).ne'
  have hplace : avlWhere (A ++ C) m.rOff = A.length := place_append hA fun c hc => (hC c hc).le
  rw [avlAdd, hfind, hplace, insertAt_append]
  rfl

theorem Shape.avlAdd (h : Shape (A ++ C) b) (hA : ∀ a ∈ A, a.stop ≤ m.rOff) (hm : m.rOff < m.stop)
    (hC : ∀ c ∈ C, m.stop ≤ c.rOff) : avlAdd (A ++ C) m = .ok (A ++ m :: C) :=
  avlAdd_append (fun a ha => (h.ordered.nonempty a (mem_append_left _ ha)).trans_le (hA a ha))
    fun c hc => hm.trans_le (hC c hc)

theorem Shape.avlRemove (h : Shape (A ++ n :: C) b) (heq : m.addr = n.addr) :
    avlRemove (A ++ n :: C) m = .ok (A ++ C) := by
  obtain ⟨hA, hC⟩ := h.others
  have hn : Rl.isAt n.addr n = true := beq_self_eq_true _
  have hany : (A ++ n :: C).any (Rl.isAt n.addr) = true :=
    any_eq_true.mpr ⟨n, mem_append_right _ mem_cons_self, hn⟩
  rw [Rlock.avlRemove, heq, if_pos hany, filter_not_append hA hn hC]

theorem Shape.avlNext (h : Shape (A ++ n :: C) b) (heq : m.addr = n.addr) :
    avlNext (A ++ n :: C) m = C.head? := by
  rw [Rlock.avlNext, heq, after_append h.others.1 (beq_self_eq_true _)]

theorem Shape.write (h : Shape (A ++ n :: C) b) (m : Rl) (heq : m.addr = n.addr) (brk : ℕ) :
    Locks.write ⟨A ++ n :: C, away, brk⟩ m = ⟨A ++ m :: C, away, brk⟩ := by
  obtain ⟨hA, hC⟩ := h.others
  rw [Locks.write, heq]
  exact congrArg (fun tree => Locks.mk tree away brk) (store_append hA (beq_self_eq_true _) hC)

def Rl.asProxy (n : Rl) (b : ℕ) : Rl := if n.rProxy then n else Rl.proxy b n.rOff n.rLen 1

def displaced (n : Rl) : List Rl := if n.rProxy then [] else [{ n with rCnt := 0 }]

def used (n : Rl) : ℕ := if n.rProxy then 0 else 1

structure Sharable (n : Rl) : Prop where
  reader : n.rType = .reader
  noWriter : n.rWriteWanted = false
  noReader : n.rReadWanted = false
  pos : 0 < n.rCnt
  own : n.rProxy = false → n.rCnt = 1
  room : n.rCnt + 1 < 2 ^ 32

theorem asProxy_rOff (n : Rl) (b : ℕ) : (n.asProxy b).rOff = n.rOff := by
  rw [Rl.asProxy]
  split_ifs <;> rfl

theorem asProxy_stop (n : Rl) (b : ℕ) : (n.asProxy b).stop = n.stop := by
  rw [Rl.asProxy]
  split_ifs <;> rfl

theorem asProxy_rProxy (n : Rl) (b : ℕ) : (n.asProxy b).rProxy = true := by
  rw [Rl.asProxy]
  split_ifs with h
  · exact h
  · rfl

theorem asProxy_addr (n : Rl) (b : ℕ) :
    (n.asProxy b).addr = n.addr ∨ b ≤ (n.asProxy b).addr ∧ (n.asProxy b).addr < b + used n := by
  rw [Rl.asProxy, used]
  split_ifs with h
  · exact .inl rfl
  · exact .inr ⟨le_rfl, lt_succ_self b⟩

theorem Sharable.asProxy (h : Sharable n) (b : ℕ) : Sharable (n.asProxy b) := by
  rw [Rl.asProxy]
  split_ifs with hp
  · exact h
  · exact ⟨rfl, rfl, rfl, one_pos, nofun, show 2 < 2 ^ 32 by decide⟩

theorem Sharable.asProxy_rCnt (h : Sharable n) (b : ℕ) : (n.asProxy b).rCnt = n.rCnt := by
  rw [Rl.asProxy]
  split_ifs with hp
  · rfl
  · exact (h.own (Bool.eq_false_of_not_eq_true hp)).symm

theorem Shape.asProxy (h : Shape (A ++ n :: C) b) : Shape (A ++ n.asProxy b :: C) (b + used n) := by
  refine h.replace (asProxy_rOff n b).ge ?_ (asProxy_stop n b).le (le_add_right _ _)
    (asProxy_addr n b)
  rw [asProxy_rOff, asProxy_stop]
  exact h.around.1

theorem zfsRangeProxify_spec (h : Shape (A ++ n :: C) b) (hn : Sharable n) :
    zfsRangeProxify ⟨A ++ n :: C, away, b⟩ n
      = .ok (⟨A ++ n.asProxy b :: C, displaced n ++ away, b + used n⟩, n.asProxy b) := by
  cases hp : n.rProxy with
  | true =>
    rw [zfsRangeProxify, if_pos hp, Rl.asProxy, if_pos hp, displaced, if_pos hp, used, if_pos hp]
    rfl
  | false =>
    have hp' : ¬ n.rProxy = true := Bool.eq_false_iff.mp hp
    have hguard : ¬ (n.rCnt ≠ 1 ∨ n.rWriteWanted = true ∨ n.rReadWanted = true) := by
      rw [hn.noWriter, hn.noReader, hn.own hp]
      simp
    obtain ⟨hlt, hA, hC⟩ := h.around
    have hadd := h.remove.avlAdd (m := Rl.proxy b n.rOff n.rLen 1) hA hlt hC
    rw [zfsRangeProxify, if_neg hp', if_neg hguard, Rl.asProxy, if_neg hp', displaced, if_neg hp',
      used, if_neg hp']
    simp only [h.avlRemove rfl, hadd, bind, Except.bind]
    rfl

/-- The two halves of a lock that is cut at `off`. -/
def front (n : Rl) (b off : ℕ) : Rl := { n.asProxy (b + 1) with rLen := off - n.rOff }

def rear (n : Rl) (b off : ℕ) : Rl := Rl.proxy b off (n.stop - off) n.rCnt

theorem front_rOff (n : Rl) (b off : ℕ) : (front n b off).rOff = n.rOff := asProxy_rOff n _

variable {off : ℕ}

theorem front_stop (hlo : n.rOff < off) : (front n b off).stop = off := by
  show (n.asProxy (b + 1)).rOff + (off - n.rOff) = off
  rw [asProxy_rOff, Nat.add_sub_cancel' hlo.le]

theorem rear_stop (hhi : off < n.stop) : (rear n b off).stop = n.stop := Nat.add_sub_cancel' hhi.le

theorem Sharable.front (h : Sharable n) (off : ℕ) : Sharable (front n b off) := by
  obtain ⟨h1, h2, h3, h4, h5, h6⟩ := h.asProxy (b + 1)
  exact ⟨h1, h2, h3, h4, h5, h6⟩

theorem Shape.cut (h : Shape (A ++ n :: C) b) (hlo : n.rOff < off) (hhi : off < n.stop) :
    Shape ((A ++ [front n b off]) ++ rear n b off :: C) (b + 1 + used n) := by
  obtain ⟨hlt, hA, hC⟩ := h.around
  have hfront : Shape (A ++ front n b off :: C) (b + 1 + used n) := by
    refine h.replace (front_rOff n b off).ge ?_ ?_ (by omega) ?_
    · rw [front_rOff, front_stop hlo]
      exact hlo
    · rw [front_stop hlo]
      exact hhi.le
    · rcases asProxy_addr n (b + 1) with heq | ⟨hge, hlt⟩
      · exact .inl heq
      · exact .inr ⟨(le_succ b).trans hge, hlt⟩
  rw [append_cons] at hfront
  refine hfront.insert ?_ ?_ ?_ ?_ ?_
  · intro a ha
    rcases mem_append.mp ha with ha | ha
    · exact (hA a ha).trans hlo.le
    · obtain rfl := mem_singleton.mp ha
      exact (front_stop hlo).le
  · rw [rear_stop hhi]
    exact hhi
  · rw [rear_stop hhi]
    exact hC
  · -- the front has the address of the lock, or the one after the rear
    intro a ha
    rw [← append_cons] at ha
    have hold : ∀ c ∈ A ++ n :: C, c.addr ≠ b := fun c hc => (h.below c hc).ne
    rcases mem_append.mp ha with ha | ha
    · exact hold a (mem_append_left _ ha)
    rcases mem_cons.mp ha with rfl | ha
    · rcases asProxy_addr n (b + 1) with heq | ⟨hge, -⟩
      · exact fun hb => hold n (mem_append_right _ mem_cons_self) (heq.symm.trans hb)
      · exact (lt_of_succ_le hge).ne'
    · exact hold a (mem_append_right _ (mem_cons_of_mem _ ha))
  · show b < b + 1 + used n
    omega

/-- **SPLIT**: the lock gives way to two proxies that meet at `off`. -/
theorem zfsRangeSplit_spec (h : Shape (A ++ n :: C) b) (hn : Sharable n) (hlo : n.rOff < off)
    (hhi : off < n.stop) :
    zfsRangeSplit ⟨A ++ n :: C, away, b⟩ n off
      = .ok (⟨(A ++ [front n b off]) ++ rear n b off :: C, displaced n ++ away, b + 1 + used n⟩,
          front n b off) := by
  have hguard : ¬ ¬ (1 < n.rLen ∧ n.rOff < off ∧ off < n.stop ∧ n.rWriteWanted = false
      ∧ n.rReadWanted = false) := by
    refine not_not.mpr ⟨?_, hlo, hhi, hn.noWriter, hn.noReader⟩
    rw [Rl.stop] at hhi
    omega
  have hmono : Shape (A ++ n :: C) (b + 1) := h.mono (le_succ b)
  have hproxy := hmono.asProxy
  have hwrite : Locks.write ⟨A ++ n.asProxy (b + 1) :: C, displaced n ++ away, b + 1 + used n⟩
      (front n b off) = ⟨A ++ front n b off :: C, displaced n ++ away, b + 1 + used n⟩ :=
    hproxy.write _ (front n b off) rfl _
  have hinsert : insertAfter (Rl.isAt (n.asProxy (b + 1)).addr) (rear n b off)
      (A ++ front n b off :: C)
      = A ++ front n b off :: rear n b off :: C :=
    insertAfter_append hproxy.others.1 (beq_self_eq_true _)
  rw [zfsRangeSplit, if_neg hguard]
  simp only [zfsRangeProxify_spec away hmono hn, bind, Except.bind]
  rw [show ({ n.asProxy (b + 1) with rLen := off - n.rOff } : Rl) = front n b off from rfl, hwrite]
  rw [show Rl.proxy b off (n.stop - off) n.rCnt = rear n b off from rfl, hinsert, append_assoc]
  rfl

theorem proxy_stop {s e : ℕ} (hse : s < e) (b cnt : ℕ) : (Rl.proxy b s (e - s) cnt).stop = e :=
  Nat.add_sub_cancel' hse.le

theorem zfsRangeNewProxy_spec {s e : ℕ} (h : Shape (A ++ C) b) (hse : s < e)
    (hA : ∀ a ∈ A, a.stop ≤ s) (hC : ∀ c ∈ C, e ≤ c.rOff) :
    zfsRangeNewProxy ⟨A ++ C, away, b⟩ s (e - s)
        = .ok ⟨A ++ Rl.proxy b s (e - s) 1 :: C, away, b + 1⟩
      ∧ Shape (A ++ Rl.proxy b s (e - s) 1 :: C) (b + 1) := by
  have hlt : (Rl.proxy b s (e - s) 1).rOff < (Rl.proxy b s (e - s) 1).stop := by
    rw [proxy_stop hse]
    exact hse
  have hC' : ∀ c ∈ C, (Rl.proxy b s (e - s) 1).stop ≤ c.rOff := by
    rw [proxy_stop hse]
    exact hC
  have hadd := h.avlAdd hA hlt hC'
  constructor
  · rw [zfsRangeNewProxy, if_neg (sub_ne_zero_of_lt hse)]
    simp only [hadd]
    rfl
  · exact (h.mono (le_succ b)).insert hA hlt hC' (fun a ha => (h.below a ha).ne) (lt_succ_self b)

theorem bump_range (n : Rl) (b : ℕ) :
    (n.asProxy b).bump.rOff = n.rOff ∧ (n.asProxy b).bump.stop = n.stop :=
  ⟨asProxy_rOff n b, asProxy_stop n b⟩

theorem Sharable.bump_rCnt (h : Sharable n) : n.bump.rCnt = n.rCnt + 1 := mod_eq_of_lt h.room

/-- **OVERLAY**: the nodes `S` become `S'` while a reader is laid over `[s, e)`; the
    locks `D` leave the tree, and addresses from `b` to `b'` are used. -/
inductive Overlay : ℕ → ℕ → ℕ → ℕ → List Rl → List Rl → List Rl → Prop
  | keep (b s : ℕ) (S : List Rl) : Overlay b b s s S S []
  | gap (b : ℕ) {s e : ℕ} (hse : s < e) (hfit : e < 2 ^ 64) :
      Overlay b (b + 1) s e [] [Rl.proxy b s (e - s) 1] []
  | share (b : ℕ) {n : Rl} (hn : Sharable n) :
      Overlay b (b + used n) n.rOff n.stop [n] [(n.asProxy b).bump] (displaced n)
  | cut (b s : ℕ) {n : Rl} {off : ℕ} (hn : Sharable n) (hlo : n.rOff < off) (hhi : off < n.stop) :
      Overlay b (b + 1 + used n) s s [n] [front n b off, rear n b off] (displaced n)
  | append {b b1 b2 s m e : ℕ} {S S' T T' D D' : List Rl} (h : Overlay b b1 s m S S' D)
      (h' : Overlay b1 b2 m e T T' D') : Overlay b b2 s e (S ++ T) (S' ++ T') (D' ++ D)
  | trans {b b1 b2 s e : ℕ} {S S' S'' D D' : List Rl} (h : Overlay b b1 s s S S' D)
      (h' : Overlay b1 b2 s e S' S'' D') : Overlay b b2 s e S S'' (D' ++ D)

theorem Overlay.shareProxy (b : ℕ) (hp : n.rProxy = true) (hn : Sharable n) :
    Overlay b b n.rOff n.stop [n] [n.bump] [] := by
  have h := Overlay.share b hn
  rwa [used, if_pos hp, Rl.asProxy, if_pos hp, displaced, if_pos hp] at h

structure NodeOk (n : Rl) : Prop where
  len : 0 < n.rLen
  fits : n.stop < 2 ^ 64
  cnt : 0 < n.rCnt
  type : n.rType ≠ .append
  reader : n.rProxy = true → n.rType = .reader
  own : n.rProxy = false → n.rCnt = 1
  waits : n.rReadWanted = true → n.blocks = true

structure AwayOk (h : Rl) : Prop where
  len : 0 < h.rLen
  fits : h.stop < 2 ^ 64
  cnt : h.rCnt = 0
  reader : h.rType = .reader
  own : h.rProxy = false
  noWriter : h.rWriteWanted = false
  noReader : h.rReadWanted = false

/-- A proxy over `x` inside `[s, e)`. -/
def Inside (s e x : ℕ) (p : Rl) : Prop :=
  p.rProxy = true ∧ s ≤ p.rOff ∧ p.rOff ≤ x ∧ x < p.stop ∧ p.stop ≤ e

def owned (S : List Rl) : List Rl := S.filter fun n => !n.rProxy

def refs (S : List Rl) (x : ℕ) : ℕ := load Rl.rOff Rl.stop Rl.rCnt S x

def ind (s e x : ℕ) : ℕ := if s ≤ x ∧ x < e then 1 else 0

theorem ind_self (s x : ℕ) : ind s s x = 0 := if_neg fun hx => absurd hx.2 (not_lt.mpr hx.1)

theorem NodeOk.of_reader (hlen : 0 < n.rLen) (hfits : n.stop < 2 ^ 64) (hcnt : 0 < n.rCnt)
    (htype : n.rType = .reader) (hown : n.rProxy = false → n.rCnt = 1)
    (hwant : n.rReadWanted = false) : NodeOk n :=
  ⟨hlen, hfits, hcnt, by simp [htype], fun _ => htype, hown, by simp [hwant]⟩

theorem NodeOk.share (hok : NodeOk n) (hn : Sharable n) (b : ℕ) : NodeOk (n.asProxy b).bump := by
  have hp := hn.asProxy b
  have hproxy : (n.asProxy b).bump.rProxy = true := asProxy_rProxy n b
  refine .of_reader ?_ ?_ ?_ hp.reader (by simp [hproxy]) hp.noReader
  · have hlt : (n.asProxy b).rOff < (n.asProxy b).stop := by
      rw [asProxy_rOff, asProxy_stop]
      exact Nat.lt_add_of_pos_right hok.len
    exact pos_of_lt_add_right hlt
  · exact (asProxy_stop n b).trans_lt hok.fits
  · rw [hp.bump_rCnt]
    exact succ_pos _

theorem NodeOk.front (hok : NodeOk n) (hn : Sharable n) (hlo : n.rOff < off) (hhi : off < n.stop)
    (b : ℕ) : NodeOk (front n b off) := by
  have hp : Sharable (Rlock.front n b off) := hn.front off
  refine .of_reader (Nat.sub_pos_of_lt hlo) ?_ hp.pos hp.reader hp.own hp.noReader
  rw [front_stop hlo]
  exact hhi.trans hok.fits

variable {x : ℕ} {p : Rl}

theorem Inside.mono {s e s' e' : ℕ} (h : Inside s e x p) (hs : s' ≤ s) (he : e ≤ e') :
    Inside s' e' x p := by
  obtain ⟨h1, h2, h3, h4, h5⟩ := h
  exact ⟨h1, hs.trans h2, h3, h4, h5.trans he⟩

theorem inside_share (hx : n.rOff ≤ x ∧ x < n.stop) (b : ℕ) :
    Inside n.rOff n.stop x (n.asProxy b).bump := by
  obtain ⟨hoff, hstop⟩ := bump_range n b
  refine ⟨asProxy_rProxy n b, hoff.ge, ?_, ?_, hstop.le⟩
  · rw [hoff]
    exact hx.1
  · rw [hstop]
    exact hx.2

theorem inside_cut (hlo : n.rOff < off) (hhi : off < n.stop) (hx : n.rOff ≤ x ∧ x < n.stop)
    (b : ℕ) : ∃ q ∈ [front n b off, rear n b off], Inside n.rOff n.stop x q := by
  by_cases hcut : x < off
  · refine ⟨_, mem_cons_self, asProxy_rProxy n (b + 1), (front_rOff n b off).ge, ?_, ?_, ?_⟩
    · rw [front_rOff]
      exact hx.1
    · rw [front_stop hlo]
      exact hcut
    · rw [front_stop hlo]
      exact hhi.le
  · refine ⟨_, mem_cons_of_mem _ (mem_singleton_self _), rfl, hlo.le, not_lt.mp hcut, ?_, ?_⟩
    · rw [rear_stop hhi]
      exact hx.2
    · exact (rear_stop hhi).le

variable {d : Rl}

theorem mem_displaced : d ∈ displaced n ↔ n.rProxy = false ∧ d = { n with rCnt := 0 } := by
  rw [displaced]
  cases n.rProxy <;> simp

theorem range_of_share (hp : p ∈ displaced n ∨ p ∈ [n] ∧ p.rProxy = true) :
    p.rOff = n.rOff ∧ p.stop = n.stop := by
  rcases hp with hd | ⟨hp, -⟩
  · obtain ⟨-, rfl⟩ := mem_displaced.mp hd
    exact ⟨rfl, rfl⟩
  · obtain rfl := mem_singleton.mp hp
    exact ⟨rfl, rfl⟩

theorem NodeOk.displaced (hok : NodeOk n) (hn : Sharable n) (hd : d ∈ displaced n) : AwayOk d := by
  obtain ⟨hp, rfl⟩ := mem_displaced.mp hd
  exact { hn with len := hok.len, fits := hok.fits, cnt := rfl, own := hp }

theorem owned_append (S T : List Rl) : owned (S ++ T) = owned S ++ owned T := filter_append _ _

theorem owned_proxies (hS : ∀ p ∈ S, p.rProxy = true) : owned S = [] := by
  refine filter_eq_nil_iff.mpr ?_
  intro p hp
  simp [hS p hp]

theorem displaced_grants (n : Rl) : (displaced n).map Rl.grant = (owned [n]).map Rl.grant := by
  rw [displaced, owned]
  cases hp : n.rProxy with
  | true => simp [hp]
  | false => simp [hp, Rl.grant, Rl.stop]

/-- The addresses `Y` become `X`, which has different new ones from `b` to `b'` as well. -/
def Fresh (b b' : ℕ) (X Y : List ℕ) : Prop :=
  ∃ fresh : List ℕ, fresh.Nodup ∧ (∀ a ∈ fresh, b ≤ a ∧ a < b') ∧ X.Perm (Y ++ fresh)

theorem Fresh.join {b1 : ℕ} {X Y X₁ Y₁ X₂ Y₂ : List ℕ} (h : Fresh b b1 X₁ Y₁) (hb : b ≤ b1)
    (h' : Fresh b1 b' X₂ Y₂) (hb' : b1 ≤ b')
    (hcount : ∀ a, X.count a + (Y₁.count a + Y₂.count a) = Y.count a + (X₁.count a + X₂.count a)) :
    Fresh b b' X Y := by
  obtain ⟨f, hf, hfb, hperm⟩ := h
  obtain ⟨f', hf', hfb', hperm'⟩ := h'
  refine ⟨f ++ f', nodup_append.mpr ⟨hf, hf', fun a ha c hc => ?_⟩,
    forall_mem_append.mpr ⟨fun a ha => ?_, fun a ha => ?_⟩, perm_iff_count.mpr fun a => ?_⟩
  · exact ((hfb a ha).2.trans_le (hfb' c hc).1).ne
  · exact ⟨(hfb a ha).1, (hfb a ha).2.trans_le hb'⟩
  · exact ⟨hb.trans (hfb' a ha).1, (hfb' a ha).2⟩
  have h₁ := hperm.count_eq a
  have h₂ := hperm'.count_eq a
  have := hcount a
  rw [count_append] at h₁ h₂ ⊢
  rw [count_append]
  omega

namespace Overlay

variable {s e x : ℕ} {S' D : List Rl}

section

variable (h : Overlay b b' s e S S' D)

include h

theorem le : s ≤ e ∧ b ≤ b' := by
  induction h with
  | keep b s S => exact ⟨le_rfl, le_rfl⟩
  | gap b hse hfit => exact ⟨hse.le, le_succ b⟩
  | share b hn => exact ⟨le_add_right _ _, le_add_right _ _⟩
  | cut b s hn hlo hhi => exact ⟨le_rfl, (le_add_right b 1).trans (le_add_right _ _)⟩
  | append h h' ih ih' => exact ⟨ih.1.trans ih'.1, ih.2.trans ih'.2⟩
  | trans h h' ih ih' => exact ⟨ih'.1, ih.2.trans ih'.2⟩

theorem refs_eq (x : ℕ) : refs S' x = refs S x + ind s e x := by
  induction h with
  | keep b s S => rw [ind_self, add_zero]
  | gap b hse hfit =>
    rw [refs, load_cons, proxy_stop hse, refs, load_nil, zero_add]
    rfl
  | share b hn =>
    rename_i n
    obtain ⟨hoff, hstop⟩ := bump_range n b
    rw [refs, load_cons, hstop, hoff, (hn.asProxy b).bump_rCnt, hn.asProxy_rCnt, refs, load_cons,
      ind]
    split_ifs <;> rfl
  | cut b s hn hlo hhi =>
    rename_i n off
    have hcnt : (front n b off).rCnt = n.rCnt := hn.asProxy_rCnt (b + 1)
    rw [ind_self, refs, load_cons, load_cons, front_rOff, front_stop hlo, rear_stop hhi, hcnt, refs,
      load_cons]
    exact ite_range_cut hlo.le hhi.le
  | append h h' ih ih' =>
    rename_i b b1 b2 s m e S S' T T' D D'
    have hind : ind s m x + ind m e x = ind s e x := ite_range_cut h.le.1 h'.le.1
    have hS : refs (S' ++ T') x = refs S' x + refs T' x := load_append
    have hT : refs (S ++ T) x = refs S x + refs T x := load_append
    rw [hS, hT, ih, ih', ← hind]
    exact add_add_add_comm _ _ _ _
  | trans h h' ih ih' => rw [ih', ih, ind_self, add_zero]

theorem nodeOk (hok : ∀ n ∈ S, NodeOk n) : ∀ n ∈ S', NodeOk n := by
  induction h with
  | keep b s S => exact hok
  | gap b hse hfit =>
    intro n hn
    obtain rfl := mem_singleton.mp hn
    refine .of_reader (Nat.sub_pos_of_lt hse) ?_ Nat.one_pos rfl nofun rfl
    rw [proxy_stop hse]
    exact hfit
  | share b hn =>
    rename_i n
    intro p hp
    obtain rfl := mem_singleton.mp hp
    exact (hok n (mem_singleton_self n)).share hn b
  | cut b s hn hlo hhi =>
    rename_i n off
    have hn' := hok n (mem_singleton_self n)
    refine forall_mem_cons.mpr ⟨hn'.front hn hlo hhi b, forall_mem_singleton.mpr ?_⟩
    refine .of_reader (Nat.sub_pos_of_lt hhi) ?_ hn.pos rfl nofun rfl
    rw [rear_stop hhi]
    exact hn'.fits
  | append h h' ih ih' =>
    obtain ⟨hS, hT⟩ := forall_mem_append.mp hok
    exact forall_mem_append.mpr ⟨ih hS, ih' hT⟩
  | trans h h' ih ih' => exact ih' (ih hok)

/-- A proxy and a displaced range stay covered by proxies inside them. -/
theorem refined (hp : p ∈ D ∨ p ∈ S ∧ p.rProxy = true) (hx : p.rOff ≤ x ∧ x < p.stop) :
    ∃ q ∈ S', Inside p.rOff p.stop x q := by
  induction h generalizing p with
  | keep b s S =>
    obtain ⟨hp, hproxy⟩ := hp.resolve_left not_mem_nil
    exact ⟨p, hp, hproxy, le_rfl, hx.1, hx.2, le_rfl⟩
  | gap b hse hfit => exact absurd (hp.resolve_left not_mem_nil).1 not_mem_nil
  | share b hn =>
    obtain ⟨hoff, hstop⟩ := range_of_share hp
    rw [hoff, hstop] at hx ⊢
    exact ⟨_, mem_singleton_self _, inside_share hx b⟩
  | cut b s hn hlo hhi =>
    obtain ⟨hoff, hstop⟩ := range_of_share hp
    rw [hoff, hstop] at hx ⊢
    exact inside_cut hlo hhi hx b
  | append h h' ih ih' =>
    rw [mem_append, mem_append, or_and_right, or_comm (a := _ ∈ _), or_or_or_comm] at hp
    rcases hp with hp | hp
    · obtain ⟨q, hq, hin⟩ := ih hp hx
      exact ⟨q, mem_append_left _ hq, hin⟩
    · obtain ⟨q, hq, hin⟩ := ih' hp hx
      exact ⟨q, mem_append_right _ hq, hin⟩
  | trans h h' ih ih' =>
    rw [mem_append, or_assoc] at hp
    rcases hp with hd | hp
    · exact ih' (.inl hd) hx
    · obtain ⟨q, hq, hq1, hq2, hq3, hq4, hq5⟩ := ih hp hx
      obtain ⟨r, hr, hin⟩ := ih' (.inr ⟨hq, hq1⟩) ⟨hq3, hq4⟩
      exact ⟨r, hr, hin.mono hq2 hq5⟩

theorem covered (hx : s ≤ x ∧ x < e) : ∃ q ∈ S', Inside s e x q := by
  induction h with
  | keep b s S | cut b s hn hlo hhi => exact absurd hx.2 (not_lt.mpr hx.1)
  | gap b hse hfit =>
    refine ⟨_, mem_singleton_self _, rfl, le_rfl, hx.1, ?_, (proxy_stop hse b 1).le⟩
    rw [proxy_stop hse]
    exact hx.2
  | share b hn => exact ⟨_, mem_singleton_self _, inside_share hx b⟩
  | append h h' ih ih' =>
    rename_i b b1 b2 s m e S S' T T' D D'
    by_cases hm : x < m
    · obtain ⟨q, hq, hin⟩ := ih ⟨hx.1, hm⟩
      exact ⟨q, mem_append_left _ hq, hin.mono le_rfl h'.le.1⟩
    · obtain ⟨q, hq, hin⟩ := ih' ⟨not_lt.mp hm, hx.2⟩
      exact ⟨q, mem_append_right _ hq, hin.mono h.le.1 le_rfl⟩
  | trans h h' ih ih' => exact ih' hx

theorem awayOk (hok : ∀ n ∈ S, NodeOk n) : ∀ d ∈ D, AwayOk d := by
  induction h with
  | keep b s S | gap b hse hfit => exact nofun
  | share b hn | cut b s hn hlo hhi =>
    exact fun d hd => (hok _ (mem_singleton_self _)).displaced hn hd
  | append h h' ih ih' =>
    obtain ⟨hS, hT⟩ := forall_mem_append.mp hok
    exact forall_mem_append.mpr ⟨ih' hT, ih hS⟩
  | trans h h' ih ih' => exact forall_mem_append.mpr ⟨ih' (h.nodeOk hok), ih hok⟩

theorem grants : ((owned S' ++ D).map Rl.grant).Perm ((owned S).map Rl.grant) := by
  induction h with
  | keep b s S => rw [append_nil]
  | gap b hse hfit => exact List.Perm.refl _
  | share b hn =>
    rename_i n
    have hnil : owned [(n.asProxy b).bump] = [] :=
      owned_proxies (forall_mem_singleton.mpr (asProxy_rProxy n b))
    rw [hnil, nil_append, displaced_grants]
  | cut b s hn hlo hhi =>
    rename_i n off
    have hnil : owned [front n b off, rear n b off] = [] := owned_proxies
      (forall_mem_cons.mpr ⟨asProxy_rProxy n (b + 1), forall_mem_singleton.mpr rfl⟩)
    rw [hnil, nil_append, displaced_grants]
  | append h h' ih ih' =>
    rename_i b b1 b2 s m e S S' T T' D D'
    refine perm_iff_count.mpr fun a => ?_
    have hS := ih.count_eq a
    have hT := ih'.count_eq a
    simp only [owned_append, map_append, count_append] at hS hT ⊢
    omega
  | trans h h' ih ih' =>
    rename_i b b1 b2 s e S S' S'' D D'
    rw [← append_assoc, map_append]
    refine (ih'.append_right _).trans ?_
    rw [← map_append]
    exact ih

theorem addrs : Fresh b b' ((S' ++ D).map Rl.addr) (S.map Rl.addr) := by
  induction h with
  | keep b s S => exact ⟨[], nodup_nil, nofun, by rw [append_nil, append_nil]⟩
  | gap b hse hfit =>
    refine ⟨[b], by simp, ?_, List.Perm.refl _⟩
    exact forall_mem_singleton.mpr ⟨le_rfl, lt_succ_self b⟩
  | share b hn =>
    rename_i n
    cases hp : n.rProxy with
    | true =>
      refine ⟨[], nodup_nil, nofun, ?_⟩
      simp [Rl.asProxy, Rl.bump, displaced, hp]
    | false =>
      refine ⟨[b], by simp, ?_, ?_⟩
      · rw [used, hp]
        exact forall_mem_singleton.mpr ⟨le_rfl, lt_succ_self b⟩
      · simp only [Rl.asProxy, displaced, hp]
        exact List.Perm.swap _ _ _
  | cut b s hn hlo hhi =>
    rename_i n off
    cases hp : n.rProxy with
    | true =>
      refine ⟨[b], by simp, ?_, ?_⟩
      · rw [used, hp]
        exact forall_mem_singleton.mpr ⟨le_rfl, lt_succ_self b⟩
      · simp [front, rear, Rl.asProxy, Rl.proxy, displaced, hp]
    | false =>
      refine ⟨[b, b + 1], by simp, ?_, ?_⟩
      · have hused : used n = 1 := by simp [used, hp]
        rw [hused]
        exact forall_mem_cons.mpr ⟨⟨le_rfl, by omega⟩,
          forall_mem_singleton.mpr ⟨le_succ b, lt_succ_self _⟩⟩
      · refine perm_iff_count.mpr fun a => ?_
        simp [front, rear, Rl.asProxy, Rl.proxy, displaced, hp, count_cons]
        omega
  | append h h' ih ih' | trans h h' ih ih' =>
    refine ih.join h.le.2 ih' h'.le.2 fun a => ?_
    simp only [map_append, count_append]
    omega

end

end Overlay

/-! ## The walk of `zfs_range_add_reader` -/

/-- Where the walk stands: behind a lock that ends at `s`, or at a first lock that starts there. -/
def WalkAt (prev : Option Rl) (S : List Rl) (s : ℕ) : Prop :=
  (∃ p, prev = some p ∧ p.stop = s) ∨ prev = none ∧ ∃ n ns, S = n :: ns ∧ n.rOff = s

section Walk

variable {s stop : ℕ} {prev : Option Rl} {ns : List Rl}

theorem fillEnd_spec (h : Shape (A ++ S) b) (hfit : stop < 2 ^ 64) (hs : s < stop)
    (hat : WalkAt prev S s) (hA : ∀ a ∈ A, a.stop ≤ s) (hS : ∀ c ∈ S, stop ≤ c.rOff) :
    ∃ S' D b', fillEnd ⟨A ++ S, away, b⟩ prev stop = .ok ⟨A ++ S', D ++ away, b'⟩
      ∧ Overlay b b' s stop S S' D ∧ Shape (A ++ S') b' := by
  rcases hat with ⟨p, rfl, hp⟩ | ⟨-, n, ns, rfl, hn⟩
  · obtain ⟨hnew, hshape⟩ := zfsRangeNewProxy_spec away h hs hA hS
    refine ⟨Rl.proxy b s (stop - s) 1 :: S, [], b + 1, ?_, ?_, hshape⟩
    · rw [fillEnd, hp]
      exact hnew
    · exact (Overlay.gap b hs hfit).append (.keep (b + 1) stop S)
  · exact absurd (hS n mem_cons_self) (not_le.mpr (hn ▸ hs))

theorem fillGap_spec (h : Shape (A ++ n :: ns) b) (hfit : n.rOff < 2 ^ 64)
    (hat : WalkAt prev (n :: ns) s) (hA : ∀ a ∈ A, a.stop ≤ s) (hsn : s ≤ n.rOff) :
    ∃ G b', fillGap ⟨A ++ n :: ns, away, b⟩ prev n = .ok ⟨(A ++ G) ++ n :: ns, away, b'⟩
      ∧ Overlay b b' s n.rOff [] G [] ∧ Shape ((A ++ G) ++ n :: ns) b' := by
  have hkeep : s = n.rOff → ∃ G b', (.ok ⟨A ++ n :: ns, away, b⟩ : Except RlPanic Locks)
      = .ok ⟨(A ++ G) ++ n :: ns, away, b'⟩
        ∧ Overlay b b' s n.rOff [] G [] ∧ Shape ((A ++ G) ++ n :: ns) b' := by
    intro heq
    refine ⟨[], b, by rw [append_nil], ?_, by rw [append_nil]; exact h⟩
    rw [heq]
    exact .keep b n.rOff []
  rcases hat with ⟨p, rfl, hp⟩ | ⟨rfl, m, ms, heq, hm⟩
  · rw [fillGap]
    by_cases hgap : p.stop < n.rOff
    · rw [if_pos hgap]
      rw [hp] at hgap ⊢
      obtain ⟨hnew, hshape⟩ := zfsRangeNewProxy_spec away h hgap hA h.from_head
      rw [append_cons A _ (n :: ns)] at hnew hshape
      exact ⟨_, b + 1, hnew, .gap b hgap hfit, hshape⟩
    · rw [if_neg hgap]
      rw [hp] at hgap
      exact hkeep (le_antisymm hsn (not_lt.mp hgap))
  · cases heq
    exact hkeep hm.symm

theorem share_spec (h : Shape (A ++ n :: C) b) :
    Locks.write ⟨A ++ n.asProxy b :: C, displaced n ++ away, b + used n⟩ (n.asProxy b).bump
        = ⟨A ++ (n.asProxy b).bump :: C, displaced n ++ away, b + used n⟩
      ∧ Shape (A ++ (n.asProxy b).bump :: C) (b + used n) := by
  have hproxy := h.asProxy
  exact ⟨hproxy.write _ (n.asProxy b).bump rfl _,
    hproxy.replace le_rfl hproxy.around.1 le_rfl le_rfl (.inl rfl)⟩

/-- **THE WALK**: from where it stands, the range up to `stop` is laid over the tree,
    and nothing panics. -/
theorem addReaderLoop_spec (hfit : stop < 2 ^ 64) (fuel : ℕ) (h : Shape (A ++ S) b)
    (hok : ∀ n ∈ S, n.rOff < stop → Sharable n) (hs : s < stop) (hat : WalkAt prev S s)
    (hA : ∀ a ∈ A, a.stop ≤ s) (hS : ∀ n ∈ S, s ≤ n.rOff) (hfuel : S.length < fuel) :
    ∃ S' D b', addReaderLoop stop fuel ⟨A ++ S, away, b⟩ prev S.head?
        = .ok ⟨A ++ S', D ++ away, b'⟩
      ∧ Overlay b b' s stop S S' D ∧ Shape (A ++ S') b' := by
  induction S generalizing A b away s prev fuel with
  | nil =>
    obtain ⟨fuel, rfl⟩ := exists_eq_succ_of_ne_zero hfuel.ne_bot
    exact fillEnd_spec away h hfit hs hat hA nofun
  | cons n ns ih =>
    obtain ⟨fuel, rfl⟩ := exists_eq_succ_of_ne_zero (ne_zero_of_lt hfuel)
    by_cases hend : stop ≤ n.rOff
    · obtain ⟨S', D, b', hfill, hover, hshape⟩ := fillEnd_spec away h hfit hs hat hA
        fun c hc => hend.trans (h.from_head c hc)
      refine ⟨S', D, b', ?_, hover, hshape⟩
      rw [head?_cons, addReaderLoop, if_pos hend, hfill]
    have hlt := not_le.mp hend
    have hn := hok n mem_cons_self hlt
    obtain ⟨G, b1, hgap, hoverG, hshapeG⟩ := fillGap_spec away h (hlt.trans hfit) hat hA
      (hS n mem_cons_self)
    rw [head?_cons, addReaderLoop, if_neg hend]
    simp only [hgap, bind, Except.bind]
    by_cases heq : stop = n.stop
    · -- the range ends where this lock does
      obtain ⟨hwrite, hshape⟩ := share_spec away hshapeG
      refine ⟨G ++ (n.asProxy b1).bump :: ns, displaced n, b1 + used n, ?_, ?_, ?_⟩
      · rw [if_pos heq, zfsRangeProxify_spec away hshapeG hn]
        dsimp only
        rw [hwrite, append_assoc]
        rfl
      · rw [heq]
        simpa using hoverG.append ((Overlay.share b1 hn).append (.keep _ n.stop ns))
      · rw [← append_assoc]
        exact hshape
    by_cases hin : stop < n.stop
    · -- the range ends inside this lock
      have hcut := hshapeG.cut hlt hin
      rw [← append_cons] at hcut
      have hfront : (front n b1 stop).rProxy = true := asProxy_rProxy n (b1 + 1)
      have hwrite := hcut.write (displaced n ++ away) (front n b1 stop).bump rfl (b1 + 1 + used n)
      refine ⟨G ++ (front n b1 stop).bump :: rear n b1 stop :: ns, displaced n, b1 + 1 + used n,
        ?_, ?_, ?_⟩
      · rw [if_neg heq, if_pos hin, zfsRangeSplit_spec away hshapeG hn hlt hin]
        dsimp only
        rw [← append_cons, hwrite, append_assoc]
        rfl
      · have hover := (Overlay.shareProxy (b1 + 1 + used n) hfront (hn.front stop)).append
          (.keep _ _ (rear n b1 stop :: ns))
        rw [front_rOff, front_stop hlt] at hover
        simpa using hoverG.append
          (((Overlay.cut b1 n.rOff hn hlt hin).append (.keep _ n.rOff ns)).trans hover)
      · rw [← append_assoc]
        exact hcut.replace le_rfl hcut.around.1 le_rfl le_rfl (.inl rfl)
    · -- the range goes on behind this lock
      obtain ⟨hwrite, hshape⟩ := share_spec away hshapeG
      have hstop := (bump_range n b1).2
      have hgt : n.stop < stop := lt_of_le_of_ne (not_lt.mp hin) (Ne.symm heq)
      have hnext := hshape.avlNext (m := (n.asProxy b1).bump) rfl
      rw [append_cons] at hshape
      obtain ⟨S', D, b', hloop, hover, hshape'⟩ := ih (displaced n ++ away) fuel hshape
        (fun c hc => hok c (mem_cons_of_mem _ hc)) hgt (.inl ⟨_, rfl, hstop⟩)
        (by
          refine forall_mem_append.mpr ⟨?_, forall_mem_singleton.mpr hstop.le⟩
          intro a ha
          exact (hshapeG.around.2.1 a ha).trans hshapeG.around.1.le)
        h.around.2.2 (lt_of_succ_lt_succ hfuel)
      refine ⟨G ++ (n.asProxy b1).bump :: S', D ++ displaced n, b', ?_, ?_, ?_⟩
      · rw [if_neg heq, if_neg hin, zfsRangeProxify_spec away hshapeG hn]
        dsimp only
        rw [hwrite]
        rw [hnext, append_cons, hloop]
        simp
      · simpa using hoverG.append ((Overlay.share b1 hn).append hover)
      · simpa using hshape'

variable {new : Rl}

theorem shareRange_spec (h : Shape (A ++ n :: ns) b) (hfit : new.stop < 2 ^ 64)
    (hoff : new.rOff ≤ n.rOff) (hlt : n.rOff < new.stop) (hA : ∀ a ∈ A, a.stop ≤ new.rOff)
    (hok : ∀ c ∈ n :: ns, c.rOff < new.stop → Sharable c) :
    ∃ S' D b', shareRange ⟨A ++ n :: ns, away, b⟩ new n
        = .ok ⟨A ++ S', D ++ { new with rCnt := 0 } :: away, b'⟩
      ∧ Overlay b b' new.rOff new.stop (n :: ns) S' D ∧ Shape (A ++ S') b' := by
  have hns := h.from_head
  have hat : WalkAt none (n :: ns) n.rOff := .inr ⟨rfl, n, ns, rfl, rfl⟩
  have hfuel : ∀ B : List Rl, (n :: ns).length < (B ++ n :: ns).length + 1 := by
    intro B
    rw [length_append]
    omega
  rw [shareRange, fillStart]
  by_cases hgap : new.rOff < n.rOff
  · obtain ⟨hnew, hshape⟩ := zfsRangeNewProxy_spec away h hgap hA hns
    rw [append_cons A _ (n :: ns)] at hnew hshape
    obtain ⟨S', D, b', hloop, hover, hshape'⟩ := addReaderLoop_spec
      ({ new with rCnt := 0 } :: away) hfit _ hshape hok hlt hat hshape.around.2.1 hns (hfuel _)
    refine ⟨Rl.proxy b new.rOff (n.rOff - new.rOff) 1 :: S', D, b', ?_, ?_, ?_⟩
    · rw [if_pos hgap]
      simp only [hnew, bind, Except.bind]
      rw [head?_cons] at hloop
      rw [hloop]
      simp
    · simpa using (Overlay.gap b hgap (hlt.trans hfit)).append hover
    · simpa using hshape'
  · have heq : new.rOff = n.rOff := le_antisymm hoff (not_lt.mp hgap)
    obtain ⟨S', D, b', hloop, hover, hshape'⟩ := addReaderLoop_spec
      ({ new with rCnt := 0 } :: away) hfit _ h hok hlt hat h.around.2.1 hns (hfuel _)
    refine ⟨S', D, b', ?_, by rwa [heq], hshape'⟩
    rw [if_neg hgap]
    exact hloop

/-- What `zfs_range_add_reader` does: the lock goes into a free place of the tree, or
    it is laid over the tree and stays away. -/
inductive AddsReader (tree away : List Rl) (b : ℕ) (new : Rl) : Locks → Prop
  | alone {A C : List Rl} (htree : tree = A ++ C) (hA : ∀ a ∈ A, a.stop ≤ new.rOff)
      (hC : ∀ c ∈ C, new.stop ≤ c.rOff) : AddsReader tree away b new ⟨A ++ new :: C, away, b⟩
  | shared {tree' D away' : List Rl} {b' : ℕ} (hover : Overlay b b' new.rOff new.stop tree tree' D)
      (hshape : Shape tree' b') (haway : away'.Perm (D ++ { new with rCnt := 0 } :: away)) :
      AddsReader tree away b new ⟨tree', away', b'⟩

theorem insertOrShare_spec (h : Shape (A ++ C) b) (hfit : new.stop < 2 ^ 64)
    (hA : ∀ a ∈ A, a.stop ≤ new.rOff) (hC : ∀ c ∈ C, new.rOff ≤ c.rOff)
    (hok : ∀ c ∈ C, c.rOff < new.stop → Sharable c) :
    ∃ st, insertOrShare ⟨A ++ C, away, b⟩ new C.head? A.length = .ok st
      ∧ AddsReader (A ++ C) away b new st := by
  have hinsert : insertAt (A ++ C) A.length new = A ++ new :: C := insertAt_append A C new
  cases C with
  | nil =>
    refine ⟨_, rfl, ?_⟩
    rw [hinsert]
    exact .alone rfl hA nofun
  | cons n ns =>
    by_cases hfree : new.stop ≤ n.rOff
    · refine ⟨_, if_pos hfree, ?_⟩
      rw [hinsert]
      refine .alone rfl hA (forall_mem_cons.mpr ⟨hfree, ?_⟩)
      intro c hc
      exact hfree.trans (h.around.1.trans_le (h.around.2.2 c hc)).le
    · obtain ⟨S', D, b', hshare, hover, hshape⟩ := shareRange_spec away h hfit
        (hC n mem_cons_self) (not_le.mp hfree) hA hok
      refine ⟨_, (if_neg hfree).trans hshare, ?_⟩
      exact .shared (by simpa using (Overlay.keep b new.rOff A).append hover) hshape
        (List.Perm.refl _)

theorem addReader_cut (h : Shape (A ++ p :: C) b) (hfit : new.stop < 2 ^ 64)
    (hlen : new.rOff < new.stop) (hlo : p.rOff < new.rOff) (hhi : new.rOff < p.stop)
    (hok : ∀ c ∈ p :: C, c.rOff < new.stop → Sharable c) (whr : ℕ) :
    ∃ st, zfsRangeAddReader ⟨A ++ p :: C, away, b⟩ new (some p) whr = .ok st
      ∧ AddsReader (A ++ p :: C) away b new st := by
  have hp := hok p mem_cons_self (hlo.trans hlen)
  have hcut := h.cut hlo hhi
  have hrear : Sharable (rear p b new.rOff) := ⟨rfl, rfl, rfl, hp.pos, nofun, hp.room⟩
  have hnext : avlNext ((A ++ [front p b new.rOff]) ++ rear p b new.rOff :: C) (front p b new.rOff)
      = some (rear p b new.rOff) := by
    rw [← append_cons] at hcut ⊢
    rw [hcut.avlNext rfl, head?_cons]
  obtain ⟨S', D, b', hshare, hover, hshape⟩ := shareRange_spec (displaced p ++ away) hcut hfit
    le_rfl hlen (by
      refine forall_mem_append.mpr ⟨?_, forall_mem_singleton.mpr (front_stop hlo).le⟩
      exact fun a ha => (h.around.2.1 a ha).trans hlo.le)
    (forall_mem_cons.mpr ⟨fun _ => hrear, fun c hc => hok c (mem_cons_of_mem _ hc)⟩)
  have hover1 : Overlay b (b + 1 + used p) new.rOff new.rOff (A ++ p :: C)
      ((A ++ [front p b new.rOff]) ++ rear p b new.rOff :: C) (displaced p) := by
    simpa using (Overlay.keep b new.rOff A).append
      ((Overlay.cut b new.rOff hp hlo hhi).append (.keep _ _ C))
  have hover2 : Overlay (b + 1 + used p) b' new.rOff new.stop
      ((A ++ [front p b new.rOff]) ++ rear p b new.rOff :: C)
      ((A ++ [front p b new.rOff]) ++ S') D := by
    simpa using (Overlay.keep _ new.rOff (A ++ [front p b new.rOff])).append hover
  have hperm : (D ++ { new with rCnt := 0 } :: (displaced p ++ away)).Perm
      ((D ++ displaced p) ++ { new with rCnt := 0 } :: away) := by
    rw [append_assoc]
    exact perm_middle.symm.append_left D
  refine ⟨_, ?_, .shared (hover1.trans hover2) hshape hperm⟩
  have hstart : (rear p b new.rOff).rOff = new.rOff := rfl
  rw [zfsRangeAddReader, splitStart, if_neg (not_le.mpr hhi), if_pos hlo.ne,
    zfsRangeSplit_spec away h hp hlo hhi]
  simp only [bind, Except.bind, pure, Except.pure, hnext, Option.any_some, hstart,
    bne_self_eq_false]
  exact (if_neg (not_le.mpr hlen)).trans hshare

/-- What `zfs_range_lock_reader` finds before its loop: a lock at the offset of the
    range, or the one before, or none. -/
inductive ReaderPrev (tree : List Rl) (off : ℕ) : Prop
  | none (hprev : readerPrev tree off = none) (hwhere : avlWhere tree off = 0)
      (hC : ∀ c ∈ tree, off ≤ c.rOff)
  | some {A C : List Rl} {p : Rl} (htree : tree = A ++ p :: C)
      (hprev : readerPrev tree off = some p)
      (hlo : p.rOff ≤ off) (hA : ∀ a ∈ A, a.stop ≤ off) (hC : ∀ c ∈ C, off ≤ c.rOff)

theorem readerPrev_cases {tree : List Rl} (h : Shape tree b) (off : ℕ) : ReaderPrev tree off := by
  obtain ⟨A, C, rfl, hA, hC⟩ := exists_split off h.ordered.increasing
  have hwhere : avlWhere (A ++ C) off = A.length := place_append hA hC
  have hfind : avlFind (A ++ C) off = C.find? fun c => c.rOff == off := find?_key_append hA
  by_cases hsame : ∃ c ns, C = c :: ns ∧ c.rOff = off
  · obtain ⟨c, ns, rfl, hc⟩ := hsame
    refine .some rfl ?_ hc.le ?_ (fun d hd => hC d (mem_cons_of_mem _ hd))
    · rw [readerPrev, hfind, find?_cons_of_pos (by simpa using hc)]
    · exact fun a ha => hc ▸ h.around.2.1 a ha
  have hnone : (C.find? fun c => c.rOff == off) = none := by
    cases C with
    | nil => rfl
    | cons c ns =>
      refine find?_eq_none.mpr ?_
      have hlt := lt_of_le_of_ne (hC c mem_cons_self) fun heq => hsame ⟨c, ns, rfl, heq.symm⟩
      refine forall_mem_cons.mpr ⟨by simpa using hlt.ne', ?_⟩
      intro d hd
      simpa using (hlt.trans (h.around.1.trans_le (h.around.2.2 d hd))).ne'
  have hprev : readerPrev (A ++ C) off = A.getLast? := by
    rw [readerPrev, hfind, hnone, hwhere]
    exact before_append A C
  rcases eq_nil_or_concat A with rfl | ⟨A, p, rfl⟩
  · exact .none hprev hwhere hC
  rw [concat_eq_append] at *
  rw [getLast?_concat] at hprev
  have hlo := hA p (mem_append_right _ (mem_singleton_self p))
  refine .some (append_cons A p C).symm hprev hlo.le ?_ hC
  intro a ha
  rw [← append_cons] at h
  exact (h.around.2.1 a ha).trans hlo.le

/-- **ADD READER**: the lock enters the tree alone or is shared, and nothing panics. -/
theorem zfsRangeAddReader_spec (new : Rl) {tree : List Rl} (h : Shape tree b)
    (hfit : new.stop < 2 ^ 64) (hlen : new.rOff < new.stop)
    (hok : ∀ n ∈ tree, n.rOff < new.stop → new.rOff < n.stop → Sharable n) :
    ∃ st, zfsRangeAddReader ⟨tree, away, b⟩ new (readerPrev tree new.rOff) (avlWhere tree new.rOff)
        = .ok st
      ∧ AddsReader tree away b new st := by
  have hbehind : ∀ c ∈ tree, new.rOff ≤ c.rOff → c.rOff < new.stop → Sharable c :=
    fun c hc hle hlt => hok c hc hlt (hle.trans_lt (h.ordered.nonempty c hc))
  -- no lock covers the start of the range, but one may start there
  have hfree : ∀ {A C : List Rl} (prev : Option Rl), tree = A ++ C → (∀ a ∈ A, a.stop ≤ new.rOff) →
      (∀ c ∈ C, new.rOff ≤ c.rOff) → splitStart ⟨tree, away, b⟩ new.rOff (readerPrev tree new.rOff)
        = .ok (⟨tree, away, b⟩, prev) → (prev.any fun prev => prev.rOff != new.rOff) = false →
      firstAtOrAfter ⟨tree, away, b⟩ prev A.length = C.head? →
      ∃ st, zfsRangeAddReader ⟨tree, away, b⟩ new (readerPrev tree new.rOff)
        (avlWhere tree new.rOff) = .ok st ∧ AddsReader tree away b new st := by
    rintro A C prev rfl hA hC hsplit hany hnext
    have hwhere : avlWhere (A ++ C) new.rOff = A.length := place_append
      (fun a ha => (h.ordered.nonempty a (mem_append_left _ ha)).trans_le (hA a ha)) hC
    obtain ⟨st, hst, hadds⟩ := insertOrShare_spec away h hfit hA hC
      fun c hc => hbehind c (mem_append_right A hc) (hC c hc)
    refine ⟨st, ?_, hadds⟩
    rw [zfsRangeAddReader, hsplit, hwhere]
    simp only [bind, Except.bind, hany, hnext]
    exact hst
  cases readerPrev_cases h new.rOff with
  | none hprev hwhere hC =>
    exact hfree (A := []) none rfl nofun hC (by rw [hprev]; rfl) rfl (getElem?_length_append [] _)
  | @some A C p htree hprev hlo hA hC =>
    subst htree
    rcases hlo.eq_or_lt with heq | hlt
    · refine hfree (some p) rfl hA (forall_mem_cons.mpr ⟨heq.ge, hC⟩) ?_ (by simp [heq]) rfl
      rw [hprev, splitStart, if_neg (heq ▸ not_le.mpr h.around.1), if_neg (not_not.mpr heq)]
    by_cases hend : p.stop ≤ new.rOff
    · refine hfree none (append_cons A p C)
        (forall_mem_append.mpr ⟨hA, forall_mem_singleton.mpr hend⟩) hC ?_ rfl ?_
      · rw [hprev]
        exact if_pos hend
      · rw [append_cons]
        exact getElem?_length_append _ _
    · rw [hprev]
      refine addReader_cut away h hfit hlen hlt (not_le.mp hend) (forall_mem_cons.mpr ⟨?_, ?_⟩) _
      · exact fun hlt' => hok p (mem_append_right _ mem_cons_self) hlt' (not_le.mp hend)
      · exact fun c hc => hbehind c (mem_append_right _ (mem_cons_of_mem _ hc)) (hC c hc)

end Walk

end Sirius.Rlock
