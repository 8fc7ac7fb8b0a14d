import Sirius.Zfs.RangeLockTree

/-! # Range locks are exclusive — the invariant of the lock table

    `Sound` ties the tree to the locks that callers hold: over every byte, the
    reference counts add up to the locks granted there.  That one equation gives
    exclusion, since the node of a writer has count one.

    Every round of a call, every release and every reduction keeps it, and none of
    them panics. -/

namespace Sirius.Rlock

open Sirius.Lib List Nat

variable {A C tree : List Rl} {n m : Rl} {b off stop x : ℕ} {st : Locks}

/-! ## Who is in the way -/

theorem readerScan_mem (h : readerScan stop C = some n) : n ∈ C ∧ n.blocks = true := by
  induction C with
  | nil => cases h
  | cons c C ih =>
    rw [readerScan] at h
    split_ifs at h with h1 h2 h3
    · cases h
      exact ⟨mem_cons_self, h2⟩
    · obtain ⟨hmem, hb⟩ := ih h
      exact ⟨mem_cons_of_mem _ hmem, hb⟩

theorem readerScan_none (ho : Ordered Rl.rOff Rl.stop C) (h : readerScan stop C = none) :
    ∀ c ∈ C, c.rOff < stop → c.blocks = false := by
  induction C with
  | nil => exact nofun
  | cons c C ih =>
    obtain ⟨-, hhd, htl⟩ := Ordered.cons_iff.mp ho
    rw [readerScan] at h
    split_ifs at h with h1 h2 h3
    · -- the range ends before this lock
      intro d hd hlt
      rcases mem_cons.mp hd with rfl | hd
      · exact absurd hlt (not_lt.mpr h1)
      · have hc := ho.nonempty c mem_cons_self
        exact absurd hlt (not_lt.mpr (h1.trans (hc.le.trans (hhd d hd))))
    · -- it ends inside this lock
      refine forall_mem_cons.mpr ⟨fun _ => Bool.eq_false_of_not_eq_true h2, ?_⟩
      intro d hd hlt
      exact absurd hlt (not_lt.mpr (h3.trans (hhd d hd)))
    · exact forall_mem_cons.mpr ⟨fun _ => Bool.eq_false_of_not_eq_true h2, ih htl h⟩

theorem readerBlocker_some (h : Shape tree b) (hb : readerBlocker tree off stop = some n) :
    n ∈ tree ∧ n.blocks = true := by
  cases readerPrev_cases h off with
  | none hprev hwhere hC =>
    rw [readerBlocker, hprev, hwhere] at hb
    exact readerScan_mem hb
  | @some A C p htree hprev hlo hA hC =>
    rw [readerBlocker, hprev] at hb
    dsimp only at hb
    rw [htree] at h hb ⊢
    split_ifs at hb with h1 h2
    · cases hb
      exact ⟨mem_append_right _ mem_cons_self, h1.2⟩
    · rw [after_append h.others.1 (beq_self_eq_true _)] at hb
      obtain ⟨hmem, hblocks⟩ := readerScan_mem hb
      exact ⟨mem_append_right _ (mem_cons_of_mem _ hmem), hblocks⟩

theorem readerBlocker_none (h : Shape tree b) (hb : readerBlocker tree off stop = none) :
    ∀ n ∈ tree, n.rOff < stop → off < n.stop → n.blocks = false := by
  cases readerPrev_cases h off with
  | none hprev hwhere hC =>
    rw [readerBlocker, hprev, hwhere] at hb
    exact fun n hn hlt _ => readerScan_none h.ordered hb n hn hlt
  | @some A C p htree hprev hlo hA hC =>
    rw [readerBlocker, hprev] at hb
    dsimp only at hb
    rw [htree] at h hb ⊢
    -- the locks before `p` end before the range
    refine forall_mem_append.mpr ⟨fun a ha _ hoff => absurd hoff (not_lt.mpr (hA a ha)), ?_⟩
    split_ifs at hb with h1 h2
    · refine forall_mem_cons.mpr ⟨fun _ hoff => ?_, ?_⟩
      · exact Bool.eq_false_of_not_eq_true fun hblocks => h1 ⟨hoff, hblocks⟩
      · intro c hc hlt
        exact absurd (hlt.trans h2.2) (not_lt.mpr (h.around.2.2 c hc))
    · rw [after_append h.others.1 (beq_self_eq_true _)] at hb
      have hoC : Ordered Rl.rOff Rl.stop C :=
        (Ordered.cons_iff.mp (Ordered.append_iff.mp h.ordered).2.1).2.2
      refine forall_mem_cons.mpr ⟨fun _ hoff => ?_, ?_⟩
      · exact Bool.eq_false_of_not_eq_true fun hblocks => h1 ⟨hoff, hblocks⟩
      · exact fun c hc hlt _ => readerScan_none hoC hb c hc hlt

theorem writerBlocker_some (hb : writerBlocker tree off stop = some n) : n ∈ tree := by
  rw [writerBlocker] at hb
  cases hfind : avlFind tree off with
  | some rl =>
    rw [hfind] at hb
    cases hb
    exact mem_of_find?_eq_some hfind
  | none =>
    rw [hfind] at hb
    cases hafter : tree[avlWhere tree off]?.filter fun rl => rl.rOff < stop with
    | some rl =>
      rw [hafter] at hb
      cases hb
      exact mem_of_getElem? (Option.filter_eq_some_iff.mp hafter).1
    | none =>
      rw [hafter] at hb
      have hbefore := (Option.filter_eq_some_iff.mp hb).1
      rw [before] at hbefore
      split_ifs at hbefore
      exact mem_of_getElem? hbefore

theorem writerBlocker_none (h : Shape tree b) (hb : writerBlocker tree off stop = none) :
    ∃ A C, tree = A ++ C ∧ avlWhere tree off = A.length
      ∧ (∀ a ∈ A, a.stop ≤ off) ∧ ∀ c ∈ C, stop ≤ c.rOff := by
  obtain ⟨A, C, rfl, hA, hC⟩ := exists_split off h.ordered.increasing
  have hwhere : avlWhere (A ++ C) off = A.length := place_append hA hC
  rw [writerBlocker] at hb
  cases hfind : avlFind (A ++ C) off with
  | some rl =>
    rw [hfind] at hb
    cases hb
  | none =>
    rw [hfind, hwhere, getElem?_length_append, before_append] at hb
    cases hafter : C.head?.filter fun rl => rl.rOff < stop with
    | some rl =>
      rw [hafter] at hb
      cases hb
    | none =>
      rw [hafter] at hb
      refine ⟨A, C, rfl, hwhere, ?_, ?_⟩
      · rcases eq_nil_or_concat A with rfl | ⟨A, p, rfl⟩
        · exact nofun
        rw [concat_eq_append] at *
        have hp : p.stop ≤ off := by simpa using hb
        rw [← append_cons] at h
        refine forall_mem_append.mpr ⟨?_, forall_mem_singleton.mpr hp⟩
        exact fun a ha => (h.around.2.1 a ha).trans (h.around.1.le.trans hp)
      · cases C with
        | nil => exact nofun
        | cons c C =>
          have hc : stop ≤ c.rOff := by simpa using hafter
          refine forall_mem_cons.mpr ⟨hc, ?_⟩
          exact fun d hd => hc.trans (h.around.1.le.trans (h.around.2.2 d hd))

def granted (st : Locks) : List Grant := (owned st.zRangeAvl ++ st.away).map Rl.grant

def covering (gs : List Grant) (x : ℕ) : ℕ := gs.countP fun g => g.off ≤ x && x < g.stop

structure Sound (st : Locks) : Prop where
  shape : Shape st.zRangeAvl st.brk
  addrs : ((st.zRangeAvl ++ st.away).map Rl.addr).Nodup
  below : ∀ h ∈ st.away, h.addr < st.brk
  nodes : ∀ n ∈ st.zRangeAvl, NodeOk n
  away : ∀ h ∈ st.away, AwayOk h
  balance : ∀ x, refs st.zRangeAvl x = covering (granted st) x
  tiled : ∀ h ∈ st.away, ∀ x, h.rOff ≤ x → x < h.stop → ∃ p ∈ st.zRangeAvl, Inside h.rOff h.stop x p
  few : (granted st).length < 2 ^ 32

theorem covering_perm {gs gs' : List Grant} (h : gs.Perm gs') (x : ℕ) :
    covering gs x = covering gs' x := h.countP_eq _

theorem covering_cons (g : Grant) (gs : List Grant) (x : ℕ) :
    covering (g :: gs) x = covering gs x + ind g.off g.stop x := by
  rw [covering, countP_cons, covering, ind]
  simp

theorem Sound.rCnt_eq (h : Sound st) (hn : n ∈ st.zRangeAvl) (hx : n.rOff ≤ x ∧ x < n.stop) :
    n.rCnt = covering (granted st) x := by
  rw [← h.balance x]
  exact (h.shape.ordered.load_eq hn hx).symm

theorem NodeOk.lt (h : NodeOk n) : n.rOff < n.stop := Nat.lt_add_of_pos_right h.len

theorem Sound.rCnt_le (h : Sound st) (hn : n ∈ st.zRangeAvl) : n.rCnt ≤ (granted st).length := by
  rw [h.rCnt_eq hn ⟨le_rfl, (h.nodes n hn).lt⟩]
  exact countP_le_length

variable {g w : Grant}

theorem two_le_covering {gs : List Grant} (hw : w ∈ gs) (hg : g ∈ gs) (hne : g ≠ w)
    (hwx : w.off ≤ x ∧ x < w.stop) (hgx : g.off ≤ x ∧ x < g.stop) : 2 ≤ covering gs x := by
  have hperm := perm_cons_erase hw
  rw [covering_perm hperm, covering_cons, ind, if_pos hwx]
  have hpos : 0 < covering (gs.erase w) x := by
    refine countP_pos_iff.mpr ⟨g, (mem_erase_of_ne hne).mpr hg, ?_⟩
    simpa using hgx
  exact succ_le_succ hpos

theorem mem_granted (hg : g ∈ granted st) :
    (∃ n ∈ st.zRangeAvl, n.rProxy = false ∧ n.grant = g) ∨ ∃ h ∈ st.away, h.grant = g := by
  obtain ⟨n, hn, rfl⟩ := mem_map.mp hg
  rcases mem_append.mp hn with hn | hn
  · obtain ⟨hmem, hp⟩ := mem_filter.mp hn
    exact .inl ⟨n, hmem, by simpa using hp, rfl⟩
  · exact .inr ⟨n, hn, rfl⟩

theorem Sound.grant_lt (h : Sound st) (hg : g ∈ granted st) : g.off < g.stop := by
  rcases mem_granted hg with ⟨n, hn, -, rfl⟩ | ⟨n, hn, rfl⟩
  · exact (h.nodes n hn).lt
  · exact Nat.lt_add_of_pos_right (h.away n hn).len

theorem Sound.exclusive (h : Sound st) (hw : w ∈ granted st) (htype : w.type = .writer)
    (hg : g ∈ granted st) (hne : g.addr ≠ w.addr) : g.stop ≤ w.off ∨ w.stop ≤ g.off := by
  by_contra hboth
  obtain ⟨h1, h2⟩ := not_or.mp hboth
  -- the larger of the two starts lies in both ranges
  have hwx : w.off ≤ max w.off g.off ∧ max w.off g.off < w.stop :=
    ⟨le_max_left _ _, max_lt (h.grant_lt hw) (not_le.mp h2)⟩
  have hgx : g.off ≤ max w.off g.off ∧ max w.off g.off < g.stop :=
    ⟨le_max_right _ _, max_lt (not_le.mp h1) (h.grant_lt hg)⟩
  have htwo := two_le_covering hw hg (fun heq => hne (congrArg Grant.addr heq)) hwx hgx
  rcases mem_granted hw with ⟨n, hn, hp, rfl⟩ | ⟨n, hn, rfl⟩
  · rw [← h.rCnt_eq hn hwx, (h.nodes n hn).own hp] at htwo
    exact absurd htwo (by decide)
  · cases (h.away n hn).reader.symm.trans htype

/-! ## Locks that enter and leave the tree -/

theorem owned_cons (n : Rl) (C : List Rl) :
    owned (n :: C) = if n.rProxy then owned C else n :: owned C := by
  rw [owned, owned]
  cases hp : n.rProxy <;> simp [hp]

theorem granted_insert (hm : m.rProxy = false) (away : List Rl) (b b' : ℕ) :
    (granted ⟨A ++ m :: C, away, b⟩).Perm (m.grant :: granted ⟨A ++ C, away, b'⟩) := by
  have hown : owned (A ++ m :: C) = owned A ++ m :: owned C := by
    rw [owned_append, owned_cons, hm]
    rfl
  rw [granted, granted, ← map_cons]
  refine List.Perm.map _ ?_
  rw [hown, owned_append, append_assoc, append_assoc]
  exact perm_middle

theorem granted_mark (away : List Rl) (b : ℕ) (hgrant : m.grant = n.grant)
    (hproxy : m.rProxy = n.rProxy) :
    granted ⟨A ++ m :: C, away, b⟩ = granted ⟨A ++ n :: C, away, b⟩ := by
  rw [granted, granted]
  rw [owned_append, owned_append, owned_cons, owned_cons, hproxy]
  cases n.rProxy with
  | true => rfl
  | false => simp [hgrant]

theorem refs_middle (A C : List Rl) (m : Rl) (x : ℕ) :
    refs (A ++ m :: C) x = refs (A ++ C) x + if m.rOff ≤ x ∧ x < m.stop then m.rCnt else 0 := by
  rw [refs, refs, load_append, load_cons, load_append]
  omega

variable {away : List Rl} {new : Rl}

theorem Sound.insert (h : Sound ⟨A ++ C, away, b⟩) (hm : NodeOk m) (hown : m.rProxy = false)
    (hat : m.addr = b) (hA : ∀ a ∈ A, a.stop ≤ m.rOff) (hC : ∀ c ∈ C, m.stop ≤ c.rOff)
    (hfew : (granted ⟨A ++ C, away, b⟩).length + 1 < 2 ^ 32) :
    Sound ⟨A ++ m :: C, away, b + 1⟩ := by
  have hperm : (granted ⟨A ++ m :: C, away, b + 1⟩).Perm
      (m.grant :: granted ⟨A ++ C, away, b⟩) := granted_insert hown away _ _
  have hmid : ((A ++ m :: C) ++ away).Perm (m :: ((A ++ C) ++ away)) :=
    perm_middle.append_right away
  refine ⟨?_, ?_, ?_, ?_, h.away, ?_, ?_, ?_⟩
  · exact (h.shape.mono (le_succ b)).insert hA hm.lt hC
      (fun a ha => hat ▸ (h.shape.below a ha).ne) (hat ▸ lt_succ_self b)
  · rw [(hmid.map Rl.addr).nodup_iff, map_cons, nodup_cons]
    refine ⟨?_, h.addrs⟩
    intro hmem
    obtain ⟨a, ha, heq⟩ := mem_map.mp hmem
    rcases mem_append.mp ha with ha | ha
    · exact (h.shape.below a ha).ne (heq.trans hat)
    · exact (h.below a ha).ne (heq.trans hat)
  · exact fun a ha => (h.below a ha).trans (lt_succ_self b)
  · intro a ha
    rcases mem_cons.mp (perm_middle.mem_iff.mp ha) with rfl | ha
    · exact hm
    · exact h.nodes a ha
  · intro x
    rw [covering_perm hperm, covering_cons, ← h.balance x, refs_middle, hm.own hown]
    rfl
  · intro d hd x hlo hhi
    obtain ⟨p, hp, hin⟩ := h.tiled d hd x hlo hhi
    exact ⟨p, perm_middle.mem_iff.mpr (mem_cons_of_mem _ hp), hin⟩
  · rw [hperm.length_eq]
    exact hfew

theorem Sound.remove (h : Sound ⟨A ++ n :: C, away, b⟩) (hown : n.rProxy = false) :
    Sound ⟨A ++ C, away, b⟩ := by
  have hperm : (granted ⟨A ++ n :: C, away, b⟩).Perm (n.grant :: granted ⟨A ++ C, away, b⟩) :=
    granted_insert hown away _ _
  have hn := h.nodes n (mem_append_right _ mem_cons_self)
  have hsub := (sublist_cons_self n C).append_left A
  refine ⟨h.shape.remove, ?_, h.below, fun a ha => h.nodes a (hsub.subset ha), h.away, ?_, ?_, ?_⟩
  · exact h.addrs.sublist ((hsub.append_right away).map _)
  · intro x
    have hbal := h.balance x
    rw [covering_perm hperm, covering_cons, refs_middle, hn.own hown] at hbal
    exact add_right_cancel hbal
  · intro d hd x hlo hhi
    obtain ⟨p, hp, hin⟩ := h.tiled d hd x hlo hhi
    rcases mem_cons.mp (perm_middle.mem_iff.mp hp) with rfl | hp
    · exact absurd (hown.symm.trans hin.1) nofun
    · exact ⟨p, hp, hin⟩
  · have hlen := hperm.length_eq
    have hfew := h.few
    rw [length_cons] at hlen
    omega

theorem Sound.mark (h : Sound ⟨A ++ n :: C, away, b⟩) (hm : NodeOk m) (hgrant : m.grant = n.grant)
    (hcnt : m.rCnt = n.rCnt) (hproxy : m.rProxy = n.rProxy) : Sound ⟨A ++ m :: C, away, b⟩ := by
  have haddr : m.addr = n.addr := congrArg Grant.addr hgrant
  have hoff : m.rOff = n.rOff := congrArg Grant.off hgrant
  have hstop : m.stop = n.stop := congrArg Grant.stop hgrant
  have hgranted := granted_mark (A := A) (C := C) away b hgrant hproxy
  refine ⟨?_, ?_, h.below, ?_, h.away, ?_, ?_, ?_⟩
  · exact h.shape.replace hoff.ge hm.lt hstop.le le_rfl (.inl haddr)
  · have haddrs := h.addrs
    simp only [map_append, map_cons] at haddrs ⊢
    rw [haddr]
    exact haddrs
  · intro a ha
    rcases mem_cons.mp (perm_middle.mem_iff.mp ha) with rfl | ha
    · exact hm
    · exact h.nodes a (perm_middle.mem_iff.mpr (mem_cons_of_mem _ ha))
  · intro x
    rw [hgranted, ← h.balance x]
    rw [refs_middle, refs_middle, hoff, hstop, hcnt]
  · intro d hd x hlo hhi
    obtain ⟨p, hp, hin⟩ := h.tiled d hd x hlo hhi
    rcases mem_cons.mp (perm_middle.mem_iff.mp hp) with rfl | hp
    · refine ⟨m, mem_append_right _ mem_cons_self, ?_⟩
      rw [Inside, hproxy, hoff, hstop]
      exact hin
    · exact ⟨p, perm_middle.mem_iff.mpr (mem_cons_of_mem _ hp), hin⟩
  · rw [hgranted]
    exact h.few

theorem Sound.share {tree' D away' : List Rl} {b' : ℕ} (h : Sound ⟨tree, away, b⟩)
    (hat : new.addr = b) (hover : Overlay (b + 1) b' new.rOff new.stop tree tree' D)
    (hshape : Shape tree' b') (haway : away'.Perm (D ++ { new with rCnt := 0 } :: away))
    (hnew : AwayOk { new with rCnt := 0 }) (hfew : (granted ⟨tree, away, b⟩).length + 1 < 2 ^ 32) :
    Sound ⟨tree', away', b'⟩
      ∧ (granted ⟨tree', away', b'⟩).Perm (new.grant :: granted ⟨tree, away, b⟩) := by
  have hperm : (granted ⟨tree', away', b'⟩).Perm (new.grant :: granted ⟨tree, away, b⟩) := by
    have hmoved := hover.grants
    have hkept := haway.map Rl.grant
    refine perm_iff_count.mpr fun g => ?_
    have h1 := hmoved.count_eq g
    have h2 := hkept.count_eq g
    have h3 : Rl.grant { new with rCnt := 0 } = new.grant := rfl
    simp only [granted, map_append, map_cons, count_append, count_cons, h3] at h1 h2 ⊢
    omega
  obtain ⟨fresh, hnd, hrange, haddrs⟩ := hover.addrs
  have hb' : b + 1 ≤ b' := hover.le.2
  -- the addresses: old ones, the one of the new lock, and those of new proxies
  have hall : ((tree' ++ away').map Rl.addr).Perm ((tree ++ away).map Rl.addr ++ (b :: fresh)) := by
    refine perm_iff_count.mpr fun a => ?_
    have h1 := haddrs.count_eq a
    have h2 := (haway.map Rl.addr).count_eq a
    simp only [map_append, map_cons, count_append, count_cons, hat] at h1 h2 ⊢
    omega
  have hbelow : ∀ a ∈ (tree ++ away).map Rl.addr, a < b := by
    intro a ha
    obtain ⟨n, hn, rfl⟩ := mem_map.mp ha
    rcases mem_append.mp hn with hn | hn
    · exact h.shape.below n hn
    · exact h.below n hn
  refine ⟨⟨hshape, ?_, ?_, hover.nodeOk h.nodes, ?_, ?_, ?_, ?_⟩, hperm⟩
  · rw [hall.nodup_iff]
    refine nodup_append.mpr ⟨h.addrs, nodup_cons.mpr ⟨?_, hnd⟩, ?_⟩
    · exact fun hf => absurd (hrange b hf).1 (not_succ_le_self b)
    · intro a ha c hc
      rcases mem_cons.mp hc with rfl | hc
      · exact (hbelow a ha).ne
      · exact ((hbelow a ha).trans ((lt_succ_self b).trans_le (hrange c hc).1)).ne
  · intro d hd
    have hmem : d.addr ∈ (tree ++ away).map Rl.addr ++ (b :: fresh) :=
      hall.mem_iff.mp (mem_map_of_mem (mem_append_right _ hd))
    rcases mem_append.mp hmem with hold | hnew
    · exact (hbelow _ hold).trans ((lt_succ_self b).trans_le hb')
    · rcases mem_cons.mp hnew with heq | hfresh
      · exact heq.trans_lt ((lt_succ_self b).trans_le hb')
      · exact (hrange _ hfresh).2
  · intro d hd
    rcases mem_append.mp (haway.mem_iff.mp hd) with hd | hd
    · exact hover.awayOk h.nodes d hd
    · rcases mem_cons.mp hd with rfl | hd
      · exact hnew
      · exact h.away d hd
  · intro x
    rw [covering_perm hperm, covering_cons, ← h.balance x]
    exact hover.refs_eq x
  · intro d hd x hlo hhi
    rcases mem_append.mp (haway.mem_iff.mp hd) with hd | hd
    · exact hover.refined (.inl hd) ⟨hlo, hhi⟩
    rcases mem_cons.mp hd with rfl | hd
    · exact hover.covered ⟨hlo, hhi⟩
    · obtain ⟨p, hp, hp1, hp2, hp3, hp4, hp5⟩ := h.tiled d hd x hlo hhi
      obtain ⟨q, hq, hin⟩ := hover.refined (.inr ⟨hp, hp1⟩) ⟨hp3, hp4⟩
      exact ⟨q, hq, hin.mono hp2 hp5⟩
  · rw [hperm.length_eq]
    exact hfew

/-- A round leaves the table sound: it waits, or the ledger grows by the lock. -/
structure Rounded (st : Locks) (res : Outcome × Locks) : Prop where
  sound : Sound res.2
  grants : (granted res.2).Perm (match res.1 with
    | .granted g => g :: granted st
    | .wait _ => granted st)

theorem Sound.sharable (h : Sound st) (hfew : (granted st).length + 1 < 2 ^ 32)
    (hn : n ∈ st.zRangeAvl) (hb : n.blocks = false) : Sharable n := by
  have hok := h.nodes n hn
  obtain ⟨hw, hwanted⟩ := Bool.or_eq_false_iff.mp hb
  have hreader : n.rType = .reader := by
    cases ht : n.rType with
    | reader => rfl
    | writer =>
      rw [ht] at hw
      cases hw
    | append => exact absurd ht hok.type
  refine ⟨hreader, hwanted, ?_, hok.cnt, hok.own, ?_⟩
  · refine Bool.eq_false_of_not_eq_true fun hr => ?_
    rw [hok.waits hr] at hb
    cases hb
  · exact (Nat.add_le_add_right (h.rCnt_le hn) 1).trans_lt hfew

theorem Sound.wait (h : Sound st) (hn : n ∈ st.zRangeAvl) (hm : NodeOk m)
    (hgrant : m.grant = n.grant) (hcnt : m.rCnt = n.rCnt) (hproxy : m.rProxy = n.rProxy) (cv : Cv) :
    Rounded st (.wait cv, st.write m) := by
  obtain ⟨tree, away, b⟩ := st
  obtain ⟨A, C, rfl⟩ := append_of_mem hn
  have hwrite := h.shape.write away m (congrArg Grant.addr hgrant) b
  have hgranted := granted_mark (A := A) (C := C) away b hgrant hproxy
  rw [hwrite]
  exact ⟨h.mark hm hgrant hcnt hproxy, by rw [hgranted]⟩

variable {len : ℕ}

theorem Sound.addsReader {st' : Locks} (h : Sound ⟨tree, away, b⟩) (hlen : 0 < len)
    (hfit : off + len < 2 ^ 64) (hfew : (granted ⟨tree, away, b⟩).length + 1 < 2 ^ 32)
    (hadds : AddsReader tree away (b + 1) (Locks.newRl ⟨tree, away, b⟩ off len .reader) st') :
    Rounded ⟨tree, away, b⟩
      (.granted (Locks.newRl ⟨tree, away, b⟩ off len .reader).grant, st') := by
  cases hadds with
  | @alone A C htree hA hC =>
    subst htree
    have hm : NodeOk (Locks.newRl ⟨A ++ C, away, b⟩ off len .reader) :=
      .of_reader hlen hfit one_pos rfl (fun _ => rfl) rfl
    exact ⟨h.insert hm rfl rfl hA hC hfew, granted_insert rfl away _ _⟩
  | shared hover hshape haway =>
    have hnew : AwayOk { Locks.newRl ⟨tree, away, b⟩ off len .reader with rCnt := 0 } :=
      ⟨hlen, hfit, rfl, rfl, rfl, rfl, rfl⟩
    obtain ⟨hsound, hperm⟩ := h.share rfl hover hshape haway hnew hfew
    exact ⟨hsound, hperm⟩

section

variable (h : Sound st) (hfew : (granted st).length + 1 < 2 ^ 32) (hlen : 0 < len)
  (hfit : off + len < 2 ^ 64)

include h hfew hlen hfit

theorem zfsRangeLockReader_spec :
    ∃ res, zfsRangeLockReader st off len = .ok res ∧ Rounded st res := by
  rw [zfsRangeLockReader]
  cases hb : readerBlocker st.zRangeAvl off (off + len) with
  | some rl =>
    obtain ⟨hmem, hblocks⟩ := readerBlocker_some h.shape hb
    have hok := h.nodes rl hmem
    have hm : NodeOk { rl with rReadWanted := true } := { hok with waits := fun _ => hblocks }
    exact ⟨_, rfl, h.wait hmem hm rfl rfl rfl _⟩
  | none =>
    obtain ⟨tree, away, b⟩ := st
    have hfree := readerBlocker_none h.shape hb
    obtain ⟨st', hadd, hadds⟩ := zfsRangeAddReader_spec away
      (Locks.newRl ⟨tree, away, b⟩ off len .reader) (h.shape.mono (le_succ b)) hfit
      (Nat.lt_add_of_pos_right hlen) fun n hn hlt hgt => h.sharable hfew hn (hfree n hn hlt hgt)
    refine ⟨(.granted (Locks.newRl ⟨tree, away, b⟩ off len .reader).grant, st'), ?_,
      h.addsReader hlen hfit hfew hadds⟩
    rw [show zfsRangeAddReader ⟨tree, away, b + 1⟩ _ (readerPrev tree off) (avlWhere tree off)
      = .ok st' from hadd]
    rfl

omit h hfew hlen hfit in
theorem addWriter_spec (h : Shape (A ++ C) b)
    (hwhere : avlWhere (A ++ C) new.rOff = A.length) (hlt : new.rOff < new.stop)
    (hA : ∀ a ∈ A, a.stop ≤ new.rOff) (hC : ∀ c ∈ C, new.stop ≤ c.rOff) :
    addWriter ⟨A ++ C, away, b⟩ new = .ok ⟨A ++ new :: C, away, b + 1⟩ := by
  rw [addWriter]
  split_ifs
  · simp only [h.avlAdd hA hlt hC]
    rfl
  · rw [hwhere, insertAt_append]

theorem tryWriter_spec : ∃ res, tryWriter st off len = .ok res ∧ Rounded st res := by
  rw [tryWriter]
  cases hb : writerBlocker st.zRangeAvl off (off + len) with
  | some rl =>
    have hmem := writerBlocker_some hb
    have hok := h.nodes rl hmem
    have hm : NodeOk { rl with rWriteWanted := true } :=
      { hok with waits := fun _ => Bool.or_true _ }
    exact ⟨_, rfl, h.wait hmem hm rfl rfl rfl _⟩
  | none =>
    obtain ⟨tree, away, b⟩ := st
    obtain ⟨A, C, htree, hwhere, hA, hC⟩ := writerBlocker_none h.shape hb
    subst htree
    have hm : NodeOk (Locks.newRl ⟨A ++ C, away, b⟩ off len .writer) :=
      ⟨hlen, hfit, one_pos, nofun, nofun, fun _ => rfl, nofun⟩
    refine ⟨(.granted (Locks.newRl ⟨A ++ C, away, b⟩ off len .writer).grant,
      ⟨A ++ Locks.newRl ⟨A ++ C, away, b⟩ off len .writer :: C, away, b + 1⟩), ?_,
      h.insert hm rfl rfl hA hC hfew, granted_insert rfl away _ _⟩
    simp only [addWriter_spec h.shape hwhere hm.lt hA hC]
    rfl

variable {z : Option Zpl}

omit h hfew in
theorem writerRange_fits (type : RlType) (hz : ∀ f ∈ z, f.zpSize + len < 2 ^ 64) :
    0 < (writerRange z off len type).2
      ∧ (writerRange z off len type).1 + (writerRange z off len type).2 < 2 ^ 64 := by
  rw [writerRange]
  split_ifs with hgrow
  · exact ⟨by decide, by decide⟩
  refine ⟨hlen, ?_⟩
  cases z with
  | none => exact hfit
  | some f =>
    rw [writeOff]
    split_ifs
    · exact hz f rfl
    · exact hfit

theorem lockRound_spec (type : RlType) (hz : ∀ f ∈ z, f.zpSize + len < 2 ^ 64) :
    ∃ res, lockRound st z off len type = .ok res ∧ Rounded st res := by
  rw [lockRound]
  split_ifs
  · exact zfsRangeLockReader_spec h hfew hlen hfit
  · obtain ⟨hlen', hfit'⟩ := writerRange_fits hlen hfit type hz
    exact tryWriter_spec h hfew hlen' hfit'

theorem zfsRangeLock_spec (type : RlType) (hz : ∀ f ∈ z, f.zpSize + len < 2 ^ 64) :
    ∃ res, zfsRangeLock st z off len type = .ok res ∧ Rounded st res := by
  rw [zfsRangeLock]
  split_ifs with hempty
  · obtain ⟨tree, away, b⟩ := st
    have htree : tree = [] ++ [] := length_eq_zero_iff.mp hempty.2
    subst htree
    have hadds : AddsReader ([] ++ []) away (b + 1)
        (Locks.newRl ⟨[] ++ [], away, b⟩ off len .reader)
        ⟨[] ++ Locks.newRl ⟨[] ++ [], away, b⟩ off len .reader :: [], away, b + 1⟩ :=
      .alone rfl nofun nofun
    exact ⟨_, rfl, h.addsReader hlen hfit hfew hadds⟩
  · exact lockRound_spec h hfew hlen hfit type hz

end

def dropped (n : Rl) : List Rl := if n.rCnt = 1 then [] else [{ n with rCnt := n.rCnt - 1 }]

theorem mem_dropped : m ∈ dropped n ↔ n.rCnt ≠ 1 ∧ m = { n with rCnt := n.rCnt - 1 } := by
  rw [dropped]
  split_ifs with h <;> simp [h]

theorem Shape.drop (h : Shape (A ++ n :: C) b) : Shape ((A ++ dropped n) ++ C) b := by
  rw [dropped]
  split_ifs with h1
  · rw [append_nil]
    exact h.remove
  · rw [append_assoc]
    exact h.replace le_rfl h.around.1 le_rfl le_rfl (.inl rfl)

theorem dropRef_spec (away : List Rl) (h : Shape (A ++ n :: C) b) (hpos : 0 < n.rCnt)
    (hlt : n.rCnt < 2 ^ 32) :
    ∃ cvs, dropRef ⟨A ++ n :: C, away, b⟩ n = .ok (⟨(A ++ dropped n) ++ C, away, b⟩, cvs) := by
  have hcnt : (n.rCnt + 2 ^ 32 - 1) % 2 ^ 32 = n.rCnt - 1 := by omega
  rw [dropRef, hcnt, dropped]
  by_cases h1 : n.rCnt = 1
  · refine ⟨n.wanted, ?_⟩
    rw [if_pos h1, if_pos (by omega), append_nil]
    simp only [h.avlRemove rfl]
    rfl
  · refine ⟨[], ?_⟩
    rw [if_neg h1, if_neg (by omega), h.write away { n with rCnt := n.rCnt - 1 } rfl, append_assoc]
    rfl

variable {M : List Rl}

/-- **THE RELEASE**: each proxy of the range loses one reference, and nothing panics. -/
theorem unlockLoop_spec (away : List Rl) {s e : ℕ} (fuel : ℕ) (h : Shape (A ++ (n :: M ++ C)) b)
    (ht : Tiles Rl.rOff Rl.stop (n :: M) s e) (hfit : e < 2 ^ 64)
    (hM : ∀ p ∈ n :: M, 0 < p.rCnt ∧ p.rCnt < 2 ^ 32 ∧ p.rType = .reader)
    (hfuel : (n :: M).length ≤ fuel) :
    ∃ cvs, unlockLoop fuel ⟨A ++ (n :: M ++ C), away, b⟩ n (e - s)
        = .ok (⟨A ++ ((n :: M).flatMap dropped ++ C), away, b⟩, cvs)
      ∧ Shape (A ++ ((n :: M).flatMap dropped ++ C)) b := by
  -- what is left of the range behind `n`
  have hleft : ∀ {n : Rl} {s : ℕ}, n.rOff = s → n.stop ≤ e →
      (e - s + 2 ^ 64 - n.rLen) % 2 ^ 64 = e - n.stop := by
    intro n s hoff hle
    rw [Rl.stop] at hle ⊢
    omega
  induction M generalizing A n s fuel with
  | nil =>
    obtain ⟨fuel, rfl⟩ := exists_eq_succ_of_ne_zero (ne_zero_of_lt hfuel)
    obtain ⟨hoff, hstop⟩ := ht
    obtain ⟨hpos, hlt, -⟩ := hM n mem_cons_self
    rw [singleton_append] at h ⊢
    obtain ⟨cvs, hdrop⟩ := dropRef_spec away h hpos hlt
    have hstop' : n.stop = e := hstop
    rw [unlockLoop, hleft hoff hstop'.le, hstop', Nat.sub_self, hdrop]
    have hone : ([n].flatMap dropped) = dropped n := by simp
    rw [hone, ← append_assoc]
    exact ⟨cvs, rfl, h.drop⟩
  | cons p M ih =>
    obtain ⟨fuel, rfl⟩ := exists_eq_succ_of_ne_zero (ne_zero_of_lt hfuel)
    obtain ⟨hoff, ht'⟩ := ht
    have hnext : p.rOff = n.stop := ht'.1
    obtain ⟨⟨hpos, hlt, -⟩, hM'⟩ := forall_mem_cons.mp hM
    obtain ⟨hpos', -, hreader⟩ := hM' p mem_cons_self
    have hlist : n :: p :: M ++ C = n :: (p :: M ++ C) := rfl
    rw [hlist] at h ⊢
    have hlo : n.stop < e := by
      have hne : ∀ q ∈ p :: M, q.rOff < q.stop := fun q hq => h.ordered.nonempty q
        (mem_append_right _ (mem_cons_of_mem _ (mem_append_left _ hq)))
      obtain ⟨hp, hne'⟩ := forall_mem_cons.mp hne
      exact (hnext ▸ hp).trans_le (ht'.2.le hne')
    obtain ⟨cvs, hdrop⟩ := dropRef_spec away h hpos hlt
    obtain ⟨cvs', hloop, hshape⟩ := ih fuel h.drop ht' hM' (le_of_succ_le_succ hfuel)
    have hflat : (A ++ dropped n) ++ ((p :: M).flatMap dropped ++ C)
        = A ++ ((n :: p :: M).flatMap dropped ++ C) := by simp
    rw [hflat] at hloop hshape
    refine ⟨cvs ++ cvs', ?_, hshape⟩
    have hguard : ¬ (n.stop ≠ p.rOff ∨ p.rCnt = 0 ∨ p.rType ≠ .reader) := by
      rw [hnext, hreader]
      simp [hpos'.ne']
    rw [unlockLoop, hleft hoff hlo.le, if_neg (sub_ne_zero_of_lt hlo), h.avlNext rfl]
    show (if _ then _ else _) = _
    rw [if_neg hguard, hdrop]
    simp only [hloop, bind, Except.bind]
    rfl

theorem refs_append (S T : List Rl) (x : ℕ) : refs (S ++ T) x = refs S x + refs T x := load_append

theorem refs_dropped (hpos : 0 < n.rCnt) (x : ℕ) :
    refs [n] x = refs (dropped n) x + ind n.rOff n.stop x := by
  have hone : refs [n] x = if n.rOff ≤ x ∧ x < n.stop then n.rCnt else 0 := by
    rw [refs, load_cons, load_nil, add_zero]
  rw [hone, ind, dropped]
  by_cases h1 : n.rCnt = 1
  · rw [h1]
    exact (zero_add _).symm
  rw [if_neg h1, refs, load_cons]
  show _ = (if n.rOff ≤ x ∧ x < n.stop then n.rCnt - 1 else 0) + 0 + _
  split_ifs
  · omega
  · rfl

theorem refs_flatMap_dropped {s e : ℕ} (ht : Tiles Rl.rOff Rl.stop M s e)
    (hpos : ∀ p ∈ M, 0 < p.rCnt) (hne : ∀ p ∈ M, p.rOff < p.stop) (x : ℕ) :
    refs M x = refs (M.flatMap dropped) x + ind s e x := by
  induction M generalizing s with
  | nil =>
    have hse : s = e := ht
    rw [hse, ind_self]
    rfl
  | cons n M ih =>
    obtain ⟨hoff, ht'⟩ := ht
    obtain ⟨hp, hpos'⟩ := forall_mem_cons.mp hpos
    obtain ⟨hlt, hne'⟩ := forall_mem_cons.mp hne
    have hcut : ind s n.stop x + ind n.stop e x = ind s e x :=
      ite_range_cut (hoff ▸ hlt.le) (ht'.le hne')
    have hsplit : refs (n :: M) x = refs [n] x + refs M x := refs_append [n] M x
    rw [hsplit, refs_dropped hp, ih ht' hpos' hne', flatMap_cons, refs_append, ← hcut, hoff]
    exact add_add_add_comm _ _ _ _

theorem perm_filter_addr {l : List Rl} (hnd : (l.map Rl.addr).Nodup) (hn : n ∈ l) :
    l.Perm (n :: l.filter fun h => !Rl.isAt n.addr h) := by
  obtain ⟨X, Y, rfl⟩ := append_of_mem hn
  obtain ⟨hX, hY⟩ := others_of_nodup hnd
  rw [filter_not_append hX (beq_self_eq_true _) hY]
  exact perm_middle

theorem addr_flatMap_dropped (M : List Rl) :
    ((M.flatMap dropped).map Rl.addr).Sublist (M.map Rl.addr) := by
  induction M with
  | nil => exact List.Sublist.refl _
  | cons n M ih =>
    rw [flatMap_cons, dropped]
    split_ifs
    · exact ih.cons n.addr
    · exact ih.cons_cons n.addr

variable {r : Rl}

theorem Sound.release (h : Sound ⟨A ++ (M ++ C), away, b⟩) (hr : r ∈ away)
    (ht : Tiles Rl.rOff Rl.stop M r.rOff r.stop)
    (hM : ∀ p ∈ M, p.rProxy = true ∧ r.rOff ≤ p.rOff ∧ p.stop ≤ r.stop)
    (hshape : Shape (A ++ (M.flatMap dropped ++ C)) b) :
    Sound ⟨A ++ (M.flatMap dropped ++ C), away.filter fun h => !Rl.isAt r.addr h, b⟩
      ∧ (granted ⟨A ++ (M ++ C), away, b⟩).Perm (r.grant ::
          granted ⟨A ++ (M.flatMap dropped ++ C), away.filter fun h => !Rl.isAt r.addr h, b⟩) := by
  have hmemM : ∀ p ∈ M, p ∈ A ++ (M ++ C) := fun p hp =>
    mem_append_right _ (mem_append_left _ hp)
  have hndaway : (away.map Rl.addr).Nodup := by
    have hnd := h.addrs
    rw [map_append] at hnd
    exact (nodup_append.mp hnd).2.1
  have hperm := perm_filter_addr hndaway hr
  have hproxies : ∀ p ∈ M.flatMap dropped, p.rProxy = true := by
    intro p hp
    obtain ⟨q, hq, hpq⟩ := mem_flatMap.mp hp
    obtain ⟨-, rfl⟩ := mem_dropped.mp hpq
    exact (hM q hq).1
  have howned : owned (A ++ (M.flatMap dropped ++ C)) = owned (A ++ (M ++ C)) := by
    rw [owned_append, owned_append, owned_append, owned_append, owned_proxies hproxies,
      owned_proxies fun p hp => (hM p hp).1]
  have hgrants : (granted ⟨A ++ (M ++ C), away, b⟩).Perm (r.grant ::
      granted ⟨A ++ (M.flatMap dropped ++ C), away.filter fun h => !Rl.isAt r.addr h, b⟩) := by
    rw [granted, granted, howned]
    exact ((hperm.append_left _).trans perm_middle).map _
  -- the nodes that are left are old nodes, or proxies with a smaller count
  have hnode : ∀ q ∈ A ++ (M.flatMap dropped ++ C), q ∈ A ++ (M ++ C)
      ∨ ∃ p ∈ M, p.rCnt ≠ 1 ∧ q = { p with rCnt := p.rCnt - 1 } := by
    intro q hq
    rcases mem_append.mp hq with hq | hq
    · exact .inl (mem_append_left _ hq)
    rcases mem_append.mp hq with hq | hq
    · obtain ⟨p, hp, hpq⟩ := mem_flatMap.mp hq
      exact .inr ⟨p, hp, mem_dropped.mp hpq⟩
    · exact .inl (mem_append_right _ (mem_append_right _ hq))
  refine ⟨⟨hshape, ?_, ?_, ?_, ?_, ?_, ?_, ?_⟩, hgrants⟩
  · refine h.addrs.sublist ?_
    simp only [map_append]
    refine List.Sublist.append (List.Sublist.append_left ?_ _) (filter_sublist.map _)
    exact (addr_flatMap_dropped M).append_right _
  · exact fun d hd => h.below d (mem_filter.mp hd).1
  · intro q hq
    rcases hnode q hq with hq | ⟨p, hp, hne, rfl⟩
    · exact h.nodes q hq
    have hok := h.nodes p (hmemM p hp)
    have hcnt : 0 < p.rCnt - 1 := by
      have := hok.cnt
      omega
    exact { hok with cnt := hcnt, own := fun hf => absurd ((hM p hp).1.symm.trans hf) nofun }
  · exact fun d hd => h.away d (mem_filter.mp hd).1
  · intro x
    have hbal := h.balance x
    have hdrop := refs_flatMap_dropped ht (fun p hp => (h.nodes p (hmemM p hp)).cnt)
      (fun p hp => (h.nodes p (hmemM p hp)).lt) x
    rw [covering_perm hgrants, covering_cons] at hbal
    have hbal' : refs (A ++ (M ++ C)) x = _ := hbal
    have hind : ind r.grant.off r.grant.stop x = ind r.rOff r.stop x := rfl
    rw [refs_append, refs_append] at hbal' ⊢
    omega
  · intro d hd x hlo hhi
    obtain ⟨hdmem, hdne⟩ := mem_filter.mp hd
    obtain ⟨p, hp, hin⟩ := h.tiled d hdmem x hlo hhi
    rcases mem_append.mp hp with hpA | hp
    · exact ⟨p, mem_append_left _ hpA, hin⟩
    rcases mem_append.mp hp with hpM | hpC
    · -- both locks cover the proxy, so a reference is left
      obtain ⟨hp1, hp2, hp3, hp4, hp5⟩ := hin
      obtain ⟨-, hlo', hhi'⟩ := hM p hpM
      have htwo : 2 ≤ covering (granted ⟨A ++ (M ++ C), away, b⟩) x := by
        refine two_le_covering (w := r.grant) (g := d.grant) ?_ ?_ ?_ ?_ ?_
        · exact mem_map_of_mem (mem_append_right _ hr)
        · exact mem_map_of_mem (mem_append_right _ hdmem)
        · intro heq
          have haddr : d.addr = r.addr := congrArg Grant.addr heq
          rw [Rl.isAt, haddr] at hdne
          simp at hdne
        · exact ⟨hlo'.trans hp3, hp4.trans_le hhi'⟩
        · exact ⟨hlo, hhi⟩
      rw [← h.rCnt_eq (hmemM p hpM) ⟨hp3, hp4⟩] at htwo
      refine ⟨{ p with rCnt := p.rCnt - 1 }, ?_, hp1, hp2, hp3, hp4, hp5⟩
      refine mem_append_right _ (mem_append_left _ (mem_flatMap.mpr ⟨p, hpM, ?_⟩))
      exact mem_dropped.mpr ⟨by omega, rfl⟩
    · exact ⟨p, mem_append_right _ (mem_append_right _ hpC), hin⟩
  · have hlen := hgrants.length_eq
    have hfew := h.few
    rw [length_cons] at hlen
    omega

section

variable (h : Sound st)

include h

theorem Sound.deref (hn : n ∈ st.zRangeAvl ++ st.away) : st.deref n.addr = some n := by
  have hnd := h.addrs
  rw [Locks.deref]
  obtain ⟨X, Y, hxy⟩ := append_of_mem hn
  rw [hxy] at hnd
  have hX : X.find? (Rl.isAt n.addr) = none :=
    find?_eq_none.mpr fun a ha => Bool.eq_false_iff.mp ((others_of_nodup hnd).1 a ha)
  have hn' : Rl.isAt n.addr n = true := beq_self_eq_true _
  rw [hxy, find?_append, hX, Option.none_or, find?_cons_of_pos hn']

theorem Sound.exists_tiles (hr : r ∈ st.away) :
    ∃ A M C, st.zRangeAvl = A ++ (M ++ C) ∧ Tiles Rl.rOff Rl.stop M r.rOff r.stop
      ∧ ∀ p ∈ M, p.rProxy = true ∧ r.rOff ≤ p.rOff ∧ p.stop ≤ r.stop := by
  refine h.shape.ordered.exists_tiles (Nat.lt_add_of_pos_right (h.away r hr).len) ?_
  intro x hlo hhi
  obtain ⟨p, hp, hin⟩ := h.tiled r hr x hlo hhi
  exact ⟨p, hp, hin⟩

theorem releaseShared_spec (hr : r ∈ st.away) :
    ∃ st' cvs, releaseShared st r = .ok (st', cvs)
      ∧ Sound { st' with away := st'.away.filter fun h => !Rl.isAt r.addr h }
      ∧ (granted st).Perm
          (r.grant :: granted { st' with away := st'.away.filter fun h => !Rl.isAt r.addr h }) := by
  obtain ⟨A, M, C, htree, ht, hM⟩ := h.exists_tiles hr
  obtain ⟨tree, away, b⟩ := st
  subst htree
  have hok := h.away r hr
  cases M with
  | nil =>
    have heq : r.rOff = r.stop := ht
    exact absurd heq (Nat.lt_add_of_pos_right hok.len).ne
  | cons p M =>
    have hfirst : p.rOff = r.rOff := ht.1
    have hmemM : ∀ q ∈ p :: M, q ∈ A ++ (p :: M ++ C) := fun q hq =>
      mem_append_right _ (mem_append_left _ hq)
    have hp := h.nodes p (hmemM p mem_cons_self)
    have hcounts : ∀ q ∈ p :: M, 0 < q.rCnt ∧ q.rCnt < 2 ^ 32 ∧ q.rType = .reader := by
      intro q hq
      have hq' := h.nodes q (hmemM q hq)
      exact ⟨hq'.cnt, (h.rCnt_le (hmemM q hq)).trans_lt h.few, hq'.reader (hM q hq).1⟩
    have hfind : avlFind (A ++ (p :: M ++ C)) r.rOff = some p := by
      have hA : ∀ a ∈ A, a.rOff < r.rOff := by
        intro a ha
        have hlt := h.shape.ordered.nonempty a (mem_append_left _ ha)
        exact hlt.trans_le (hfirst ▸ h.shape.around.2.1 a ha)
      rw [avlFind, find?_key_append hA, cons_append, find?_cons_of_pos (by simpa using hfirst)]
    have hfuel : (p :: M).length ≤ (A ++ (p :: M ++ C)).length + 1 := by
      rw [length_append, length_append]
      omega
    obtain ⟨cvs, hloop, hshape⟩ := unlockLoop_spec away _ h.shape ht hok.fits hcounts hfuel
    obtain ⟨hsound, hperm⟩ := h.release hr ht hM hshape
    refine ⟨⟨A ++ ((p :: M).flatMap dropped ++ C), away, b⟩, cvs, ?_, hsound, hperm⟩
    have hguard : ¬ (p.rCnt = 0 ∨ p.rType ≠ .reader) := by
      rw [hp.reader (hM p mem_cons_self).1]
      simp [hp.cnt.ne']
    have hlen : r.stop - r.rOff = r.rLen := Nat.add_sub_cancel_left _ _
    rw [hlen] at hloop
    rw [releaseShared]
    rw [hfind]
    dsimp only
    rw [if_neg hguard, if_neg hok.len.ne', hloop]

theorem zfsRangeUnlock_spec (hg : g ∈ granted st) :
    ∃ st' cvs, zfsRangeUnlock st g.addr = .ok (st', cvs) ∧ Sound st'
      ∧ (granted st).Perm (g :: granted st') := by
  rcases mem_granted hg with ⟨n, hn, hown, rfl⟩ | ⟨n, hn, rfl⟩
  · have hok := h.nodes n hn
    have hderef := h.deref (mem_append_left _ hn)
    obtain ⟨tree, away, b⟩ := st
    obtain ⟨A, C, rfl⟩ := append_of_mem hn
    refine ⟨⟨A ++ C, away, b⟩, n.wanted, ?_, h.remove hown, granted_insert hown away _ _⟩
    have hguard : ¬ (n.rType = .append ∨ 1 < n.rCnt ∨ n.rProxy = true) := by
      rw [hok.own hown, hown]
      simp [hok.type]
    have hremove := h.shape.avlRemove (m := n) rfl
    rw [zfsRangeUnlock, show n.grant.addr = n.addr from rfl, hderef]
    dsimp only
    split_ifs with hwriter
    · simp only [hremove]
      rfl
    · rw [zfsRangeUnlockReader, if_pos (hok.own hown)]
      simp only [hremove]
      rfl
  · have hok := h.away n hn
    have hderef := h.deref (mem_append_right _ hn)
    obtain ⟨st', cvs, hrel, hsound, hperm⟩ := releaseShared_spec h hn
    refine ⟨_, cvs, ?_, hsound, hperm⟩
    have hguard : ¬ (n.rType = .append ∨ 1 < n.rCnt ∨ n.rProxy = true) := by
      rw [hok.reader, hok.cnt, hok.own]
      simp
    have hguard' : ¬ (n.rCnt ≠ 0 ∨ n.rWriteWanted = true ∨ n.rReadWanted = true) := by
      rw [hok.cnt, hok.noWriter, hok.noReader]
      simp
    have hreader : ¬ n.rType = .writer := by
      rw [hok.reader]
      exact nofun
    have hcnt : ¬ n.rCnt = 1 := by
      rw [hok.cnt]
      decide
    rw [zfsRangeUnlock, show n.grant.addr = n.addr from rfl, hderef]
    dsimp only
    rw [if_neg hguard, if_neg hreader, zfsRangeUnlockReader, if_neg hcnt, if_neg hguard']
    simp only [hrel]
    rfl

theorem Sound.alone (hg : g ∈ granted st) (htype : g.type = .writer)
    (hall : g.stop - g.off = 2 ^ 64 - 1) :
    ∃ n, st.zRangeAvl = [n] ∧ st.away = [] ∧ n.grant = g ∧ n.rOff = 0 ∧ n.rLen = 2 ^ 64 - 1
      ∧ n.rProxy = false := by
  rcases mem_granted hg with ⟨n, hn, hown, rfl⟩ | ⟨n, hn, rfl⟩
  swap
  · exact absurd ((h.away n hn).reader.symm.trans htype) nofun
  have hok := h.nodes n hn
  have hlen : n.rLen = 2 ^ 64 - 1 := by
    have hsub : n.stop - n.rOff = n.rLen := Nat.add_sub_cancel_left _ _
    exact hsub.symm.trans hall
  have hoff : n.rOff = 0 := by
    have hfits := hok.fits
    rw [Rl.stop] at hfits
    omega
  have hstop : n.stop = 2 ^ 64 - 1 := by rw [Rl.stop, hoff, hlen, zero_add]
  obtain ⟨tree, away, b⟩ := st
  obtain ⟨A, C, rfl⟩ := append_of_mem hn
  obtain ⟨-, hA, hC⟩ := h.shape.around
  have hAnil : A = [] := by
    refine eq_nil_iff_forall_not_mem.mpr fun a ha => ?_
    have hlt := h.shape.ordered.nonempty a (mem_append_left _ ha)
    exact absurd (hlt.trans_le (hA a ha)) (by rw [hoff]; exact not_lt_zero _)
  have hCnil : C = [] := by
    refine eq_nil_iff_forall_not_mem.mpr fun c hc => ?_
    have hmem : c ∈ A ++ n :: C := mem_append_right _ (mem_cons_of_mem _ hc)
    have hlt := h.shape.ordered.nonempty c hmem
    have hfits := (h.nodes c hmem).fits
    have hge := hC c hc
    omega
  subst hAnil hCnil
  refine ⟨n, rfl, ?_, rfl, hoff, hlen, hown⟩
  refine eq_nil_iff_forall_not_mem.mpr fun d hd => ?_
  obtain ⟨p, hp, hin⟩ := h.tiled d hd d.rOff le_rfl (Nat.lt_add_of_pos_right (h.away d hd).len)
  obtain rfl := mem_singleton.mp hp
  cases hown.symm.trans hin.1

/-- **REDUCE**: the lock on the whole file becomes one on a range. -/
theorem zfsRangeReduce_spec (hg : g ∈ granted st) (htype : g.type = .writer)
    (hall : g.stop - g.off = 2 ^ 64 - 1) (hlen : 0 < len) (hfit : off + len < 2 ^ 64) :
    ∃ st' cvs, zfsRangeReduce st g.addr off len = .ok (st', cvs) ∧ Sound st' ∧ granted st = [g]
      ∧ granted st' = [{ g with off := off, stop := off + len }] := by
  obtain ⟨n, htree, haway, rfl, hoff0, hlen0, hown⟩ := h.alone hg htype hall
  have hmem : n ∈ st.zRangeAvl := by
    rw [htree]
    exact mem_singleton_self n
  have hderef := h.deref (mem_append_left _ hmem)
  have hok := h.nodes n hmem
  obtain ⟨tree, away, b⟩ := st
  subst htree haway
  have htype' : n.rType = .writer := htype
  have hgrant : ∀ m : Rl, m.rProxy = false → granted ⟨[m], [], b⟩ = [m.grant] := by
    intro m hm
    rw [granted]
    rw [owned_cons, hm]
    rfl
  have hguard : ¬ ([n].length ≠ 1 ∨ n.rOff ≠ 0 ∨ n.rType ≠ .writer ∨ n.rProxy = true
      ∨ n.rLen ≠ 2 ^ 64 - 1 ∨ n.rCnt ≠ 1) := by
    rw [hoff0, htype', hown, hlen0, hok.own hown]
    simp
  have hwrite : Locks.write ⟨[n], [], b⟩ { n with rOff := off, rLen := len }
      = ⟨[{ n with rOff := off, rLen := len }], [], b⟩ :=
    Shape.write (A := []) (C := []) [] h.shape { n with rOff := off, rLen := len } rfl b
  have hgrant' := hgrant { n with rOff := off, rLen := len } hown
  refine ⟨⟨[{ n with rOff := off, rLen := len }], [], b⟩, n.wanted, ?_, ?_, hgrant n hown, hgrant'⟩
  · rw [zfsRangeReduce, show n.grant.addr = n.addr from rfl, hderef]
    dsimp only
    rw [if_neg hguard, hwrite]
  have hm : NodeOk { n with rOff := off, rLen := len } := { hok with len := hlen, fits := hfit }
  refine ⟨⟨⟨forall_mem_singleton.mpr hm.lt, pairwise_singleton _ _⟩, by simp,
    forall_mem_singleton.mpr (h.shape.below n (mem_singleton_self n))⟩, by simp,
    nofun, forall_mem_singleton.mpr hm, nofun, ?_, nofun, ?_⟩
  · intro x
    rw [hgrant', covering_cons, refs, load_cons, hm.own hown]
    exact add_comm _ _
  · rw [hgrant']
    show 1 < 2 ^ 32
    decide

end

end Sirius.Rlock
