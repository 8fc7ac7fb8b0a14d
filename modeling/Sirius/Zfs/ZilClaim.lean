import Mathlib.Data.List.Induction
import Sirius.Zfs.Zil

/-! # Claiming, replaying and destroying a log

    `zil_claim`, the checks of `zil_replay_log_record` and `zil_destroy` of an unreplayed log are
    three parses of one chain, between which blocks of it may be lost or come back.  They agree
    about the blocks in front of the one at which the claim stopped.  That block was claimed
    unread; if it can be read later, its records are replayed and its data blocks freed
    although nobody claimed them. -/

namespace Sirius.Zil

open List

/-- `zl_dva_tree` and the blocks claimed or freed so far. -/
structure Pass where
  tree : List Nat
  done : List Blkptr
  deriving DecidableEq

def Pass.empty : Pass := ⟨[], []⟩

def Pass.dvas (s : Pass) : List Nat := s.done.map Blkptr.dva

/-- `zil_dva_tree_add`; `none` is `EEXIST`. -/
def dvaTreeAdd (t : List Nat) (dva : Nat) : Option (List Nat) :=
  if dva ∈ t then none else some (dva :: t)

/-- `zil_claim_log_block`. -/
def claimLogBlock (firstTxg : Nat) (bp : Blkptr) (s : Pass) : Pass :=
  if bp.birth ≥ firstTxg then
    match dvaTreeAdd s.tree bp.dva with
    | some t => ⟨t, s.done ++ [bp]⟩
    | none => s
  else s

/-- `zil_claim_log_record`. -/
def claimLogRecord (firstTxg : Nat) (r : Record) (s : Pass) : Pass :=
  match r.body with
  | .write bp => claimLogBlock firstTxg bp s
  | .other _ => s

/-- `zil_free_log_block`. -/
def freeLogBlock (bp : Blkptr) (s : Pass) : Pass := { s with done := s.done ++ [bp] }

/-- `zil_free_log_record`. -/
def freeLogRecord (claimTxg : Nat) (r : Record) (s : Pass) : Pass :=
  match r.body with
  | .write bp =>
    if claimTxg ≠ 0 ∧ bp.birth ≥ claimTxg then
      match dvaTreeAdd s.tree bp.dva with
      | some t => ⟨t, s.done ++ [bp]⟩
      | none => s
    else s
  | .other _ => s

/-- `zil_claim` in the first txg after the last synced one: the header it leaves and the blocks
    it claims. -/
def zilClaim (media : Media) (zh : Header) (firstTxg fuel : Nat) : Option (Header × Pass) :=
  if zh.claimTxg = 0 ∧ ¬ zh.log.IsHole then
    let zh := { zh with claimTxg := firstTxg }
    (zilParse media zh (claimLogBlock firstTxg) (claimLogRecord firstTxg) fuel .empty).map
      fun (maxSeq, s) => ({ zh with claimSeq := maxSeq }, s)
  else some (zh, .empty)

/-- The blocks that `zil_destroy` frees when no log block is in memory. -/
def zilDestroy (media : Media) (zh : Header) (fuel : Nat) : Option Pass :=
  if zh.log.IsHole then some .empty
  else
    (zilParse media zh freeLogBlock (freeLogRecord zh.claimTxg) fuel .empty).map Prod.snd

/-- The checks at the top of `zil_replay_log_record`. -/
def Offered (zh : Header) (r : Record) : Prop := ¬ r.txg < zh.claimTxg ∧ ¬ r.seq ≤ zh.replaySeq

instance (zh : Header) (r : Record) : Decidable (Offered zh r) :=
  inferInstanceAs (Decidable (_ ∧ _))

/-- The records that the parse of `zil_replay` offers for replay. -/
def zilReplayOffers (media : Media) (zh : Header) (fuel : Nat) : Option (List Record) :=
  (zilParse media zh (fun _ s => s) (fun r s => if Offered zh r then s ++ [r] else s) fuel
    []).map Prod.snd

/-! ## The blocks of a list of events -/

def Event.logBlock? : Event → Option Blkptr
  | blk bp => some bp
  | lr _ => none

def Event.dataBlock? : Event → Option Blkptr
  | lr ⟨_, _, _, .write bp⟩ => some bp
  | _ => none

def logBlocks (events : List Event) : List Blkptr := events.filterMap Event.logBlock?

def dataBlocks (events : List Event) : List Blkptr := events.filterMap Event.dataBlock?

theorem logBlocks_append (a b : List Event) : logBlocks (a ++ b) = logBlocks a ++ logBlocks b :=
  filterMap_append ..

theorem dataBlocks_append (a b : List Event) : dataBlocks (a ++ b) = dataBlocks a ++ dataBlocks b :=
  filterMap_append ..

section Folds

variable {txg : Nat} {s : Pass}

theorem dvas_concat (t : List Nat) (bp : Blkptr) :
    Pass.dvas ⟨t, s.done ++ [bp]⟩ = s.dvas ++ [bp.dva] :=
  map_append ..

theorem claimLogBlock_cases (txg : Nat) (bp : Blkptr) (s : Pass) :
    claimLogBlock txg bp s = s ∧ (txg ≤ bp.birth → bp.dva ∈ s.tree) ∨
      txg ≤ bp.birth ∧ bp.dva ∉ s.tree ∧
        claimLogBlock txg bp s = ⟨bp.dva :: s.tree, s.done ++ [bp]⟩ := by
  by_cases hb : bp.birth ≥ txg
  · by_cases hd : bp.dva ∈ s.tree
    · exact .inl ⟨by simp only [claimLogBlock, if_pos hb, dvaTreeAdd, if_pos hd], fun _ => hd⟩
    · exact .inr ⟨hb, hd, by simp only [claimLogBlock, if_pos hb, dvaTreeAdd, if_neg hd]⟩
  · exact .inl ⟨if_neg hb, fun h => absurd h hb⟩

def Pass.Tracked (s : Pass) : Prop := ∀ d, d ∈ s.tree ↔ d ∈ s.dvas

theorem Pass.Tracked.claimLogBlock (h : s.Tracked) (txg : Nat) (bp : Blkptr) :
    (claimLogBlock txg bp s).Tracked ∧
      ∀ d, d ∈ (claimLogBlock txg bp s).dvas ↔ d ∈ s.dvas ∨ txg ≤ bp.birth ∧ bp.dva = d := by
  rcases claimLogBlock_cases txg bp s with ⟨heq, hd⟩ | ⟨hb, -, heq⟩
  · rw [heq]
    refine ⟨h, fun d => (or_iff_left_of_imp ?_).symm⟩
    rintro ⟨hb, rfl⟩
    exact (h _).mp (hd hb)
  · have hdvas : ∀ d, d ∈ (Zil.claimLogBlock txg bp s).dvas ↔ d ∈ s.dvas ∨ bp.dva = d := by
      intro d
      rw [heq, dvas_concat, mem_append, mem_singleton, eq_comm (a := d)]
    refine ⟨fun d => ?_, fun d => by rw [hdvas, and_iff_right hb]⟩
    rw [hdvas, heq, mem_cons, h d, or_comm, eq_comm]

/-- **WHAT A CLAIM CLAIMS**: the log blocks and data blocks it visits, if they are not from a
    synced txg. -/
theorem foldl_claim (events : List Event) : ∀ {s : Pass}, s.Tracked →
    ∀ d, d ∈ (events.foldl (Event.apply (claimLogBlock txg) (claimLogRecord txg)) s).dvas ↔
      d ∈ s.dvas ∨ ∃ bp ∈ logBlocks events ++ dataBlocks events, txg ≤ bp.birth ∧ bp.dva = d := by
  induction events with
  | nil =>
    intro s _ d
    simp [logBlocks, dataBlocks]
  | cons ev events ih =>
    intro s h d
    rw [foldl_cons]
    match ev with
    | .blk bp | .lr ⟨_, _, _, .write bp⟩ =>
      obtain ⟨ht, hd⟩ := h.claimLogBlock txg bp
      refine (ih ht d).trans ?_
      rw [hd]
      simp [logBlocks, dataBlocks, Event.logBlock?, Event.dataBlock?, or_and_right, exists_or,
        or_assoc, or_left_comm]
    | .lr ⟨_, _, _, .other _⟩ =>
      refine (ih h d).trans ?_
      simp [logBlocks, dataBlocks, Event.logBlock?, Event.dataBlock?]

def freeEvent (claimTxg : Nat) : Pass → Event → Pass :=
  Event.apply freeLogBlock (freeLogRecord claimTxg)

theorem freeEvent_cases (hpos : txg ≠ 0) (s : Pass) (ev : Event) :
    (∃ bp, ev = .blk bp ∧ freeEvent txg s ev = ⟨s.tree, s.done ++ [bp]⟩) ∨
    ev.logBlock? = none ∧ (freeEvent txg s ev = s ∧
        (∀ bp, ev.dataBlock? = some bp → txg ≤ bp.birth → bp.dva ∈ s.tree) ∨
      ∃ bp, ev.dataBlock? = some bp ∧ txg ≤ bp.birth ∧ bp.dva ∉ s.tree ∧
        freeEvent txg s ev = ⟨bp.dva :: s.tree, s.done ++ [bp]⟩) := by
  match ev with
  | .blk bp => exact .inl ⟨bp, rfl, rfl⟩
  | .lr ⟨a, b, c, .write bp⟩ =>
    refine .inr ⟨rfl, ?_⟩
    have hsame : freeEvent txg s (.lr ⟨a, b, c, .write bp⟩) = claimLogBlock txg bp s := by
      simp only [freeEvent, Event.apply, freeLogRecord, claimLogBlock, hpos, ne_eq,
        not_false_eq_true, true_and]
    rw [hsame]
    refine (claimLogBlock_cases txg bp s).imp (.imp_right ?_) fun h => ⟨bp, rfl, h⟩
    rintro hd _ ⟨⟩
    exact hd
  | .lr ⟨_, _, _, .other _⟩ => exact .inr ⟨rfl, .inl ⟨rfl, fun _ h => (by cases h)⟩⟩

/-- **WHAT A DESTROY FREES**: log blocks it visits and data blocks that are not from a synced
    txg, and of these each; and nothing twice, if the log blocks are different from each other
    and from the data blocks. -/
theorem foldl_free (hpos : txg ≠ 0) (events : List Event) {s : Pass}
    (hs : events.foldl (freeEvent txg) .empty = s) :
    (∀ d, d ∈ s.tree ↔ ∃ bp ∈ dataBlocks events, txg ≤ bp.birth ∧ bp.dva = d) ∧
    s.tree ⊆ s.dvas ∧
    (∀ bp ∈ s.done, bp ∈ logBlocks events ∨ bp ∈ dataBlocks events ∧ txg ≤ bp.birth) ∧
    (((logBlocks events).map Blkptr.dva).Nodup → (∀ bp ∈ dataBlocks events, txg ≤ bp.birth →
      bp.dva ∉ (logBlocks events).map Blkptr.dva) → s.dvas.Nodup) := by
  induction events using List.reverseRecOn generalizing s with
  | nil =>
    subst hs
    simp [Pass.empty, Pass.dvas, dataBlocks]
  | append_singleton events ev ih =>
    obtain ⟨htree, hsub, hdone, hnodup⟩ := ih rfl
    rw [foldl_concat] at hs
    generalize events.foldl (freeEvent txg) .empty = p at *
    have hmem : ∀ d ∈ p.dvas, d ∈ p.tree ∨ d ∈ (logBlocks events).map Blkptr.dva := by
      intro d hd
      obtain ⟨bp, hbp, rfl⟩ := mem_map.mp hd
      rcases hdone bp hbp with h | ⟨h, hb⟩
      · exact .inr (mem_map_of_mem h)
      · exact .inl ((htree _).mpr ⟨bp, h, hb, rfl⟩)
    have hcons : ∀ {d}, d ∉ p.dvas → p.dvas.Nodup → (p.dvas ++ [d]).Nodup := fun hd h =>
      (perm_append_singleton ..).nodup_iff.mpr (nodup_cons.mpr ⟨hd, h⟩)
    rcases freeEvent_cases hpos p ev with ⟨bp, rfl, heq⟩ | ⟨hlog, hstep⟩
    · obtain rfl := heq.symm.trans hs
      rw [dvas_concat, logBlocks_append, dataBlocks_append,
        show dataBlocks [Event.blk bp] = [] from rfl, append_nil]
      refine ⟨htree, fun d hd => mem_append_left _ (hsub hd), fun q hq => ?_, fun hlogs hdata => ?_⟩
      · rcases mem_append.mp hq with hq | hq
        · exact (hdone q hq).imp_left (mem_append_left _)
        · exact .inl (mem_append_right _ hq)
      · rw [map_append] at hlogs hdata
        obtain ⟨hnew, hrest⟩ := nodup_cons.mp ((perm_append_singleton ..).nodup_iff.mp hlogs)
        refine hcons (fun hd => ?_) (hnodup hrest fun q hq hb h => ?_)
        · rcases hmem _ hd with hd | hd
          · obtain ⟨q, hq, hb, heq⟩ := (htree _).mp hd
            exact hdata q hq hb (heq ▸ mem_append_right _ (mem_singleton_self _))
          · exact hnew hd
        · exact hdata q hq hb (mem_append_left _ h)
    have hlogs : logBlocks (events ++ [ev]) = logBlocks events := by simp [logBlocks, hlog]
    rw [hlogs]
    have hdata : ∀ q, q ∈ dataBlocks (events ++ [ev]) ↔ q ∈ dataBlocks events ∨
        ev.dataBlock? = some q := by
      simp [dataBlocks]
    simp only [hdata]
    rcases hstep with ⟨heq, hr⟩ | ⟨bp, hr, hb, hd, heq⟩
    · obtain rfl := heq.symm.trans hs
      refine ⟨fun d => ?_, hsub, fun q hq => ?_, fun hlogs hdata => ?_⟩
      · rw [htree]
        constructor
        · rintro ⟨q, hq, h⟩
          exact ⟨q, .inl hq, h⟩
        · rintro ⟨q, hq | hq, hb, rfl⟩
          · exact ⟨q, hq, hb, rfl⟩
          · exact (htree _).mp (hr q hq hb)
      · exact (hdone q hq).imp_right (.imp_left .inl)
      · exact hnodup hlogs fun q hq => hdata q (.inl hq)
    · obtain rfl := heq.symm.trans hs
      rw [dvas_concat]
      refine ⟨fun d => ?_, ?_, fun q hq => ?_, fun hlogs hdata => ?_⟩
      · simp [htree, hr, hb, or_and_right, exists_or, or_comm, eq_comm]
      · exact cons_subset.mpr ⟨mem_append_right _ (mem_singleton_self _),
          fun d hd => mem_append_left _ (hsub hd)⟩
      · rcases mem_append.mp hq with hq | hq
        · exact (hdone q hq).imp_right (.imp_left .inl)
        · obtain rfl := mem_singleton.mp hq
          exact .inr ⟨.inr hr, hb⟩
      · refine hcons (fun h => (hmem _ h).elim hd (hdata bp (.inr hr) hb)) ?_
        exact hnodup hlogs fun q hq => hdata q (.inl hq)

end Folds

def Record.data? (r : Record) : Option Blkptr :=
  match r.body with
  | .write bp => some bp
  | .other _ => none

/-- The data blocks of the first `n` blocks of the chain. -/
def dataOf (l : List (Blkptr × LogBlock)) (n : Nat) : List Blkptr :=
  (l.take n).flatMap fun x => x.2.lrs.filterMap Record.data?

def pointers (l : List (Blkptr × LogBlock)) (last : Blkptr) : List Blkptr :=
  l.map Prod.fst ++ [last]

def readable (up : Nat → Bool) (l : List (Blkptr × LogBlock)) : Nat :=
  (l.takeWhile fun x => up x.1.dva).length

section Events

variable (up : Nat → Bool) (l : List (Blkptr × LogBlock)) {last : Blkptr} {n : Nat}

theorem takeWhile_eq_take : l.takeWhile (fun x => up x.1.dva) = l.take (readable up l) :=
  prefix_iff_eq_take.mp (List.takeWhile_prefix _)

theorem readable_le : readable up l ≤ l.length :=
  (List.takeWhile_prefix _).length_le

theorem pointers_take_readable :
    (l.take (readable up l)).map Prod.fst ++ [stopAt up l last]
      = (pointers l last).take (readable up l + 1) := by
  induction l with
  | nil => rfl
  | cons x l ih =>
    by_cases hu : up x.1.dva
    · have hr : readable up (x :: l) = readable up l + 1 := by simp [readable, hu]
      rw [hr, take_succ_cons, map_cons, stopAt, if_pos hu, cons_append, ih]
      rfl
    · have hr : readable up (x :: l) = 0 := by simp [readable, hu]
      rw [hr, stopAt, if_neg hu]
      rfl

variable {up l}

theorem pointers_take_of_le (h : n ≤ l.length) :
    (pointers l last).take n = (l.take n).map Prod.fst := by
  rw [pointers, take_append_of_le_length (by simpa using h), map_take]

theorem logBlocks_blockEvents (x : Blkptr × LogBlock) : logBlocks (blockEvents x) = [x.1] := by
  rw [blockEvents, logBlocks, filterMap_cons]
  simp [Event.logBlock?]

theorem dataBlocks_blockEvents (x : Blkptr × LogBlock) :
    dataBlocks (blockEvents x) = x.2.lrs.filterMap Record.data? := by
  rw [blockEvents, dataBlocks, filterMap_cons_none rfl, filterMap_map]
  refine filterMap_congr fun r _ => ?_
  obtain ⟨_, _, _, _ | _⟩ := r <;> rfl

theorem logBlocks_flatMap : logBlocks (l.flatMap blockEvents) = l.map Prod.fst := by
  rw [logBlocks, filterMap_flatMap, map_eq_flatMap]
  exact flatMap_congr fun x _ => logBlocks_blockEvents x

theorem dataBlocks_flatMap :
    dataBlocks (l.flatMap blockEvents) = l.flatMap fun x => x.2.lrs.filterMap Record.data? := by
  rw [dataBlocks, filterMap_flatMap]
  exact flatMap_congr fun x _ => dataBlocks_blockEvents x

theorem dataOf_mono {m : Nat} (h : m ≤ n) {bp : Blkptr} (hbp : bp ∈ dataOf l m) :
    bp ∈ dataOf l n := by
  obtain ⟨x, hx, hr⟩ := mem_flatMap.mp hbp
  exact mem_flatMap.mpr ⟨x, (take_prefix_take_left h).subset hx, hr⟩

theorem mem_dataOf_succ {bp : Blkptr} :
    bp ∈ dataOf l (n + 1) ↔
      bp ∈ dataOf l n ∨ ∃ x, l[n]? = some x ∧ ∃ r ∈ x.2.lrs, r.data? = some bp := by
  rw [dataOf, take_add_one, flatMap_append, mem_append]
  refine or_congr_right ?_
  simp only [mem_flatMap, Option.mem_toList, mem_filterMap]

/-- The callbacks of a parse that may read the blocks `up`, up to and including the `n`th
    pointer. -/
def parseEvents (up : Nat → Bool) (l : List (Blkptr × LogBlock)) (last : Blkptr) (n : Nat) :
    List Event :=
  (l.take (min (readable up l) (n + 1))).flatMap blockEvents ++
    if readable up l ≤ n then [Event.blk (stopAt up l last)] else []

theorem logBlocks_parseEvents (n : Nat) :
    logBlocks (parseEvents up l last n)
      = (pointers l last).take (min (readable up l) n + 1) := by
  rw [parseEvents, logBlocks_append, logBlocks_flatMap]
  by_cases h : readable up l ≤ n
  · rw [if_pos h, min_eq_left (by omega), min_eq_left h, ← pointers_take_readable]
    rfl
  · rw [if_neg h, min_eq_right (by omega), min_eq_right (by omega)]
    have hle := readable_le up l
    rw [pointers_take_of_le (by omega), show logBlocks [] = [] from rfl, append_nil]

theorem dataBlocks_parseEvents (n : Nat) :
    dataBlocks (parseEvents up l last n) = dataOf l (min (readable up l) (n + 1)) := by
  rw [parseEvents, dataBlocks_append, dataBlocks_flatMap]
  split <;> exact append_nil _

end Events

/-- The header once the log is claimed up to its `n`th pointer. -/
def Header.claimedTo (zh : Header) (firstTxg n : Nat) : Header :=
  { zh with claimTxg := firstTxg, claimSeq := zh.log.cksum.seq + n }

section Parses

variable {media : Media} {zh : Header} {l : List (Blkptr × LogBlock)} {last : Blkptr}
  {firstTxg fuel n : Nat} {r : Record}

theorem foldl_offers (zh : Header) (events : List Event) (r : Record) : ∀ {acc : List Record},
    r ∈ events.foldl (Event.apply (fun _ s => s)
        (fun r s => if Offered zh r then s ++ [r] else s)) acc ↔
      r ∈ acc ∨ Event.lr r ∈ events ∧ Offered zh r := by
  induction events with
  | nil => simp
  | cons ev events ih =>
    intro acc
    rw [foldl_cons, ih]
    match ev with
    | .blk bp => simp [Event.apply]
    | .lr q =>
      by_cases hq : Offered zh q
      · simp only [Event.apply, if_pos hq, mem_append, mem_cons,
          not_mem_nil, or_false, Event.lr.injEq]
        constructor
        · rintro ((h | rfl) | ⟨h1, h2⟩)
          · exact .inl h
          · exact .inr ⟨.inl rfl, hq⟩
          · exact .inr ⟨.inr h1, h2⟩
        · rintro (h | ⟨rfl | h1, h2⟩)
          · exact .inl (.inl h)
          · exact .inl (.inr rfl)
          · exact .inr ⟨h1, h2⟩
      · simp only [Event.apply, if_neg hq, mem_cons, Event.lr.injEq]
        refine or_congr_right (and_congr_left fun hr => (or_iff_right ?_).symm)
        rintro rfl
        exact hq hr

theorem mem_parseEvents_lr {up : Nat → Bool} :
    Event.lr r ∈ parseEvents up l last n ↔
      ∃ x ∈ l.take (min (readable up l) (n + 1)), r ∈ x.2.lrs := by
  rw [parseEvents, mem_append]
  simp [blockEvents]

section

variable (h : Chain media zh.log l last) (hfuel : l.length < fuel) (hhole : ¬ zh.log.IsHole)
  (hpos : 0 < zh.log.cksum.seq) (firstTxg n : Nat) (up : Nat → Bool)

include h hfuel hhole

/-- What `zil_claim` leaves behind: the number of the block at which its parse stopped, and
    claims for everything it visited that is not from a synced txg. -/
theorem zilClaim_spec (htxg : zh.claimTxg = 0) (hseq : zh.claimSeq = 0) :
    ∃ claimed, zilClaim (media.restrict up) zh firstTxg fuel
        = some (zh.claimedTo firstTxg (readable up l), claimed) ∧
      ∀ d, d ∈ claimed.dvas ↔ ∃ bp ∈ (pointers l last).take (readable up l + 1) ++
        dataOf l (readable up l), firstTxg ≤ bp.birth ∧ bp.dva = d := by
  have hres := h.restrict up
  have hlast := hres.last_seq
  rw [takeWhile_eq_take] at hres
  have hlen : (l.take (readable up l)).length < fuel := lt_of_le_of_lt (length_take_le' ..) hfuel
  refine ⟨(chainEvents (l.take (readable up l)) (stopAt up l last)).foldl
    (Event.apply (claimLogBlock firstTxg) (claimLogRecord firstTxg)) .empty, ?_, fun d => ?_⟩
  · rw [zilClaim, if_pos ⟨htxg, hhole⟩]
    simp only [zilParse, if_neg hhole, hseq]
    rw [hres.parse_unclaimed hlen, hlast]
    rfl
  · rw [foldl_claim _ (fun d => by simp [Pass.empty, Pass.dvas]), chainEvents, logBlocks_append,
      dataBlocks_append, logBlocks_flatMap, dataBlocks_flatMap]
    rw [show logBlocks [Event.blk (stopAt up l last)] = [stopAt up l last] from rfl,
      pointers_take_readable, show dataBlocks [Event.blk (stopAt up l last)] = [] from rfl]
    simp [Pass.empty, Pass.dvas, dataOf]

include hpos

theorem zilParse_claimed {σ : Type*} (blkFunc : Blkptr → σ → σ) (lrFunc : Record → σ → σ) (s : σ) :
    ∃ m, zilParse (media.restrict up) (zh.claimedTo firstTxg n) blkFunc lrFunc fuel s
      = some (m, (parseEvents up l last n).foldl (Event.apply blkFunc lrFunc) s) := by
  have hres := h.restrict up
  rw [takeWhile_eq_take] at hres
  have hlen : (l.take (readable up l)).length = readable up l :=
    length_take_of_le (readable_le up l)
  obtain ⟨m, hm⟩ := @Chain.parse_claimed _ _ _ _ _ blkFunc lrFunc hres n fuel 0 s
    (by have := readable_le up l; omega) (by omega)
  refine ⟨m, ?_⟩
  rw [zilParse, if_neg (show ¬ (zh.claimedTo firstTxg n).log.IsHole from hhole)]
  refine hm.trans ?_
  rw [hlen, take_take, min_comm, parseEvents]

theorem zilDestroy_spec : zilDestroy (media.restrict up) (zh.claimedTo firstTxg n) fuel
      = some ((parseEvents up l last n).foldl (freeEvent firstTxg) .empty) := by
  obtain ⟨m, hm⟩ := zilParse_claimed h hfuel hhole hpos firstTxg n up freeLogBlock
    (freeLogRecord firstTxg) Pass.empty
  rw [zilDestroy, if_neg (show ¬ (zh.claimedTo firstTxg n).log.IsHole from hhole)]
  exact congrArg (Option.map Prod.snd) hm

theorem zilReplayOffers_spec :
    ∃ offered, zilReplayOffers (media.restrict up) (zh.claimedTo firstTxg n) fuel = some offered ∧
      ∀ r, r ∈ offered ↔ Offered (zh.claimedTo firstTxg n) r ∧
        ∃ x ∈ l.take (min (readable up l) (n + 1)), r ∈ x.2.lrs := by
  obtain ⟨m, hm⟩ := zilParse_claimed h hfuel hhole hpos firstTxg n up (fun _ s => s)
    (fun r s => if Offered (zh.claimedTo firstTxg n) r then s ++ [r] else s) ([] : List Record)
  refine ⟨_, congrArg (Option.map Prod.snd) hm, fun r => ?_⟩
  refine (foldl_offers _ _ r).trans ?_
  rw [mem_parseEvents_lr, and_comm]
  simp

end

/-- The data blocks of the block at which the claim stopped are covered: that block cannot be
    read later either, or the data blocks that `sel` takes from it are from synced txgs or are
    named by records in front of it, too. -/
def BoundaryCovered (firstTxg : Nat) (sel : Record → Prop) (upClaim up : Nat → Bool)
    (l : List (Blkptr × LogBlock)) : Prop :=
  readable upClaim l < readable up l → ∀ x, l[readable upClaim l]? = some x →
    ∀ r ∈ x.2.lrs, sel r → ∀ bp, r.data? = some bp → firstTxg ≤ bp.birth →
      ∃ q ∈ dataOf l (readable upClaim l), firstTxg ≤ q.birth ∧ q.dva = bp.dva

/-- A chain as the log writer leaves it: a valid head, and log blocks that are different from
    each other and from the data blocks not yet synced. -/
structure Logged (zh : Header) (firstTxg : Nat) (l : List (Blkptr × LogBlock)) (last : Blkptr) :
    Prop where
  head : ¬ zh.log.IsHole
  seq_pos : 0 < zh.log.cksum.seq
  unclaimed : zh.claimTxg = 0 ∧ zh.claimSeq = 0
  txg_pos : firstTxg ≠ 0
  distinct : ((pointers l last).map Blkptr.dva).Nodup
  data : ∀ bp ∈ dataOf l l.length, firstTxg ≤ bp.birth → bp.dva ∉ (pointers l last).map Blkptr.dva

variable {upClaim up : Nat → Bool}

theorem dataOf_claimed (sel : Record → Prop) (hcov : BoundaryCovered firstTxg sel upClaim up l)
    {bp : Blkptr} {x : Blkptr × LogBlock}
    (hx : x ∈ l.take (min (readable up l) (readable upClaim l + 1))) (hr : r ∈ x.2.lrs)
    (hsel : sel r) (hbp : r.data? = some bp) (hb : firstTxg ≤ bp.birth) :
    ∃ q ∈ dataOf l (readable upClaim l), firstTxg ≤ q.birth ∧ q.dva = bp.dva := by
  by_cases hlt : readable upClaim l < readable up l
  · rw [min_eq_right (by omega), take_add_one, mem_append,
      Option.mem_toList] at hx
    rcases hx with hx | hx
    · exact ⟨bp, mem_flatMap.mpr ⟨x, hx, mem_filterMap.mpr ⟨r, hr, hbp⟩⟩, hb, rfl⟩
    · exact hcov hlt x hx r hr hsel bp hbp hb
  · rw [min_eq_left (by omega)] at hx
    refine ⟨bp, dataOf_mono (not_lt.mp hlt) ?_, hb, rfl⟩
    exact mem_flatMap.mpr ⟨x, hx, mem_filterMap.mpr ⟨r, hr, hbp⟩⟩

/-- **CLAIMED AND FREED BLOCKS**: for every chain and whatever can be read at the claim, at the
    replay and at the destroy: each block that the destroy frees is from a synced txg or was
    claimed, none is freed twice, and each data block of a record offered for replay is from a
    synced txg or was claimed - exactly if the boundary is covered for both. -/
theorem claimed_and_freed_match (media : Media) (zh : Header) (l : List (Blkptr × LogBlock))
    (last : Blkptr) (firstTxg fuel : Nat) (upClaim upDestroy upReplay : Nat → Bool)
    (hchain : Chain media zh.log l last) (hlog : Logged zh firstTxg l last)
    (hfuel : l.length < fuel) :
    ∃ zh' claimed freed offered,
      zilClaim (media.restrict upClaim) zh firstTxg fuel = some (zh', claimed) ∧
      zilDestroy (media.restrict upDestroy) zh' fuel = some freed ∧
      zilReplayOffers (media.restrict upReplay) zh' fuel = some offered ∧
      (((∀ bp ∈ freed.done, bp.birth < firstTxg ∨ bp.dva ∈ claimed.dvas) ∧ freed.dvas.Nodup ∧
        ∀ r ∈ offered, ∀ bp, r.data? = some bp → bp.birth < firstTxg ∨ bp.dva ∈ claimed.dvas) ↔
      BoundaryCovered firstTxg (fun _ => True) upClaim upDestroy l ∧
        BoundaryCovered firstTxg (Offered zh') upClaim upReplay l) := by
  set r' := readable upClaim l
  obtain ⟨claimed, hclaim, hclaimed⟩ := zilClaim_spec hchain hfuel hlog.head firstTxg upClaim
    hlog.unclaimed.1 hlog.unclaimed.2
  have hdestroy := zilDestroy_spec hchain hfuel hlog.head hlog.seq_pos firstTxg r' upDestroy
  obtain ⟨offered, hoffers, hoffered⟩ := zilReplayOffers_spec hchain hfuel hlog.head hlog.seq_pos
    firstTxg r' upReplay
  refine ⟨_, claimed, _, offered, hclaim, hdestroy, hoffers, ?_⟩
  -- what a destroy frees, in terms of the chain
  obtain ⟨hfreed, htree, hfrees, hnodup⟩ := foldl_free hlog.txg_pos
    (parseEvents upDestroy l last r') rfl
  rw [logBlocks_parseEvents, dataBlocks_parseEvents] at hfrees hnodup
  rw [dataBlocks_parseEvents] at hfreed
  have hdata : ∀ {n : Nat} {bp : Blkptr}, bp ∈ dataOf l n → firstTxg ≤ bp.birth →
      bp.dva ∉ (pointers l last).map Blkptr.dva := by
    intro n bp hbp hb
    refine hlog.data bp ?_ hb
    rw [dataOf, take_length]
    obtain ⟨x, hx, hr⟩ := mem_flatMap.mp hbp
    exact mem_flatMap.mpr ⟨x, mem_of_mem_take hx, hr⟩
  have hcovers : ∀ {bp : Blkptr}, bp.dva ∉ (pointers l last).map Blkptr.dva →
      (bp.dva ∈ claimed.dvas ↔ ∃ q ∈ dataOf l r', firstTxg ≤ q.birth ∧ q.dva = bp.dva) := by
    intro bp hout
    rw [hclaimed]
    constructor
    · rintro ⟨q, hq, hb, heq⟩
      rcases mem_append.mp hq with hq | hq
      · exact absurd (mem_map.mpr ⟨q, mem_of_mem_take hq, heq⟩) hout
      · exact ⟨q, hq, hb, heq⟩
    · rintro ⟨q, hq, hb, heq⟩
      exact ⟨q, mem_append_right _ hq, hb, heq⟩
  constructor
  · rintro ⟨hP, -, hR⟩
    constructor
    · intro hlt x hx r hr _ bp hbp hb
      have hmem : bp ∈ dataOf l (readable upClaim l + 1) :=
        mem_dataOf_succ.mpr (.inr ⟨x, hx, r, hr, hbp⟩)
      rw [min_eq_right (by omega)] at hfreed hfrees
      obtain ⟨q, hq, heq⟩ := mem_map.mp (htree ((hfreed _).mpr ⟨bp, hmem, hb, rfl⟩))
      rw [← hcovers (hdata hmem hb), ← heq]
      rcases hfrees q hq with hq' | ⟨-, hqb⟩
      · refine absurd ?_ (hdata hmem hb)
        exact mem_map.mpr ⟨q, mem_of_mem_take hq', heq⟩
      · exact (hP q hq).resolve_left (not_lt.mpr hqb)
    · intro hlt x hx r hr hsel bp hbp hb
      have hmem : bp ∈ dataOf l (readable upClaim l + 1) :=
        mem_dataOf_succ.mpr (.inr ⟨x, hx, r, hr, hbp⟩)
      rw [← hcovers (hdata hmem hb)]
      refine (hR r ((hoffered r).mpr ⟨hsel, x, ?_, hr⟩) bp hbp).resolve_left (not_lt.mpr hb)
      rw [min_eq_right (by omega), take_add_one, hx]
      exact mem_append_right _ (mem_singleton.mpr rfl)
  · rintro ⟨hcovD, hcovR⟩
    refine ⟨fun bp hbp => ?_, ?_, fun r hr bp hbp => ?_⟩
    · by_cases hb : bp.birth < firstTxg
      · exact .inl hb
      have hb := not_lt.mp hb
      refine .inr ?_
      rcases hfrees bp hbp with hbp | ⟨hbp, -⟩
      · rw [hclaimed]
        refine ⟨bp, mem_append_left _ ?_, hb, rfl⟩
        exact (take_prefix_take_left (by omega)).subset hbp
      · rw [hcovers (hdata hbp hb)]
        obtain ⟨x, hx, hr⟩ := mem_flatMap.mp hbp
        obtain ⟨r, hr, hrb⟩ := mem_filterMap.mp hr
        exact dataOf_claimed _ hcovD hx hr trivial hrb hb
    · rw [map_take] at hnodup
      refine hnodup (hlog.distinct.sublist (take_sublist ..)) fun bp hbp hb h => ?_
      exact hdata hbp hb (mem_of_mem_take h)
    · by_cases hb : bp.birth < firstTxg
      · exact .inl hb
      have hb := not_lt.mp hb
      obtain ⟨hsel, x, hx, hrx⟩ := (hoffered r).mp hr
      have hmem : bp ∈ dataOf l (min (readable upReplay l) (readable upClaim l + 1)) :=
        mem_flatMap.mpr ⟨x, hx, mem_filterMap.mpr ⟨r, hrx, hbp⟩⟩
      refine .inr ?_
      rw [hcovers (hdata hmem hb)]
      exact dataOf_claimed _ hcovR hx hrx hsel hbp hb

end Parses

/-! ## A log block that comes back -/

/-- The `n`th block pointer of a small log; the data block at address 10 is from txg 5. -/
def smallPointer (n : Nat) : Blkptr := ⟨n, 3 + n, 4096, ⟨7, 8, 21, n⟩⟩

def smallWrite : Record := ⟨192, 5, 2, .write ⟨10, 5, 512, ⟨0, 0, 0, 0⟩⟩⟩

/-- Two log blocks: the first holds a record of a synced txg, the second a write of txg 5. -/
def smallBlock (n : Nat) : LogBlock :=
  ⟨(smallPointer n).cksum, smallPointer (n + 1), 192,
    if n = 1 then [⟨192, 4, 1, .other 1⟩] else [smallWrite]⟩

def smallMedia : Media := fun d => if d = 1 ∨ d = 2 then some (smallBlock d) else none

def smallHeader : Header := ⟨0, 0, smallPointer 1, 0⟩

def smallChain : List (Blkptr × LogBlock) :=
  [(smallPointer 1, smallBlock 1), (smallPointer 2, smallBlock 2)]

theorem smallChain_chain : Chain smallMedia smallHeader.log smallChain (smallPointer 3) :=
  .next (by decide) (.next (by decide) (.stop (by decide : _ = Except.error .io)))

theorem smallChain_logged : Logged smallHeader 5 smallChain (smallPointer 3) := by
  constructor
  · decide
  · decide
  · decide
  · decide
  · decide
  · intro bp hbp _
    obtain rfl := mem_singleton.mp hbp
    decide

def missing (d : Nat) : Bool := d != 2

theorem claimed_and_freed_match_missing :
    ∃ zh' claimed freed, zilClaim (smallMedia.restrict missing) smallHeader 5 3
        = some (zh', claimed) ∧
      zilDestroy (smallMedia.restrict missing) zh' 3 = some freed ∧
      ∀ bp ∈ freed.done, bp.birth < 5 ∨ bp.dva ∈ claimed.dvas := by
  obtain ⟨zh', claimed, freed, _, hclaim, hdestroy, -, hiff⟩ :=
    claimed_and_freed_match smallMedia smallHeader smallChain (smallPointer 3) 5 3 missing missing
      missing smallChain_chain smallChain_logged (by decide)
  have hnot : ¬ readable missing smallChain < readable missing smallChain := lt_irrefl _
  exact ⟨zh', claimed, freed, hclaim, hdestroy,
    (hiff.mpr ⟨fun h => absurd h hnot, fun h => absurd h hnot⟩).1⟩

/-- **A DATA BLOCK FREED BUT NEVER CLAIMED**: the second log block cannot be read when the log is
    claimed and can be when it is destroyed; the destroy frees its data block (address 10), and
    a replay would use it, though only the log block itself was claimed. -/
theorem unclaimed_block_freed :
    Chain smallMedia smallHeader.log smallChain (smallPointer 3) ∧
    Logged smallHeader 5 smallChain (smallPointer 3) ∧
    (zilClaim (smallMedia.restrict missing) smallHeader 5 3).map (fun p => p.2.dvas)
      = some [2] ∧
    ((zilClaim (smallMedia.restrict missing) smallHeader 5 3).bind fun p =>
      zilDestroy (smallMedia.restrict fun _ => true) p.1 3).map Pass.dvas = some [1, 2, 10] ∧
    ((zilClaim (smallMedia.restrict missing) smallHeader 5 3).bind fun p =>
      zilReplayOffers (smallMedia.restrict fun _ => true) p.1 3) = some [smallWrite] :=
  ⟨smallChain_chain, smallChain_logged, by decide, by decide, by decide⟩

end Sirius.Zil
