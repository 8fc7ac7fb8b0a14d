import Mathlib.Data.Finset.Basic

/-! # Versions of a store that share their items

    A version `o` holds items and may have a version before it, `prev o`.  Nobody counts who
    holds an item: what is older than `since o` is held by the version before as well.  In a
    `Lineage` the versions that hold an item form one connected part of the tree, whose top is
    the version in whose time it was born.  So a version may drop an item of its own time for
    good once no version after it holds it.

    The second half lists the ways a lineage is extended and cut. -/

namespace Sirius.Lib

variable {ι β : Type*}

open Function Finset

/-- The items of `objs` by time of birth: older ones are inherited, own ones have one owner. -/
structure Lineage (objs : Finset ι) (prev : ι → Option ι) (since : ι → ℕ) (birth : β → ℕ)
    (items : ι → Finset β) : Prop where
  prev_mem : ∀ o ∈ objs, ∀ p, prev o = some p → p ∈ objs
  since_lt : ∀ o ∈ objs, ∀ p, prev o = some p → since p < since o
  inherit : ∀ o ∈ objs, ∀ b ∈ items o, birth b ≤ since o → ∃ p, prev o = some p ∧ b ∈ items p
  owner : ∀ o ∈ objs, ∀ q ∈ objs, ∀ b, b ∈ items o → b ∈ items q → since o < birth b →
    since q < birth b → o = q

/-- No version comes after `o`. -/
def Leaf (objs : Finset ι) (prev : ι → Option ι) (o : ι) : Prop := ∀ q ∈ objs, prev q ≠ some o

namespace Lineage

variable {objs : Finset ι} {prev : ι → Option ι} {since : ι → ℕ} {birth : β → ℕ}
  {items : ι → Finset β} {o q n p : ι} {b : β} {c : ℕ}

section

variable (h : Lineage objs prev since birth items)

include h

theorem exists_owner (ho : o ∈ objs) (hb : b ∈ items o) :
    ∃ a ∈ objs, b ∈ items a ∧ since a < birth b ∧
      (a = o ∨ ∃ c ∈ objs, prev c = some a ∧ b ∈ items c) := by
  -- climb to the version before as long as the item is older than the version
  induction hs : since o using Nat.strong_induction_on generalizing o with
  | _ s ih =>
    rcases Nat.lt_or_ge (since o) (birth b) with hown | hold
    · exact ⟨o, ho, hb, hown, .inl rfl⟩
    obtain ⟨p, hp, hbp⟩ := h.inherit o ho b hb hold
    have hpm := h.prev_mem o ho p hp
    have hlt := h.since_lt o ho p hp
    obtain ⟨a, ha, hba, hown, rest⟩ := ih (since p) (hs ▸ hlt) hpm hbp rfl
    rcases rest with rfl | hchild
    · exact ⟨a, ha, hba, hown, .inr ⟨o, ho, hp, hb⟩⟩
    · exact ⟨a, ha, hba, hown, .inr hchild⟩

/-- **HEADLINE**: an item of a version's own time that some other version holds is held by a
    version right after it. -/
theorem held_after (ho : o ∈ objs) (hb : b ∈ items o)
    (hown : since o < birth b) (hq : q ∈ objs) (hbq : b ∈ items q)
    (hne : q ≠ o) : ∃ c ∈ objs, prev c = some o ∧ b ∈ items c := by
  obtain ⟨a, ha, hba, hown', rest⟩ := h.exists_owner hq hbq
  cases h.owner o ho a ha b hb hba hown hown'
  rcases rest with rfl | hchild
  · exact absurd rfl hne
  · exact hchild

theorem leaf_alone (hl : Leaf objs prev o) (ho : o ∈ objs)
    (hb : b ∈ items o) (hown : since o < birth b) (hq : q ∈ objs) (hne : q ≠ o) : b ∉ items q := by
  intro hbq
  obtain ⟨c, hc, hp, -⟩ := h.held_after ho hb hown hq hbq hne
  exact hl c hc hp

theorem prev_ne (ho : o ∈ objs) (hp : prev o = some p) : p ≠ o := by
  rintro rfl
  exact absurd (h.since_lt p ho p hp) (Nat.lt_irrefl _)

theorem rename {objs' : Finset ι} {prev' : ι → Option ι} {since' : ι → ℕ} {items' : ι → Finset β}
    (f : ι → ι) (hmem : ∀ r ∈ objs', f r ∈ objs) (hinj : Set.InjOn f objs')
    (hsame : ∀ r ∈ objs', prev' r = prev (f r) ∧ since' r = since (f r) ∧ items' r = items (f r))
    (hkeep : ∀ r ∈ objs, ∀ p, prev r = some p → p ∈ objs' ∧ f p = p) :
    Lineage objs' prev' since' birth items' where
  prev_mem r hr p hp := by
    rw [(hsame r hr).1] at hp
    exact (hkeep _ (hmem r hr) p hp).1
  since_lt r hr p hp := by
    rw [(hsame r hr).1] at hp
    obtain ⟨hpm, hfp⟩ := hkeep _ (hmem r hr) p hp
    rw [(hsame r hr).2.1, (hsame p hpm).2.1, hfp]
    exact h.since_lt _ (hmem r hr) p hp
  inherit r hr x hx hle := by
    obtain ⟨hprev, hsince, hitems⟩ := hsame r hr
    obtain ⟨p, hp, hxp⟩ := h.inherit _ (hmem r hr) x (hitems ▸ hx) (hsince ▸ hle)
    obtain ⟨hpm, hfp⟩ := hkeep _ (hmem r hr) p hp
    refine ⟨p, hprev.trans hp, ?_⟩
    rwa [(hsame p hpm).2.2, hfp]
  owner r hr q hq x hxr hxq h1 h2 := by
    obtain ⟨-, hsr, hir⟩ := hsame r hr
    obtain ⟨-, hsq, hiq⟩ := hsame q hq
    exact hinj hr hq (h.owner _ (hmem r hr) _ (hmem q hq) x (hir ▸ hxr) (hiq ▸ hxq) (hsr ▸ h1)
      (hsq ▸ h2))

end

variable [DecidableEq ι]

section

variable (h : Lineage objs prev since birth items)

include h

theorem insert_item [DecidableEq β] (ho : o ∈ objs)
    (hnew : ∀ q ∈ objs, b ∉ items q) (hb : since o < birth b) :
    Lineage objs prev since birth (update items o (insert b (items o))) where
  prev_mem := h.prev_mem
  since_lt := h.since_lt
  inherit q hq x hx hle := by
    have grow : ∀ p, x ∈ items p → x ∈ update items o (insert b (items o)) p := by
      intro p hp
      rcases eq_or_ne p o with rfl | hpo
      · rw [update_self]
        exact mem_insert_of_mem hp
      · rwa [update_of_ne hpo]
    have hold : x ∈ items q := by
      rcases eq_or_ne q o with rfl | hqo
      · rw [update_self] at hx
        rcases mem_insert.mp hx with rfl | hx
        · exact absurd hle (Nat.not_le.mpr hb)
        · exact hx
      · rwa [update_of_ne hqo] at hx
    obtain ⟨p, hp, hxp⟩ := h.inherit q hq x hold hle
    exact ⟨p, hp, grow p hxp⟩
  owner q hq r hr x hxq hxr h1 h2 := by
    have back : ∀ p ∈ objs, x ∈ update items o (insert b (items o)) p →
        x ∈ items p ∨ (p = o ∧ x = b) := by
      intro p _ hp
      rcases eq_or_ne p o with rfl | hpo
      · rw [update_self] at hp
        rcases mem_insert.mp hp with rfl | hp
        · exact .inr ⟨rfl, rfl⟩
        · exact .inl hp
      · rw [update_of_ne hpo] at hp
        exact .inl hp
    rcases back q hq hxq with hq' | ⟨hqo, hxb⟩
    · rcases back r hr hxr with hr' | ⟨-, hxb⟩
      · exact h.owner q hq r hr x hq' hr' h1 h2
      · exact absurd (hxb ▸ hq') (hnew q hq)
    · rcases back r hr hxr with hr' | ⟨hro, -⟩
      · exact absurd (hxb ▸ hr') (hnew r hr)
      · exact hqo.trans hro.symm

theorem replace_items (hl : Leaf objs prev o) (ho : o ∈ objs) {B : Finset β}
    (hB : ∀ x ∈ B, x ∈ items o ∨ (birth x ≤ since o ∧ ∃ p, prev o = some p ∧ x ∈ items p)) :
    Lineage objs prev since birth (update items o B) where
  prev_mem := h.prev_mem
  since_lt := h.since_lt
  inherit q hq x hx hle := by
    have kept : ∀ p, prev q = some p → x ∈ items p → x ∈ update items o B p := by
      intro p hp hxp
      have hpo : p ≠ o := by
        rintro rfl
        exact hl q hq hp
      rwa [update_of_ne hpo]
    have hsome : ∃ p, prev q = some p ∧ x ∈ items p := by
      rcases eq_or_ne q o with rfl | hqo
      · rw [update_self] at hx
        rcases hB x hx with hx | ⟨-, hp⟩
        · exact h.inherit q hq x hx hle
        · exact hp
      · rw [update_of_ne hqo] at hx
        exact h.inherit q hq x hx hle
    obtain ⟨p, hp, hxp⟩ := hsome
    exact ⟨p, hp, kept p hp hxp⟩
  owner q hq r hr x hxq hxr h1 h2 := by
    have back : ∀ p ∈ objs, since p < birth x → x ∈ update items o B p → x ∈ items p := by
      intro p _ hlt hp
      rcases eq_or_ne p o with rfl | hpo
      · rw [update_self] at hp
        rcases hB x hp with hp | ⟨hle, -⟩
        · exact hp
        · exact absurd hle (Nat.not_le.mpr hlt)
      · rwa [update_of_ne hpo] at hp
    exact h.owner q hq r hr x (back q hq h1 hxq) (back r hr h2 hxr) h1 h2

theorem swap_items (hlo : Leaf objs prev o)
    (hlq : Leaf objs prev q) (ho : o ∈ objs) (hq : q ∈ objs) (hne : o ≠ q) (hprev : prev o = prev q)
    (hsince : since o = since q) :
    Lineage objs prev since birth (update (update items o (items q)) q (items o)) := by
  -- the exchange renames the two versions and leaves the ones before in place
  refine h.rename (Equiv.swap o q) (fun r hr => ?_) (Equiv.injective _).injOn (fun r _ => ?_)
    fun r hr p hp => ?_
  · rcases eq_or_ne r o with rfl | hro
    · rwa [Equiv.swap_apply_left]
    · rcases eq_or_ne r q with rfl | hrq
      · rwa [Equiv.swap_apply_right]
      · rwa [Equiv.swap_apply_of_ne_of_ne hro hrq]
  · rcases eq_or_ne r q with rfl | hrq
    · rw [Equiv.swap_apply_right, update_self]
      exact ⟨hprev.symm, hsince.symm, rfl⟩
    rw [update_of_ne hrq]
    rcases eq_or_ne r o with rfl | hro
    · rw [Equiv.swap_apply_left, update_self]
      exact ⟨hprev, hsince, rfl⟩
    · rw [Equiv.swap_apply_of_ne_of_ne hro hrq, update_of_ne hro]
      exact ⟨rfl, rfl, rfl⟩
  · have hpo : p ≠ o := by
      rintro rfl
      exact hlo r hr hp
    have hpq : p ≠ q := by
      rintro rfl
      exact hlq r hr hp
    exact ⟨h.prev_mem r hr p hp, Equiv.swap_apply_of_ne_of_ne hpo hpq⟩

theorem insert_leaf (hn : n ∉ objs) {origin : Option ι}
    (horigin : ∀ p, origin = some p → p ∈ objs ∧ since p < c ∧ ∀ x ∈ items p, birth x ≤ c) :
    Lineage (insert n objs) (update prev n origin) (update since n c) birth
      (update items n (origin.elim ∅ items)) := by
  have hne : ∀ r ∈ objs, r ≠ n := by
    rintro r hr rfl
    exact hn hr
  have hheld : ∀ x ∈ origin.elim ∅ items, ∃ p, origin = some p ∧ x ∈ items p := by
    intro x hx
    cases origin with
    | none => exact absurd hx (notMem_empty x)
    | some p => exact ⟨p, rfl, hx⟩
  refine ⟨?_, ?_, ?_, ?_⟩
  · intro r hr a ha
    rcases mem_insert.mp hr with rfl | hr
    · rw [update_self] at ha
      exact mem_insert_of_mem (horigin a ha).1
    · rw [update_of_ne (hne r hr)] at ha
      exact mem_insert_of_mem (h.prev_mem r hr a ha)
  · intro r hr a ha
    rcases mem_insert.mp hr with rfl | hr
    · rw [update_self] at ha
      obtain ⟨ham, hlt, -⟩ := horigin a ha
      rwa [update_self, update_of_ne (hne a ham)]
    · rw [update_of_ne (hne r hr)] at ha
      rw [update_of_ne (hne r hr), update_of_ne (hne a (h.prev_mem r hr a ha))]
      exact h.since_lt r hr a ha
  · intro r hr x hx hle
    rcases mem_insert.mp hr with rfl | hr
    · rw [update_self] at hx
      obtain ⟨p, hp, hxp⟩ := hheld x hx
      refine ⟨p, (update_self ..).trans hp, ?_⟩
      rwa [update_of_ne (hne p (horigin p hp).1)]
    · rw [update_of_ne (hne r hr)] at hx hle ⊢
      obtain ⟨a, ha, hxa⟩ := h.inherit r hr x hx hle
      refine ⟨a, ha, ?_⟩
      rwa [update_of_ne (hne a (h.prev_mem r hr a ha))]
  · -- the new version owns nothing
    have alive : ∀ r ∈ insert n objs, ∀ x, x ∈ update items n (origin.elim ∅ items) r →
        update since n c r < birth x → r ∈ objs := by
      intro r hr x hx hlt
      rcases mem_insert.mp hr with rfl | hr
      · rw [update_self] at hx hlt
        obtain ⟨p, hp, hxp⟩ := hheld x hx
        exact absurd ((horigin p hp).2.2 x hxp) (Nat.not_le.mpr hlt)
      · exact hr
    intro r hr r' hr' x hx hx' h1 h2
    have hr := alive r hr x hx h1
    have hr' := alive r' hr' x hx' h2
    rw [update_of_ne (hne r hr)] at hx h1
    rw [update_of_ne (hne r' hr')] at hx' h2
    exact h.owner r hr r' hr' x hx hx' h1 h2

theorem split (hl : Leaf objs prev o) (hn : n ∉ objs)
    (ho : o ∈ objs) (hc : since o < c) (hold : ∀ x ∈ items o, birth x ≤ c) :
    Lineage (insert n objs) (update (update prev n (prev o)) o (some n))
      (update (update since n (since o)) o c) birth (update items n (items o)) := by
  have hne : ∀ r ∈ objs, r ≠ n := by
    rintro r hr rfl
    exact hn hr
  -- `o` gets the name `n`
  have hplace : Lineage (insert n (objs.erase o)) (update prev n (prev o))
      (update since n (since o)) birth (update items n (items o)) := by
    refine h.rename (update id n o) (fun r hr => ?_) (fun r hr r' hr' heq => ?_) (fun r hr => ?_)
      fun r hr p hp => ?_
    · rcases mem_insert.mp hr with rfl | hr
      · rwa [update_self]
      · rw [update_of_ne (hne r (mem_of_mem_erase hr))]
        exact mem_of_mem_erase hr
    · rcases mem_insert.mp hr with rfl | hm
      · rcases mem_insert.mp hr' with rfl | hm'
        · rfl
        · rw [update_self, update_of_ne (hne r' (mem_of_mem_erase hm'))] at heq
          exact absurd heq.symm (ne_of_mem_erase hm')
      · rw [update_of_ne (hne r (mem_of_mem_erase hm))] at heq
        rcases mem_insert.mp hr' with rfl | hm'
        · rw [update_self] at heq
          exact absurd heq (ne_of_mem_erase hm)
        · rwa [update_of_ne (hne r' (mem_of_mem_erase hm'))] at heq
    · rcases mem_insert.mp hr with rfl | hr
      · simp only [update_self, and_self]
      · simp only [update_of_ne (hne r (mem_of_mem_erase hr)), id, and_self]
    · have hpm := h.prev_mem r hr p hp
      have hpo : p ≠ o := by
        rintro rfl
        exact hl r hr hp
      exact ⟨mem_insert_of_mem (mem_erase.mpr ⟨hpo, hpm⟩), update_of_ne (hne p hpm) _ _⟩
  -- and a new version with the name `o` comes after it
  have hout : o ∉ insert n (objs.erase o) := by
    rw [mem_insert, not_or]
    exact ⟨hne o ho, notMem_erase o objs⟩
  have hstart : ∀ p, some n = some p → p ∈ insert n (objs.erase o) ∧
      update since n (since o) p < c ∧ ∀ x ∈ update items n (items o) p, birth x ≤ c := by
    rintro p ⟨⟩
    rw [update_self, update_self]
    exact ⟨mem_insert_self .., hc, hold⟩
  have := hplace.insert_leaf hout hstart
  have hitems : update (update items n (items o)) o (update items n (items o) n) =
      update items n (items o) := by
    rw [update_eq_self_iff, update_self, update_of_ne (hne o ho)]
  rwa [Option.elim_some, hitems, insert_comm, insert_erase ho] at this

theorem remove_leaf (hl : Leaf objs prev o) : Lineage (objs.erase o) prev since birth items where
  prev_mem r hr p hp := by
    have hm := mem_of_mem_erase hr
    refine mem_erase.mpr ⟨?_, h.prev_mem r hm p hp⟩
    rintro rfl
    exact hl r hm hp
  since_lt r hr := h.since_lt r (mem_of_mem_erase hr)
  inherit r hr := h.inherit r (mem_of_mem_erase hr)
  owner r hr q hq := h.owner r (mem_of_mem_erase hr) q (mem_of_mem_erase hq)

theorem remove_inner (ho : o ∈ objs) (hn : n ∈ objs)
    (hp : prev n = some o) (honly : ∀ q ∈ objs, prev q = some o → q = n) :
    Lineage (objs.erase o) (update prev n (prev o)) (update since n (since o)) birth items := by
  have hbefore : ∀ p, prev o = some p → p ≠ o ∧ p ≠ n := by
    intro p hp'
    refine ⟨h.prev_ne ho hp', ?_⟩
    rintro rfl
    have h1 := h.since_lt o ho p hp'
    have h2 := h.since_lt p hn o hp
    omega
  have hmine : ∀ r ∈ objs, r ≠ n → ∀ p, prev r = some p → p ≠ o := by
    rintro r hr hrn p hp' rfl
    exact hrn (honly r hr hp')
  refine ⟨?_, ?_, ?_, ?_⟩
  · intro r hr p hp'
    have hr := mem_of_mem_erase hr
    rcases eq_or_ne r n with rfl | hrn
    · rw [update_self] at hp'
      exact mem_erase.mpr ⟨(hbefore p hp').1, h.prev_mem o ho p hp'⟩
    · rw [update_of_ne hrn] at hp'
      exact mem_erase.mpr ⟨hmine r hr hrn p hp', h.prev_mem r hr p hp'⟩
  · intro r hr p hp'
    have hr := mem_of_mem_erase hr
    rcases eq_or_ne r n with rfl | hrn
    · rw [update_self] at hp' ⊢
      rw [update_of_ne (hbefore p hp').2]
      exact h.since_lt o ho p hp'
    rw [update_of_ne hrn] at hp' ⊢
    have hlt := h.since_lt r hr p hp'
    rcases eq_or_ne p n with rfl | hpn
    · rw [update_self]
      exact Nat.lt_trans (h.since_lt p hn o hp) hlt
    · rwa [update_of_ne hpn]
  · intro r hr x hx hle
    have hr := mem_of_mem_erase hr
    rcases eq_or_ne r n with rfl | hrn
    · rw [update_self] at hle ⊢
      -- older than `o`, so `o` held it and the version before `o` does
      have hlt := h.since_lt r hn o hp
      obtain ⟨a, ha, hxa⟩ := h.inherit r hn x hx (by omega)
      cases hp.symm.trans ha
      exact h.inherit o ho x hxa hle
    · rw [update_of_ne hrn] at hle ⊢
      exact h.inherit r hr x hx hle
  · -- what `n` owns now either was its own or was owned by `o`
    have back : ∀ r ∈ objs.erase o, ∀ x, x ∈ items r → update since n (since o) r < birth x →
        since r < birth x ∨ (r = n ∧ x ∈ items o ∧ since o < birth x) := by
      intro r hr x hx hlt
      rcases eq_or_ne r n with rfl | hrn
      · rw [update_self] at hlt
        rcases Nat.lt_or_ge (since r) (birth x) with hown | hle
        · exact .inl hown
        · obtain ⟨a, ha, hxa⟩ := h.inherit r hn x hx hle
          cases hp.symm.trans ha
          exact .inr ⟨rfl, hxa, hlt⟩
      · rw [update_of_ne hrn] at hlt
        exact .inl hlt
    intro r hr r' hr' x hx hx' h1 h2
    have hm := mem_of_mem_erase hr
    have hm' := mem_of_mem_erase hr'
    rcases back r hr x hx h1 with k1 | ⟨hrn, hxo, k1⟩
    · rcases back r' hr' x hx' h2 with k2 | ⟨-, hxo, k2⟩
      · exact h.owner r hm r' hm' x hx hx' k1 k2
      · exact absurd (h.owner r hm o ho x hx hxo k1 k2) (ne_of_mem_erase hr)
    · rcases back r' hr' x hx' h2 with k2 | ⟨hrn', -, -⟩
      · exact absurd (h.owner r' hm' o ho x hx' hxo k2 k1) (ne_of_mem_erase hr')
      · exact hrn.trans hrn'.symm

end

end Lineage

end Sirius.Lib
