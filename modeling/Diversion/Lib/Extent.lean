import Mathlib.Order.CompletePartialOrder
import Mathlib.Order.Interval.Set.Disjoint
import Mathlib.Data.List.Pairwise
import Mathlib.Tactic.Common

/-!
# Half-open intervals

Intervals `[start, stop)` of a linear order. Two of them are `Apart` if one ends before the
other starts; that is more than disjoint for an empty interval, which then does not lie
strictly inside the other. A `Chain` is a list of intervals, each ending before the next
one starts. Chains are kept by inserting an interval that is apart from all of them
(`Chain.insert`), by merging neighbours (`Chain.merge`) and by replacing an interval with
pieces of it (`Chain.replace`).
-/

/-- The interval `[start, stop)`. -/
structure Extent (α : Type*) where
  start : α
  stop : α
deriving DecidableEq, Repr

namespace Extent

variable {α : Type*} [LinearOrder α] {a b c : Extent α} {l pre post pieces : List (Extent α)}
  {x : α}

/-- One of the intervals ends before the other one starts. -/
def Apart (a b : Extent α) : Prop :=
  a.stop ≤ b.start ∨ b.stop ≤ a.start

instance : DecidableRel (@Apart α _) := fun a b =>
  inferInstanceAs (Decidable (a.stop ≤ b.start ∨ b.stop ≤ a.start))

/-- The points of an extent. -/
def toSet (a : Extent α) : Set α :=
  Set.Ico a.start a.stop

/-- The intervals have no point in common. -/
def Separate (a b : Extent α) : Prop :=
  a.stop ≤ a.start ∨ b.stop ≤ b.start ∨ Apart a b

instance : DecidableRel (@Separate α _) := fun a b =>
  inferInstanceAs (Decidable (a.stop ≤ a.start ∨ b.stop ≤ b.start ∨ Apart a b))

/-- The points of a list of intervals. -/
def covered (l : List (Extent α)) : Set α :=
  {x | ∃ a ∈ l, x ∈ a.toSet}

/-- `a` is a part of `b`. -/
def Within (a b : Extent α) : Prop :=
  b.start ≤ a.start ∧ a.stop ≤ b.stop

theorem Apart.symm (h : Apart a b) : Apart b a :=
  Or.symm h

instance : Std.Symm (@Apart α _) :=
  ⟨fun _ _ h => h.symm⟩

/-- What is apart from an extent is apart from its parts. -/
theorem Within.apart (h : Within a b) (hb : Apart b c) : Apart a c :=
  hb.imp h.2.trans (fun hc => hc.trans h.1)

theorem Within.trans (h : Within a b) (h' : Within b c) : Within a c :=
  ⟨h'.1.trans h.1, h.2.trans h'.2⟩

/-- An interval that is not empty and apart from two neighbours is apart from both
together. -/
theorem Apart.merge (ha : Apart a c) (hb : Apart b c) (hab : a.stop = b.start)
    (hc : c.start < c.stop) : Apart ⟨a.start, b.stop⟩ c := by
  rcases ha with ha | ha
  · rcases hb with hb | hb
    · exact Or.inl hb
    · exact absurd (hb.trans (hab.symm.le.trans ha)) (not_le.2 hc)
  · exact Or.inr ha

/-- The order and the points say the same. -/
theorem separate_iff : Separate a b ↔ Disjoint a.toSet b.toSet := by
  rw [Set.disjoint_left]
  constructor
  · rintro (ha | hb | h | h) x ⟨hax, hxa⟩ ⟨hbx, hxb⟩
    · exact absurd (hax.trans_lt hxa) (not_lt.2 ha)
    · exact absurd (hbx.trans_lt hxb) (not_lt.2 hb)
    · exact absurd (hxa.trans_le h) (not_lt.2 hbx)
    · exact absurd (hxb.trans_le h) (not_lt.2 hax)
  · intro h
    by_contra hcon
    simp only [Separate, Apart, not_or, not_le] at hcon
    obtain ⟨ha, hb, hab, hba⟩ := hcon
    -- the later start is in both
    exact h ⟨le_max_left _ _, max_lt ha hab⟩ ⟨le_max_right _ _, max_lt hba hb⟩

/-- Extents that are apart share no point. -/
theorem Apart.disjoint (h : Apart a b) : Disjoint a.toSet b.toSet :=
  separate_iff.1 (Or.inr (Or.inr h))

/-- The converse, for extents that are not empty. -/
theorem apart_of_disjoint (h : Disjoint a.toSet b.toSet) (ha : a.start < a.stop)
    (hb : b.start < b.stop) : Apart a b := by
  rcases separate_iff.2 h with h | h | h
  · exact absurd h (not_le.2 ha)
  · exact absurd h (not_le.2 hb)
  · exact h

theorem Within.toSet_subset (h : Within a b) : a.toSet ⊆ b.toSet :=
  fun _ hx => ⟨h.1.trans hx.1, hx.2.trans_le h.2⟩

/-- Two neighbours merged have no point of their own. -/
theorem toSet_merge_subset (hab : a.stop = b.start) :
    (⟨a.start, b.stop⟩ : Extent α).toSet ⊆ a.toSet ∪ b.toSet := by
  rintro x ⟨hx, hx'⟩
  rcases lt_or_ge x a.stop with h | h
  · exact Or.inl ⟨hx, h⟩
  · exact Or.inr ⟨hab ▸ h, hx'⟩

/-- An interval and one that starts where it ends. -/
theorem toSet_merge (hab : a.stop = b.start) (ha : a.start ≤ a.stop) (hb : b.start ≤ b.stop) :
    (⟨a.start, b.stop⟩ : Extent α).toSet = a.toSet ∪ b.toSet := by
  refine Set.Subset.antisymm (toSet_merge_subset hab) (Set.union_subset ?_ ?_)
  · exact Within.toSet_subset ⟨le_rfl, hab.le.trans hb⟩
  · exact Within.toSet_subset ⟨ha.trans hab.le, le_rfl⟩

@[simp] theorem covered_nil : covered ([] : List (Extent α)) = ∅ := by
  simp [covered]

@[simp] theorem covered_cons : covered (a :: l) = a.toSet ∪ covered l := by
  ext x
  simp [covered]

@[simp] theorem covered_append : covered (pre ++ post) = covered pre ∪ covered post := by
  ext x
  simp [covered, or_and_right, exists_or]

theorem toSet_subset_covered (h : a ∈ l) : a.toSet ⊆ covered l :=
  fun _ hx => ⟨a, h, hx⟩

/-- Apart from all of a list. -/
theorem disjoint_covered {s : Set α} : Disjoint (covered l) s ↔ ∀ a ∈ l, Disjoint a.toSet s := by
  simp only [Set.disjoint_left, covered, Set.mem_ofPred_eq]
  exact ⟨fun h a ha x hx => h ⟨a, ha, hx⟩, fun h x ⟨a, ha, hx⟩ => h a ha hx⟩

/-! ## Chains -/

/-- Intervals in order, none reaching into the next. -/
structure Chain (l : List (Extent α)) : Prop where
  ordered : l.Pairwise fun a b => a.stop ≤ b.start
  valid : ∀ a ∈ l, a.start ≤ a.stop

theorem chain_nil : Chain ([] : List (Extent α)) :=
  ⟨List.Pairwise.nil, by simp⟩

theorem Chain.sublist (h : Chain l) {l' : List (Extent α)} (hs : l'.Sublist l) : Chain l' :=
  ⟨h.ordered.sublist hs, fun a ha => h.valid a (hs.subset ha)⟩

/-- Two chains where the first lies below the second. -/
theorem chain_append : Chain (pre ++ post) ↔
    Chain pre ∧ Chain post ∧ ∀ a ∈ pre, ∀ b ∈ post, a.stop ≤ b.start := by
  constructor
  · rintro ⟨hord, hval⟩
    obtain ⟨h₁, h₂, h₃⟩ := List.pairwise_append.1 hord
    exact ⟨⟨h₁, fun a ha => hval a (List.mem_append_left _ ha)⟩,
      ⟨h₂, fun a ha => hval a (List.mem_append_right _ ha)⟩, h₃⟩
  · rintro ⟨h₁, h₂, h₃⟩
    exact ⟨List.pairwise_append.2 ⟨h₁.ordered, h₂.ordered, h₃⟩,
      fun a ha => (List.mem_append.1 ha).elim (h₁.valid a) (h₂.valid a)⟩

/-- A chain by its first extent. -/
theorem chain_cons : Chain (a :: l) ↔ a.start ≤ a.stop ∧ (∀ b ∈ l, a.stop ≤ b.start) ∧ Chain l := by
  constructor
  · rintro ⟨hord, hval⟩
    obtain ⟨h₁, h₂⟩ := List.pairwise_cons.1 hord
    exact ⟨hval a (by simp), h₁, h₂, fun b hb => hval b (by simp [hb])⟩
  · rintro ⟨ha, h₁, h₂⟩
    refine ⟨List.pairwise_cons.2 ⟨h₁, h₂.ordered⟩, fun b hb => ?_⟩
    rcases List.mem_cons.1 hb with rfl | hb
    · exact ha
    · exact h₂.valid b hb

theorem chain_singleton (h : a.start ≤ a.stop) : Chain [a] :=
  chain_cons.2 ⟨h, by simp, chain_nil⟩

/-- A chain is in the order of its starts. -/
theorem Chain.starts_le (h : Chain l) : l.Pairwise fun a b => a.start ≤ b.start := by
  refine h.ordered.imp_of_mem fun {a b} ha _ hab => (h.valid a ha).trans hab

theorem Chain.apart (h : Chain l) : l.Pairwise Apart :=
  h.ordered.imp fun hab => Or.inl hab

/-- Two extents of a chain are apart or the same. -/
theorem Chain.eq_or_apart (h : Chain l) (ha : a ∈ l) (hb : b ∈ l) : a = b ∨ Apart a b := by
  by_cases hab : a = b
  · exact Or.inl hab
  · exact Or.inr (h.apart.forall ha hb hab)

/-- Intervals of a chain with a common point are one. -/
theorem Chain.eq_of_mem (h : Chain l) (ha : a ∈ l) (hb : b ∈ l) (hxa : x ∈ a.toSet)
    (hxb : x ∈ b.toSet) : a = b :=
  (h.eq_or_apart ha hb).resolve_right fun hab => Set.disjoint_left.1 hab.disjoint hxa hxb

/-- No interval ends where another one starts, empty ones aside. -/
def NoAdjacent (l : List (Extent α)) : Prop :=
  ∀ a ∈ l, ∀ b ∈ l, a.start < a.stop → b.start < b.stop → a.stop ≠ b.start

/-- Every interval of points that are all covered is part of one of the intervals. -/
def Coalesced (l : List (Extent α)) : Prop :=
  ∀ a : Extent α, a.start < a.stop → a.toSet ⊆ covered l → ∃ b ∈ l, a.Within b

/-- In a chain only neighbours can touch. -/
theorem Chain.coalesced_iff (h : Chain l) : Coalesced l ↔ NoAdjacent l := by
  constructor
  · intro hl a ha b hb hapos hbpos hab
    have hunion : (⟨a.start, b.stop⟩ : Extent α).toSet ⊆ covered l :=
      (toSet_merge_subset hab).trans
        (Set.union_subset (toSet_subset_covered ha) (toSet_subset_covered hb))
    obtain ⟨c, hc, hstart, hstop⟩ := hl ⟨a.start, b.stop⟩
      (hapos.trans (hab.le.trans_lt hbpos)) hunion
    -- `a` and `c` have the start of `a` in common
    obtain rfl := h.eq_of_mem ha hc ⟨le_rfl, hapos⟩
      ⟨hstart, hapos.trans_le ((hab.le.trans hbpos.le).trans hstop)⟩
    exact absurd (hab.le.trans_lt hbpos) (not_lt.2 hstop)
  · intro hl a hapos hsub
    obtain ⟨b, hb, hstart, hlt⟩ := hsub ⟨le_rfl, hapos⟩
    refine ⟨b, hb, hstart, le_of_not_gt fun hstop => ?_⟩
    -- what covers the end of `b` starts there
    obtain ⟨c, hc, hcstart, hcstop⟩ := hsub ⟨hlt.le, hstop⟩
    have hbc : b.Apart c := (h.eq_or_apart hb hc).resolve_left (by rintro rfl; exact hcstop.false)
    have hstop_le : b.stop ≤ c.start := hbc.resolve_right fun hcb =>
      absurd (hcstop.trans_le hcb) (not_lt.2 (hstart.trans hlt.le))
    exact hl b hb c hc (hstart.trans_lt hlt) (hcstart.trans_lt hcstop)
      (le_antisymm hstop_le hcstart)

/-- An interval between the two halves of a chain. -/
theorem Chain.insert (h : Chain (pre ++ post)) (ha : a.start ≤ a.stop)
    (hpre : ∀ b ∈ pre, b.stop ≤ a.start) (hpost : ∀ b ∈ post, a.stop ≤ b.start) :
    Chain (pre ++ a :: post) := by
  obtain ⟨h₁, h₂, h₃⟩ := chain_append.1 h
  refine chain_append.2 ⟨h₁, chain_cons.2 ⟨ha, hpost, h₂⟩, fun b hb c hc => ?_⟩
  rcases List.mem_cons.1 hc with rfl | hc
  · exact hpre b hb
  · exact h₃ b hb c hc

/-- Neighbours can be merged. -/
theorem Chain.merge (h : Chain (pre ++ a :: b :: post)) :
    Chain (pre ++ ⟨a.start, b.stop⟩ :: post) := by
  obtain ⟨h₁, h₂, h₃⟩ := chain_append.1 h
  obtain ⟨ha, hab, h₄⟩ := chain_cons.1 h₂
  obtain ⟨hb, hbp, h₅⟩ := chain_cons.1 h₄
  refine chain_append.2 ⟨h₁, chain_cons.2 ⟨?_, hbp, h₅⟩, fun c hc d hd => ?_⟩
  · exact ha.trans ((hab b (by simp)).trans hb)
  · rcases List.mem_cons.1 hd with rfl | hd
    · exact h₃ c hc a (by simp)
    · exact h₃ c hc d (by simp [hd])

/-- An interval can be replaced with a chain of pieces of it. -/
theorem Chain.replace (h : Chain (pre ++ a :: post)) (hp : Chain pieces)
    (hin : ∀ p ∈ pieces, p.Within a) : Chain (pre ++ (pieces ++ post)) := by
  obtain ⟨h₁, h₂, h₃⟩ := chain_append.1 h
  obtain ⟨-, hap, h₄⟩ := chain_cons.1 h₂
  refine chain_append.2 ⟨h₁, chain_append.2 ⟨hp, h₄, fun p hpp b hb => ?_⟩, fun c hc d hd => ?_⟩
  · exact (hin p hpp).2.trans (hap b hb)
  · rcases List.mem_append.1 hd with hd | hd
    · exact (h₃ c hc a (by simp)).trans (hin d hd).1
    · exact h₃ c hc d (by simp [hd])

/-- The intervals cover `[x, y)` without gap or overlap, in order. -/
def Tiles : α → List (Extent α) → α → Prop
  | x, [], y => x = y
  | x, a :: l, y => a.start = x ∧ x < a.stop ∧ Tiles a.stop l y

/-- Neighbours of pieces are neighbours of what they are pieces of. -/
theorem NoAdjacent.replace (h : NoAdjacent (pre ++ a :: post)) (hchain : Chain (pre ++ a :: post))
    (hp : NoAdjacent pieces) (hin : ∀ p ∈ pieces, p.Within a) :
    NoAdjacent (pre ++ (pieces ++ post)) := by
  obtain ⟨-, hrest, hpre⟩ := chain_append.1 hchain
  have hpost := (chain_cons.1 hrest).2.1
  have hmem : ∀ b ∈ pre ++ (pieces ++ post), b ∈ pre ∨ b ∈ post ∨ b ∈ pieces := by
    simp only [List.mem_append]
    tauto
  have hold : ∀ b, b ∈ pre ∨ b ∈ post → b ∈ pre ++ a :: post := by
    simp only [List.mem_append, List.mem_cons]
    tauto
  intro b hb c hc hbpos hcpos heq
  rcases hmem b hb with hb | hb | hb <;> rcases hmem c hc with hc | hc | hc
  · exact h b (hold b (Or.inl hb)) c (hold c (Or.inl hc)) hbpos hcpos heq
  · exact h b (hold b (Or.inl hb)) c (hold c (Or.inr hc)) hbpos hcpos heq
  · -- `b` ends where the piece starts, which is then the start of `a`
    have hca := hin c hc
    refine h b (hold b (Or.inl hb)) a (by simp) hbpos (hca.1.trans_lt (hcpos.trans_le hca.2)) ?_
    exact le_antisymm (hpre b hb a (by simp)) (hca.1.trans heq.ge)
  · exact h b (hold b (Or.inr hb)) c (hold c (Or.inl hc)) hbpos hcpos heq
  · exact h b (hold b (Or.inr hb)) c (hold c (Or.inr hc)) hbpos hcpos heq
  · -- `b` is behind `a`, so it does not end where a piece of `a` starts
    have hca := hin c hc
    have := (hpost b hb).trans_lt (hbpos.trans_le heq.le)
    exact absurd (this.trans_le (hcpos.le.trans hca.2)) (lt_irrefl _)
  · -- the piece starts behind `c`
    have hba := hin b hb
    have := hba.1.trans_lt (hbpos.trans_le (heq.le.trans hcpos.le))
    exact absurd (this.trans_le (hpre c hc a (by simp))) (lt_irrefl _)
  · have hba := hin b hb
    refine h a (by simp) c (hold c (Or.inr hc)) (hba.1.trans_lt (hbpos.trans_le hba.2)) hcpos ?_
    exact le_antisymm (hpost c hc) (heq.ge.trans hba.2)
  · exact hp b hb c hc hbpos hcpos heq

end Extent
