import Diversion.Lib.FromFn
import Diversion.Lib.Transition
import Diversion.LinkedSlab

/-!
# Histories of the linked slab

`LinkedSlab` under every sequence of `push_front` and `remove` calls, with any keys. The pairs
it should hold are tracked by `pairsAfter`; `Refines` is what callers can see of the list, and
how its nodes are linked. It holds after every history (`refines_pairsAfter`).
-/

namespace Diversion

open DList FromFn

namespace LinkedSlab

variable {T : Type*}

/-- One call of the closure that `iter` makes, whose state is the next key. -/
def iterNext (s : LinkedSlab T) (next : ℕ) : Option (T × ℕ) :=
  (s.inner.get next).map fun node => (node.item, node.next)

/-- A call that changes the list. -/
inductive Call (T : Type*) where
  /-- The slab's `insert` returns the key `vacant`. -/
  | pushFront (vacant : ℕ) (item : T)
  | remove (key : ℕ)

/-- The slab returns a vacant key below `usize::MAX`, and no other one. -/
def step (s : LinkedSlab T) : Call T → Option (LinkedSlab T)
  | .pushFront vacant item =>
    if (s.inner.get vacant).isNone ∧ vacant < usizeMax then some (s.pushFront vacant item).1
    else none
  | .remove key => some (s.remove key).2

/-- What a call makes of the pairs of key and item, newest first. -/
def pairsAfter (l : List (ℕ × T)) : Call T → List (ℕ × T)
  | .pushFront vacant item => (vacant, item) :: l
  | .remove key => l.filter fun pair => pair.1 ≠ key

/-- The list `s`, as seen from outside, is the list `l` of pairs. -/
structure Refines (s : LinkedSlab T) (l : List (ℕ × T)) : Prop where
  len : s.len = l.length
  iter : Yields s.iterNext s.first (l.map Prod.snd)
  first : s.firstItem = l.head?.map Prod.snd
  get : ∀ k, s.get k = l.lookup k
  getNext : ∀ l₁ k x l₂, l = l₁ ++ (k, x) :: l₂ → s.getNext k = l₂.head?.map Prod.snd
  getNext_absent : ∀ k, k ∉ l.map Prod.fst → s.getNext k = none
  /-- The key of a new item is not one of those in the list. -/
  pushFront : ∀ vacant item, (s.step (.pushFront vacant item)).isSome →
    (s.pushFront vacant item).2 = vacant ∧ vacant ∉ l.map Prod.fst
  remove : ∀ k, (s.remove k).1 = l.lookup k
  remove_absent : ∀ k, k ∉ l.map Prod.fst → (s.remove k).2 = s
  /-- The neighbours of a node point back to it. -/
  prev : ∀ k node, s.inner.get k = some node →
    (node.prev = usizeMax ∧ s.first = k) ∨
      ∃ prev, s.inner.get node.prev = some prev ∧ prev.next = k
  next : ∀ k node, s.inner.get k = some node →
    node.next = usizeMax ∨ ∃ next, s.inner.get node.next = some next ∧ next.prev = k

variable {s : LinkedSlab T} {l l₁ l₂ : List (ℕ × T)} {k : ℕ} {x : T}

/-! ## Lookup -/

theorem lookup_eq_none (hk : k ∉ l.map Prod.fst) : l.lookup k = none := by
  rw [List.lookup_eq_none_iff]
  rintro ⟨j, y⟩ hmem
  simpa using fun heq : k = j => hk (List.mem_map.2 ⟨(j, y), hmem, heq.symm⟩)

theorem lookup_append_cons (hk : k ∉ l₁.map Prod.fst) :
    (l₁ ++ (k, x) :: l₂).lookup k = some x := by
  rw [List.lookup_append, lookup_eq_none hk]
  simp

/-- A pair whose key is in the list, with what is around it. -/
theorem exists_split (hk : k ∈ l.map Prod.fst) : ∃ l₁ x l₂, l = l₁ ++ (k, x) :: l₂ := by
  obtain ⟨⟨_, x⟩, hmem, rfl⟩ := List.mem_map.1 hk
  obtain ⟨l₁, l₂, rfl⟩ := List.append_of_mem hmem
  exact ⟨l₁, x, l₂, rfl⟩

theorem filter_ne_of_not_mem (hk : k ∉ l.map Prod.fst) :
    (l.filter fun pair => pair.1 ≠ k) = l := by
  rw [List.filter_eq_self]
  rintro ⟨j, y⟩ hmem
  simpa using fun heq : j = k => hk (List.mem_map.2 ⟨(j, y), hmem, heq⟩)

theorem Represents.not_mem_around (h : Represents s (l₁ ++ (k, x) :: l₂)) :
    k ∉ l₁.map Prod.fst ∧ k ∉ l₂.map Prod.fst := by
  have hn := h.nodup
  rw [List.map_append, List.map_cons, List.nodup_middle] at hn
  simpa [not_or] using (List.nodup_cons.1 hn).1

/-! ## What represents a list refines it -/

/-- From the key of any pair on, the pairs behind it are yielded. -/
theorem Represents.yields (h : Represents s (l₁ ++ l₂)) :
    Yields s.iterNext (headKey usizeMax l₂) (l₂.map Prod.snd) := by
  induction l₂ generalizing l₁ with
  | nil => exact .nil (by simp [iterNext, Slab.get, headKey, h.usizeMax_vacant])
  | cons e l₂ ih =>
    have hsplit : Represents s ((l₁ ++ [e]) ++ l₂) := by simpa using h
    refine .cons ?_ (ih hsplit)
    obtain ⟨k, x⟩ := e
    simp [iterNext, Slab.get, headKey, h.linked.get]

theorem Represents.refines (h : Represents s l) : s.Refines l := by
  have hgetNone : ∀ k, k ∉ l.map Prod.fst → s.inner.get k = none := h.vacant
  have hsplit : ∀ k, k ∈ l.map Prod.fst → ∃ l₁ x l₂, l = l₁ ++ (k, x) :: l₂ ∧
      s.inner.get k = some ⟨x, headKey usizeMax l₂, lastKey usizeMax l₁⟩ ∧
      l.lookup k = some x := by
    intro k hk
    obtain ⟨l₁, x, l₂, rfl⟩ := exists_split hk
    exact ⟨l₁, x, l₂, rfl, h.linked.get, lookup_append_cons h.not_mem_around.1⟩
  have hmem : ∀ k node, s.inner.get k = some node → k ∈ l.map Prod.fst := fun k node hnode => by
    by_contra hk
    cases (hgetNone k hk).symm.trans hnode
  refine
    { len := h.len
      iter := h.first ▸ Represents.yields (show Represents s ([] ++ l) from h)
      first := h.firstItem_eq
      get := fun k => ?_
      getNext := fun l₁ k x l₂ heq => Represents.getNext_eq (heq ▸ h)
      getNext_absent := fun k hk => by simp [getNext, hgetNone k hk]
      pushFront := fun vacant item hsome => ?_
      remove := fun k => ?_
      remove_absent := fun k hk => by rw [remove_of_not_mem h hk]
      prev := fun k node hnode => ?_
      next := fun k node hnode => ?_ }
  · by_cases hk : k ∈ l.map Prod.fst
    · obtain ⟨l₁, x, l₂, rfl, -, hlookup⟩ := hsplit k hk
      rw [h.get_eq, hlookup]
    · simp [get, hgetNone k hk, lookup_eq_none hk]
  · refine ⟨rfl, h.entries_eq_none_iff.1 ?_⟩
    simp only [step] at hsome
    split_ifs at hsome with hvacant
    · simpa [Slab.get] using hvacant.1
    · cases hsome
  · by_cases hk : k ∈ l.map Prod.fst
    · obtain ⟨l₁, x, l₂, rfl, -, hlookup⟩ := hsplit k hk
      rw [(represents_remove h).1, hlookup]
    · rw [remove_of_not_mem h hk, lookup_eq_none hk]
  · obtain ⟨l₁, x, l₂, rfl, hget, -⟩ := hsplit k (hmem k node hnode)
    cases hget.symm.trans hnode
    rcases List.eq_nil_or_concat l₁ with rfl | ⟨l₀, ⟨p, y⟩, rfl⟩
    · exact Or.inl ⟨rfl, h.first⟩
    · have h' : Represents s (l₀ ++ (p, y) :: (k, x) :: l₂) := by simpa using h
      refine Or.inr ⟨⟨y, k, lastKey usizeMax l₀⟩, ?_, rfl⟩
      simp only [List.concat_eq_append, lastKey_concat]
      exact h'.linked.get
  · obtain ⟨l₁, x, l₂, rfl, hget, -⟩ := hsplit k (hmem k node hnode)
    cases hget.symm.trans hnode
    cases l₂ with
    | nil => exact Or.inl rfl
    | cons e l₂ =>
      have h' : Represents s ((l₁ ++ [(k, x)]) ++ e :: l₂) := by simpa using h
      exact Or.inr ⟨_, h'.linked.get, lastKey_concat⟩

/-- A call takes the pairs to those after it. -/
theorem represents_step {t : LinkedSlab T} {call : Call T} (h : Represents s l)
    (hstep : s.step call = some t) : Represents t (pairsAfter l call) := by
  cases call with
  | pushFront vacant item =>
    simp only [step] at hstep
    split_ifs at hstep with hvacant
    obtain rfl := Option.some.inj hstep
    exact represents_pushFront h (by simpa [Slab.get] using hvacant.1) hvacant.2 item
  | remove key =>
    obtain rfl := Option.some.inj hstep
    by_cases hk : key ∈ l.map Prod.fst
    · obtain ⟨l₁, x, l₂, rfl⟩ := exists_split hk
      obtain ⟨h₁, h₂⟩ := h.not_mem_around
      have hfilter : pairsAfter (l₁ ++ (key, x) :: l₂) (.remove key) = l₁ ++ l₂ := by
        rw [pairsAfter, List.filter_append, filter_ne_of_not_mem h₁,
          List.filter_cons_of_neg (by simp), filter_ne_of_not_mem h₂]
      rw [hfilter]
      exact (represents_remove h).2
    · rw [pairsAfter, filter_ne_of_not_mem hk, remove_of_not_mem h hk]
      exact h

/-- After every history of calls the list is the list of the pairs that were put in and not
removed. -/
theorem refines_pairsAfter {calls : List (Call T)} (hrun : Transition.run step new calls = some s) :
    s.Refines (calls.foldl pairsAfter []) := by
  refine Represents.refines ?_
  exact Transition.run_foldl (C := fun _ => True) (fun _ _ _ _ h _ => represents_step h)
    represents_new (fun _ _ => trivial) hrun

/-- The slot of a removed item is used again, then removed under a key that was never one. -/
def sampleCalls : List (Call Char) :=
  [.pushFront 0 'a', .pushFront 1 'b', .remove 0, .pushFront 0 'c', .remove usizeMax]

/-- A list with a removal and a reused key. -/
def sampleList : LinkedSlab Char :=
  let s := ((new.pushFront 0 'a').1.pushFront 1 'b').1
  (((s.remove 0).2.pushFront 0 'c').1.remove usizeMax).2

theorem refines_sampleList : sampleList.Refines [(0, 'c'), (1, 'b')] :=
  refines_pairsAfter (show Transition.run step new sampleCalls = some sampleList from rfl)

end LinkedSlab

end Diversion
