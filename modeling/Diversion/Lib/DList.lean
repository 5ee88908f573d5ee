import Mathlib.Data.List.Nodup

/-!
# Doubly linked lists in a keyed memory

A memory maps keys to cells that hold an item and the keys of their neighbours.
`Linked m p l q` says that the keyed items `l` sit in `m`, chained in order in both
directions, the first cell pointing back to `p` and the last one on to `q`. A list splits
at any point (`linked_append`), and rewriting the pointer at one of its ends moves that
end (`Linked.setNext`, `Linked.setPrev`), which is all that insertion and removal do.
-/

namespace DList

variable {α : Type*}

/-- A cell : an item and the keys of its neighbours. -/
structure Node (α : Type*) where
  item : α
  next : ℕ
  prev : ℕ

/-- The key of the first item, or `d`. -/
def headKey (d : ℕ) : List (ℕ × α) → ℕ
  | [] => d
  | (k, _) :: _ => k

/-- The key of the last item, or `d`. -/
def lastKey (d : ℕ) : List (ℕ × α) → ℕ
  | [] => d
  | (k, _) :: l => lastKey k l

/-- The items `l`, chained in `m` between the keys `p` and `q`. -/
def Linked (m : ℕ → Option (Node α)) : ℕ → List (ℕ × α) → ℕ → Prop
  | _, [], _ => True
  | p, (k, x) :: l, q => m k = some ⟨x, headKey q l, p⟩ ∧ Linked m k l q

/-- Change the cell at `k`, if there is one. -/
def modify (m : ℕ → Option (Node α)) (k : ℕ) (f : Node α → Node α) : ℕ → Option (Node α) :=
  fun j => if j = k then (m k).map f else m j

variable {m m' : ℕ → Option (Node α)} {p q k : ℕ} {x : α} {l l₁ l₂ : List (ℕ × α)}

@[simp] theorem modify_self (f : Node α → Node α) : modify m k f k = (m k).map f := by
  simp [modify]

/-- The other nodes stay. -/
theorem modify_of_ne {j : ℕ} (f : Node α → Node α) (h : j ≠ k) : modify m k f j = m j := by
  simp [modify, h]

@[simp] theorem modify_eq_none_iff {j : ℕ} (f : Node α → Node α) :
    modify m k f j = none ↔ m j = none := by
  by_cases hj : j = k
  · rw [hj, modify_self, Option.map_eq_none_iff]
  · rw [modify_of_ne f hj]

@[simp] theorem headKey_append : headKey q (l₁ ++ l₂) = headKey (headKey q l₂) l₁ := by
  cases l₁ <;> rfl

@[simp] theorem lastKey_concat : ∀ {p : ℕ} {l : List (ℕ × α)}, lastKey p (l ++ [(k, x)]) = k
  | _, [] => rfl
  | _, e :: l => lastKey_concat (p := e.1) (l := l)

/-- The head of a list that is not empty is one of its keys. -/
theorem headKey_mem (h : l ≠ []) : headKey q l ∈ l.map Prod.fst := by
  cases l with
  | nil => exact absurd rfl h
  | cons e l => exact List.mem_cons_self

/-- So is the tail. -/
theorem lastKey_mem : ∀ {p : ℕ} {l : List (ℕ × α)}, l ≠ [] → lastKey p l ∈ l.map Prod.fst
  | _, [], h => absurd rfl h
  | _, [_], _ => List.mem_cons_self
  | _, a :: e :: l, _ => List.mem_cons_of_mem _ (lastKey_mem (p := a.1) (l := e :: l) (by simp))

/-! ## Chains -/

/-- Two linked pieces are linked with each other. -/
theorem linked_append : Linked m p (l₁ ++ l₂) q ↔
    Linked m p l₁ (headKey q l₂) ∧ Linked m (lastKey p l₁) l₂ q := by
  induction l₁ generalizing p with
  | nil => simp [Linked, lastKey]
  | cons e l₁ ih => simp [Linked, lastKey, ih, and_assoc]

/-- The links depend on the nodes of the list only. -/
theorem Linked.congr (h : Linked m p l q) (hm : ∀ k ∈ l.map Prod.fst, m' k = m k) :
    Linked m' p l q := by
  induction l generalizing p with
  | nil => trivial
  | cons e l ih =>
    exact ⟨(hm _ (by simp)).trans h.1, ih h.2 fun k hk => hm k (List.mem_cons_of_mem _ hk)⟩

/-- The cell of an item in the middle of a chain. -/
theorem Linked.get (h : Linked m p (l₁ ++ (k, x) :: l₂) q) :
    m k = some ⟨x, headKey q l₂, lastKey p l₁⟩ :=
  (linked_append.1 h).2.1

/-- Every key of the list has a node. -/
theorem Linked.exists_of_mem (h : Linked m p l q) (hk : k ∈ l.map Prod.fst) :
    ∃ n, m k = some n := by
  obtain ⟨⟨_, x⟩, hmem, rfl⟩ := List.mem_map.1 hk
  obtain ⟨l₁, l₂, rfl⟩ := List.append_of_mem hmem
  exact ⟨_, h.get⟩

/-- Pointing the last cell on to `q'` moves the end of the chain to `q'`. -/
theorem Linked.setNext (q' : ℕ) (h : Linked m p l q) (hl : (l.map Prod.fst).Nodup) :
    Linked (modify m (lastKey p l) fun n => { n with next := q' }) p l q' := by
  induction l generalizing p with
  | nil => trivial
  | cons e l ih =>
    obtain ⟨hk, hl⟩ := List.nodup_cons.1 hl
    refine ⟨?_, ih h.2 hl⟩
    cases l with
    | nil => simp [lastKey, headKey, h.1]
    | cons e' l =>
      -- the changed cell is further on
      have hne : e.1 ≠ lastKey e.1 (e' :: l) := fun heq => hk (heq ▸ lastKey_mem (by simp))
      exact (modify_of_ne _ hne).trans h.1

/-- Pointing the first cell back to `p'` moves the start of the chain to `p'`. -/
theorem Linked.setPrev (p' : ℕ) (h : Linked m p l q) (hl : (l.map Prod.fst).Nodup) :
    Linked (modify m (headKey q l) fun n => { n with prev := p' }) p' l q := by
  cases l with
  | nil => trivial
  | cons e l =>
    obtain ⟨hk, -⟩ := List.nodup_cons.1 hl
    refine ⟨by simp [headKey, h.1], h.2.congr fun k hmem => modify_of_ne _ ?_⟩
    rintro rfl
    exact hk hmem

end DList
