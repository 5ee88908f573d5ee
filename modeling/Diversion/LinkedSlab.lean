import Diversion.Lib.DList
import Diversion.Word

/-!
# The linked slab

`LinkedSlab` (abi/src/linked_slab.rs) is a doubly linked list whose nodes live in a
`Slab`, newest item first. The slab crate hands out the keys : `Slab.insert` takes the
vacant key the crate returned, so a list can be run under every choice it may make, reused
slots included. `usize::MAX` is never a key and stands for "no node".

`Represents s l` says that the slab list `s` holds exactly the pairs `l` of key and item.
`push_front` puts a pair first (`represents_pushFront`), `remove` deletes the pair of its
key (`represents_remove`) or changes nothing (`remove_of_not_mem`), and `first`, `get` and
`get_next` read the pairs off the list.
-/

namespace Diversion

open DList

/-! ## The slab -/

/-- The `Slab` of the slab crate : its occupied entries, and their number. -/
structure Slab (T : Type*) where
  entries : ℕ → Option T
  len : ℕ

namespace Slab

variable {T : Type*}

/-- `Slab::new`. -/
def new : Slab T :=
  ⟨fun _ => none, 0⟩

/-- `Slab::get`. -/
def get (s : Slab T) (key : ℕ) : Option T :=
  s.entries key

/-- `Slab::insert`, where `vacant` is the vacant key it returns. -/
def insert (s : Slab T) (vacant : ℕ) (val : T) : Slab T :=
  ⟨Function.update s.entries vacant (some val), s.len + 1⟩

/-- `Slab::try_remove`. -/
def tryRemove (s : Slab T) (key : ℕ) : Option (T × Slab T) :=
  (s.entries key).map fun val => (val, ⟨Function.update s.entries key none, s.len - 1⟩)

end Slab

/-! ## The list -/

/-- A node of the list : the item and the keys of its neighbours. -/
abbrev Node (T : Type*) := DList.Node T

/-- `LinkedSlab`, a slab whose entries are a list. The key `usize::MAX` is no entry. -/
structure LinkedSlab (T : Type*) where
  inner : Slab (Node T)
  first : ℕ

namespace LinkedSlab

variable {T : Type*}

/-- `LinkedSlab::new`. -/
def new : LinkedSlab T :=
  ⟨Slab.new, usizeMax⟩

/-- `LinkedSlab::len`. -/
def len (s : LinkedSlab T) : ℕ :=
  s.inner.len

/-- `LinkedSlab::get`. -/
def get (s : LinkedSlab T) (key : ℕ) : Option T :=
  (s.inner.get key).map Node.item

/-- `LinkedSlab::first`, the item at the field `first`. -/
def firstItem (s : LinkedSlab T) : Option T :=
  s.get s.first

/-- `LinkedSlab::get_next`, the item behind the one of a key. -/
def getNext (s : LinkedSlab T) (key : ℕ) : Option T :=
  (s.inner.get key).bind fun node => s.get node.next

/-- Assign to a node through `Slab::get_mut`, if there is one at `key`. -/
def modifyNode (s : Slab (Node T)) (key : ℕ) (f : Node T → Node T) : Slab (Node T) :=
  { s with entries := modify s.entries key f }

/-- `push_front`, where the slab's `insert` returns the vacant key `vacant`. -/
def pushFront (s : LinkedSlab T) (vacant : ℕ) (item : T) : LinkedSlab T × ℕ :=
  let oldFirst := s.first
  let inner := s.inner.insert vacant { item := item, next := oldFirst, prev := usizeMax }
  let first := vacant
  let inner := modifyNode inner oldFirst fun node => { node with prev := first }
  (⟨inner, first⟩, first)

/-- `LinkedSlab::remove`, which links the neighbours with each other. -/
def remove (s : LinkedSlab T) (key : ℕ) : Option T × LinkedSlab T :=
  match s.inner.tryRemove key with
  | none => (none, s)
  | some (node, inner) =>
    match inner.get node.prev with
    | some _ =>
      let inner := modifyNode inner node.prev fun prev => { prev with next := node.next }
      (some node.item, ⟨modifyNode inner node.next fun next => { next with prev := node.prev },
        s.first⟩)
    | none =>
      (some node.item, ⟨modifyNode inner node.next fun next => { next with prev := usizeMax },
        node.next⟩)

/-! ## The pairs a list holds -/

/-- The list `s` holds the pairs `l` of key and item, in order. -/
structure Represents (s : LinkedSlab T) (l : List (ℕ × T)) : Prop where
  first : s.first = headKey usizeMax l
  linked : Linked s.inner.entries usizeMax l usizeMax
  nodup : (l.map Prod.fst).Nodup
  lt : ∀ k ∈ l.map Prod.fst, k < usizeMax
  vacant : ∀ k, k ∉ l.map Prod.fst → s.inner.entries k = none
  len : s.inner.len = l.length

variable {s : LinkedSlab T} {l l₁ l₂ : List (ℕ × T)} {k : ℕ} {x : T}

theorem represents_new : Represents (new : LinkedSlab T) [] where
  first := rfl
  linked := trivial
  nodup := List.nodup_nil
  lt := by simp
  vacant _ _ := rfl
  len := rfl

/-- No node has the key `usize::MAX`. -/
theorem Represents.usizeMax_vacant (h : Represents s l) : s.inner.entries usizeMax = none :=
  h.vacant _ fun hmem => absurd (h.lt _ hmem) (lt_irrefl _)

theorem Represents.entries_eq_none_iff (h : Represents s l) :
    s.inner.entries k = none ↔ k ∉ l.map Prod.fst := by
  refine ⟨fun hk hmem => ?_, h.vacant k⟩
  obtain ⟨n, hn⟩ := h.linked.exists_of_mem hmem
  rw [hk] at hn
  cases hn

theorem Represents.get_eq (h : Represents s (l₁ ++ (k, x) :: l₂)) : s.get k = some x := by
  simp [LinkedSlab.get, Slab.get, h.linked.get]

theorem Represents.get_headKey (h : Represents s (l₁ ++ l₂)) :
    s.get (headKey usizeMax l₂) = l₂.head?.map Prod.snd := by
  cases l₂ with
  | nil => simp [LinkedSlab.get, Slab.get, headKey, h.usizeMax_vacant]
  | cons e l₂ => exact h.get_eq

theorem Represents.firstItem_eq (h : Represents s l) :
    s.firstItem = l.head?.map Prod.snd := by
  rw [firstItem, h.first]
  exact Represents.get_headKey (show Represents s ([] ++ l) from h)

/-- `get_next` is the item of the pair after the key's. -/
theorem Represents.getNext_eq (h : Represents s (l₁ ++ (k, x) :: l₂)) :
    s.getNext k = l₂.head?.map Prod.snd := by
  have h₂ : Represents s ((l₁ ++ [(k, x)]) ++ l₂) := by simpa using h
  simp only [getNext, Slab.get, h.linked.get, Option.bind_some]
  exact h₂.get_headKey

/-! ## Insertion -/

theorem pushFront_snd (s : LinkedSlab T) (k : ℕ) (x : T) : (s.pushFront k x).2 = k :=
  rfl

/-- `push_front` puts the item first, under the key it returns. -/
theorem represents_pushFront (h : Represents s l) (hk : s.inner.entries k = none)
    (hlt : k < usizeMax) (x : T) : Represents (s.pushFront k x).1 ((k, x) :: l) := by
  have hmem : k ∉ l.map Prod.fst := h.entries_eq_none_iff.1 hk
  have hold : k ≠ headKey usizeMax l := by
    cases l with
    | nil => exact Nat.ne_of_lt hlt
    | cons e l => exact fun heq => hmem (heq ▸ headKey_mem (by simp))
  -- the rest of the list is not touched by the insertion, then its first node points back
  have hrest : Linked (Function.update s.inner.entries k (some ⟨x, s.first, usizeMax⟩))
      usizeMax l usizeMax :=
    h.linked.congr fun j hj => Function.update_of_ne (by rintro rfl; exact hmem hj) _ _
  refine ⟨rfl, ⟨?_, ?_⟩, ?_, ?_, ?_, ?_⟩
  · simp only [pushFront, modifyNode, Slab.insert, h.first]
    rw [modify_of_ne _ hold, Function.update_self]
  · simp only [pushFront, modifyNode, Slab.insert, h.first] at hrest ⊢
    exact hrest.setPrev k h.nodup
  · exact List.nodup_cons.2 ⟨hmem, h.nodup⟩
  · intro j hj
    rcases List.mem_cons.1 hj with rfl | hj
    · exact hlt
    · exact h.lt j hj
  · intro j hj
    simp only [List.map_cons, List.mem_cons, not_or] at hj
    simp [pushFront, modifyNode, Slab.insert, Function.update_of_ne hj.1, h.vacant j hj.2]
  · simp [pushFront, modifyNode, Slab.insert, h.len]

/-! ## Removal -/

/-- Removing an absent key changes nothing. -/
theorem remove_of_not_mem (h : Represents s l) (hk : k ∉ l.map Prod.fst) :
    s.remove k = (none, s) := by
  simp [remove, Slab.tryRemove, h.vacant k hk]

/-- The chain without the node at `k`, before its neighbours are joined. -/
theorem Represents.linked_erase (h : Represents s (l₁ ++ (k, x) :: l₂)) :
    Linked (Function.update s.inner.entries k none) usizeMax l₁ k ∧
      Linked (Function.update s.inner.entries k none) k l₂ usizeMax := by
  have hn := h.nodup
  rw [List.map_append, List.map_cons, List.nodup_append] at hn
  obtain ⟨-, hn₂, hdisj⟩ := hn
  obtain ⟨h₁, -, h₂⟩ := linked_append.1 h.linked
  constructor
  · refine h₁.congr fun j hj => Function.update_of_ne ?_ _ _
    exact fun heq => hdisj j hj k (by simp) heq
  · refine h₂.congr fun j hj => Function.update_of_ne ?_ _ _
    rintro rfl
    exact (List.nodup_cons.1 hn₂).1 hj

theorem mem_headKey_of_ne_usizeMax {l : List (ℕ × T)} (h : headKey usizeMax l ≠ usizeMax) :
    headKey usizeMax l ∈ l.map Prod.fst :=
  headKey_mem fun hl => h (by rw [hl]; rfl)

/-- Once the neighbours point to each other, the chain closes over the removed node. -/
theorem Represents.linked_rejoin (h : Represents s (l₁ ++ (k, x) :: l₂)) :
    Linked (modify (modify (Function.update s.inner.entries k none) (lastKey usizeMax l₁)
        fun prev => { prev with next := headKey usizeMax l₂ })
      (headKey usizeMax l₂) fun next => { next with prev := lastKey usizeMax l₁ })
      usizeMax (l₁ ++ l₂) usizeMax := by
  have hn := h.nodup
  rw [List.map_append, List.map_cons, List.nodup_append] at hn
  obtain ⟨hn₁, hn₂, hdisj⟩ := hn
  obtain ⟨-, hn₂⟩ := List.nodup_cons.1 hn₂
  have hlt := h.lt
  simp only [List.map_append, List.map_cons, List.mem_append, List.mem_cons] at hlt
  obtain ⟨he₁, he₂⟩ := h.linked_erase
  refine linked_append.2 ⟨?_, ?_⟩
  · refine (he₁.setNext (headKey usizeMax l₂) hn₁).congr fun j hj => modify_of_ne _ ?_
    rintro rfl
    have hmem := mem_headKey_of_ne_usizeMax (Nat.ne_of_lt (hlt _ (Or.inl hj)))
    exact hdisj _ hj _ (List.mem_cons_of_mem _ hmem) rfl
  · have he₂' : Linked (modify (Function.update s.inner.entries k none) (lastKey usizeMax l₁)
        fun prev => { prev with next := headKey usizeMax l₂ }) k l₂ usizeMax := by
      refine he₂.congr fun j hj => modify_of_ne _ ?_
      rintro rfl
      by_cases hl₁ : l₁ = []
      · subst hl₁
        exact absurd (hlt _ (Or.inr (Or.inr hj))) (lt_irrefl _)
      · exact hdisj _ (lastKey_mem hl₁) _ (List.mem_cons_of_mem _ hj) rfl
    exact he₂'.setPrev _ hn₂

/-- `remove` returns the item of the key and deletes exactly its pair. -/
theorem represents_remove (h : Represents s (l₁ ++ (k, x) :: l₂)) :
    (s.remove k).1 = some x ∧ Represents (s.remove k).2 (l₁ ++ l₂) := by
  have hget := h.linked.get
  have hn := h.nodup
  rw [List.map_append, List.map_cons, List.nodup_middle] at hn
  obtain ⟨hk, hn⟩ := List.nodup_cons.1 hn
  rw [← List.map_append] at hn
  have hlt : ∀ j ∈ (l₁ ++ l₂).map Prod.fst, j < usizeMax := fun j hj =>
    h.lt j (by simp only [List.map_append, List.map_cons, List.mem_append, List.mem_cons] at hj ⊢
               tauto)
  have hvac : ∀ j, j ∉ (l₁ ++ l₂).map Prod.fst →
      Function.update s.inner.entries k none j = none := by
    intro j hj
    by_cases hjk : j = k
    · rw [hjk, Function.update_self]
    · rw [Function.update_of_ne hjk]
      refine h.vacant j fun hmem => hj ?_
      simp only [List.map_append, List.map_cons, List.mem_append, List.mem_cons] at hmem ⊢
      tauto
  have hlen : s.inner.len - 1 = (l₁ ++ l₂).length := by
    rw [h.len]
    simp
  have hjoin := h.linked_rejoin
  cases l₁ with
  | nil =>
    -- the first node : there is no node at its `prev`
    have hmax : Function.update s.inner.entries k none usizeMax = none :=
      hvac _ fun hmem => absurd (hlt _ hmem) (lt_irrefl _)
    have hmod : modify (Function.update s.inner.entries k none) usizeMax
        (fun prev => { prev with next := headKey usizeMax l₂ }) =
        Function.update s.inner.entries k none := by
      funext j
      by_cases hj : j = usizeMax
      · rw [hj, modify_self, hmax, Option.map_none]
      · exact modify_of_ne _ hj
    simp only [lastKey, hmod, List.nil_append] at hget hjoin
    have hres : s.remove k = (some x, ⟨⟨modify (Function.update s.inner.entries k none)
        (headKey usizeMax l₂) fun next => { next with prev := usizeMax }, s.inner.len - 1⟩,
        headKey usizeMax l₂⟩) := by
      simp [remove, Slab.tryRemove, Slab.get, modifyNode, hget, hmax]
    rw [hres]
    exact ⟨rfl, rfl, hjoin, hn, hlt, fun j hj => (modify_eq_none_iff _).2 (hvac j hj), hlen⟩
  | cons e l₁ =>
    have hprev : ∃ n, Function.update s.inner.entries k none
        (lastKey usizeMax (e :: l₁)) = some n :=
      h.linked_erase.1.exists_of_mem (lastKey_mem (by simp))
    obtain ⟨n, hprev⟩ := hprev
    have hres : s.remove k = (some x, ⟨⟨modify (modify (Function.update s.inner.entries k none)
          (lastKey usizeMax (e :: l₁)) fun prev => { prev with next := headKey usizeMax l₂ })
        (headKey usizeMax l₂) fun next => { next with prev := lastKey usizeMax (e :: l₁) },
        s.inner.len - 1⟩, s.first⟩) := by
      simp [remove, Slab.tryRemove, Slab.get, modifyNode, hget, hprev]
    rw [hres]
    refine ⟨rfl, ?_, hjoin, hn, hlt, fun j hj => ?_, hlen⟩
    · rw [h.first]
      rfl
    · exact (modify_eq_none_iff _).2 ((modify_eq_none_iff _).2 (hvac j hj))

end LinkedSlab

end Diversion
