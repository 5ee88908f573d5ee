import Mathlib.Data.List.Basic
import Mathlib.Order.Nat
import Mathlib.Tactic.Common

/-!
# Loads and stores

A memory is a function of the address. `load` reads a block of it, `store` replaces one. A load
of what was stored is the old block overwritten (`load_store_self`), a load from elsewhere is
what it was (`load_store_of_disjoint`). `overwrite_append` splits a block into parts that lie
in different memories.
-/

namespace ByteMemory

variable {α : Type*} {mem : ℕ → α} {addr addr' n : ℕ} {l : List α}

/-- The `n` bytes from `addr` on. -/
def load (mem : ℕ → α) (addr n : ℕ) : List α :=
  (List.range n).map fun i => mem (addr + i)

/-- Write a list from `addr` on. -/
def store (mem : ℕ → α) (addr : ℕ) (l : List α) : ℕ → α := fun a =>
  if addr ≤ a then l[a - addr]?.getD (mem a) else mem a

/-- `old` with its beginning replaced by `new`, as far as it goes. -/
def overwrite (old new : List α) : List α :=
  new.take old.length ++ old.drop new.length

@[simp] theorem length_load : (load mem addr n).length = n := by
  simp [load]

/-- A byte of a load. -/
theorem getElem?_load {i : ℕ} : (load mem addr n)[i]? = if i < n then some (mem (addr + i)) else
    none := by
  rw [load, List.getElem?_map]
  split_ifs with h
  · rw [List.getElem?_range h]
    rfl
  · rw [List.getElem?_eq_none (by simpa using h)]
    rfl

/-- A byte of the list is stored at its offset. -/
theorem store_of_getElem? {i : ℕ} {a : α} (h : l[i]? = some a) :
    store mem addr l (addr + i) = a := by
  simp [store, h]

/-- The rest of the memory stays. -/
theorem store_of_outside {a : ℕ} (h : a < addr ∨ addr + l.length ≤ a) :
    store mem addr l a = mem a := by
  unfold store
  split_ifs with hle
  · rw [List.getElem?_eq_none (by omega)]
    rfl
  · rfl

theorem store_congr {mem' : ℕ → α} {a : ℕ} (h : mem a = mem' a) :
    store mem addr l a = store mem' addr l a := by
  rw [store, store, h]

/-! ## Overwriting -/

@[simp] theorem overwrite_nil (old : List α) : overwrite old [] = old := by
  simp [overwrite]

/-- A list that is long enough replaces everything. -/
theorem overwrite_of_length_le {old new : List α} (h : old.length ≤ new.length) :
    overwrite old new = new.take old.length := by
  rw [overwrite, List.drop_eq_nil_of_le h, List.append_nil]

theorem overwrite_of_length_eq {old new : List α} (h : new.length = old.length) :
    overwrite old new = new := by
  rw [overwrite_of_length_le h.ge, ← h, List.take_length]

theorem overwrite_take (old new : List α) : overwrite old (new.take old.length) =
    overwrite old new := by
  unfold overwrite
  rw [List.take_take, Nat.min_self, List.length_take]
  rcases Nat.le_total old.length new.length with h | h
  · rw [Nat.min_eq_left h, List.drop_length, List.drop_eq_nil_of_le h]
  · rw [Nat.min_eq_right h]

/-- The second part is overwritten with what the first one leaves. -/
theorem overwrite_append (a b new : List α) :
    overwrite (a ++ b) new = overwrite a new ++ overwrite b (new.drop a.length) := by
  unfold overwrite
  rcases Nat.le_total new.length a.length with h | h
  · rw [List.drop_eq_nil_of_le h, List.take_of_length_le (by simp; omega),
      List.take_of_length_le h, List.drop_append_of_le_length h]
    simp
  · rw [List.drop_append, List.drop_eq_nil_of_le h, List.length_append, List.take_add,
      List.length_drop]
    simp

/-- A load from the same address, of any length. -/
theorem load_store_self : load (store mem addr l) addr n = overwrite (load mem addr n) l := by
  refine List.ext_getElem? fun i => ?_
  rw [getElem?_load, overwrite, length_load]
  by_cases hi : i < l.length
  · by_cases hn : i < n
    · rw [if_pos hn, List.getElem?_append_left (by rw [List.length_take]; omega),
        List.getElem?_take_of_lt hn, List.getElem?_eq_getElem hi,
        store_of_getElem? (List.getElem?_eq_getElem hi)]
    · rw [if_neg hn, List.getElem?_eq_none]
      simp
      omega
  · have htake : (l.take n).length = min n l.length := List.length_take
    by_cases hn : i < n
    · have hidx : l.length + (i - min n l.length) = i := by omega
      rw [List.getElem?_append_right (by omega), List.getElem?_drop, htake, hidx, getElem?_load,
        if_pos hn, if_pos hn, store_of_outside (by omega)]
    · rw [if_neg hn, List.getElem?_eq_none]
      simp
      omega

/-- A store leaves what lies beside it. -/
theorem load_store_of_disjoint (h : addr' + n ≤ addr ∨ addr + l.length ≤ addr') :
    load (store mem addr l) addr' n = load mem addr' n := by
  refine List.map_congr_left fun i hi => store_of_outside ?_
  have := List.mem_range.1 hi
  omega

/-- In an array with `size` bytes an element, a store to the element `m` is seen there. -/
theorem load_store_element {size m k : ℕ} (hn : n ≤ size) (hl : l.length ≤ size) :
    load (store mem (size * m) l) (size * k) n =
      if k = m then overwrite (load mem (size * k) n) l else load mem (size * k) n := by
  split_ifs with h
  · subst h
    exact load_store_self
  · refine load_store_of_disjoint ?_
    rcases Nat.lt_or_gt_of_ne h with hlt | hlt
    · have := Nat.mul_le_mul_left size hlt
      rw [Nat.mul_succ] at this
      omega
    · have := Nat.mul_le_mul_left size hlt
      rw [Nat.mul_succ] at this
      omega

/-! ## Stores -/

/-- Writing back what was read. -/
theorem store_load (mem : ℕ → α) (addr n : ℕ) : store mem addr (load mem addr n) = mem := by
  funext a
  unfold store
  split_ifs with h
  · obtain ⟨i, rfl⟩ := Nat.exists_eq_add_of_le h
    rw [Nat.add_sub_cancel_left, getElem?_load]
    split_ifs <;> rfl
  · rfl

/-- A block is stored in two parts. -/
theorem store_append (mem : ℕ → α) (addr : ℕ) (l l' : List α) :
    store mem addr (l ++ l') = store (store mem (addr + l.length) l') addr l := by
  funext a
  unfold store
  rcases Nat.lt_or_ge a addr with h | h
  · rw [if_neg (by omega), if_neg (by omega), if_neg (by omega)]
  rw [if_pos h, if_pos h]
  rcases Nat.lt_or_ge (a - addr) l.length with hlt | hge
  · rw [List.getElem?_append_left hlt, List.getElem?_eq_getElem hlt, Option.getD_some,
      Option.getD_some]
  · rw [List.getElem?_append_right hge, List.getElem?_eq_none hge, Option.getD_none,
      if_pos (by omega), Nat.sub_add_eq]

/-- Storing a block with the rest of what was there. -/
theorem store_overwrite_load (h : l.length ≤ n) :
    store mem addr (overwrite (load mem addr n) l) = store mem addr l := by
  have hdrop : (load mem addr n).drop l.length =
      load mem (addr + l.length) (n - l.length) := by
    refine List.ext_getElem? fun i => ?_
    rw [List.getElem?_drop, getElem?_load, getElem?_load, Nat.add_assoc]
    split_ifs <;> first | rfl | omega
  rw [overwrite, length_load, List.take_of_length_le h, hdrop, store_append, store_load]

end ByteMemory
