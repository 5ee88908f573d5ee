import Diversion.PodVec
import Mathlib.Algebra.GroupWithZero.Nat

/-!
# The process context

`ProcessContext` (src/abi/src/context/process.rs) holds the range allocator and the table of
thunks, sorted by the address of the function they were installed at. `getThunk` is a binary
search for an address, and what it returns on a miss is the index to insert at.

`Registers` says which entries the table has. As long as they are sorted, `getThunk` finds
exactly those (`getThunk_eq_ok_iff`), and inserting at the slot of a miss adds one entry and
keeps them sorted (`Registers.insertThunk`).
-/

namespace Diversion

open PartitionPoint

/-- `thunk` is the address of the thunk's pointer. -/
structure ThunkFn where
  addr : ℕ
  thunk : ℕ
deriving DecidableEq, Repr

/-- The layout of two words. -/
def ThunkFn.layout : Layout :=
  .twoWords

/-- `ThunkSlot` : where to insert the thunk of `target`. -/
structure ThunkSlot where
  index : ℕ
  target : ℕ
deriving DecidableEq, Repr

/-- `ProcessContext`, the allocator and the table of the thunks. -/
structure ProcessContext where
  alloc : BoundedRangeAllocator
  thunks : PodVec ThunkFn
deriving DecidableEq

namespace ProcessContext

/-- The zeroed context. -/
def zeroed : ProcessContext :=
  ⟨.zeroed, .new⟩

/-- `get_thunk`, the thunk of a target or the slot for it. -/
def getThunk (context : ProcessContext) (target : ℕ) : Except ThunkSlot ℕ :=
  let thunks := context.thunks.asSlice
  match binarySearchBy (fun thunk => compare thunk.addr target) thunks with
  | .ok i =>
    match thunks[i]? with
    | some entry => .ok entry.thunk
    -- the index of a hit is in bounds
    | none => .error ⟨i, target⟩
  | .error index => .error ⟨index, target⟩

/-- `insert_thunk`. It panics if the table cannot grow. -/
def insertThunk (pageSize : ℕ) (mmap : Mmap) (context : ProcessContext) (slot : ThunkSlot)
    (thunk : ℕ) : Option ProcessContext :=
  (context.thunks.insert ThunkFn.layout pageSize mmap slot.index ⟨slot.target, thunk⟩).map
    fun thunks => { context with thunks }

/-! ## The entries -/

/-- The table has the entries of `l`, sorted by address. -/
structure Registers (context : ProcessContext) (l : List ThunkFn) : Prop where
  holds : context.thunks.Holds ThunkFn.layout l
  sorted : l.Pairwise fun x y => x.addr < y.addr

variable {context context' : ProcessContext} {l : List ThunkFn} {a thunk pageSize : ℕ}
  {slot : ThunkSlot} {mmap : Mmap}

theorem registers_zeroed : Registers .zeroed [] :=
  ⟨PodVec.holds_new, List.Pairwise.nil⟩

theorem Registers.compares (h : Registers context l) (a : ℕ) :
    Compares (fun x : ThunkFn => compare x.addr a) l := by
  refine h.sorted.imp fun {x y} hxy hy => ?_
  rw [Nat.compare_eq_lt]
  rw [Nat.compare_ne_gt] at hy
  omega

/-- An address has one entry. -/
theorem Registers.eq_of_addr (h : Registers context l) {x y : ThunkFn} (hx : x ∈ l) (hy : y ∈ l)
    (haddr : x.addr = y.addr) : x = y :=
  List.Pairwise.forall_of_forall_of_flip (R := fun x y => x.addr = y.addr → x = y)
    (fun _ _ _ => rfl) (h.sorted.imp fun hlt heq => absurd heq hlt.ne)
    (h.sorted.imp fun hlt heq => absurd heq hlt.ne') hx hy haddr

/-- `getThunk` finds the entry of the address, or the place for it. -/
theorem Registers.getThunk_cases (h : Registers context l) (a : ℕ) :
    (∃ thunk, context.getThunk a = .ok thunk ∧ ⟨a, thunk⟩ ∈ l) ∨
      ∃ i, context.getThunk a = .error ⟨i, a⟩ ∧ i ≤ l.length ∧
        (∀ x ∈ l.take i, x.addr < a) ∧ ∀ x ∈ l.drop i, a < x.addr := by
  unfold getThunk
  rw [h.holds.asSlice_eq]
  rcases binarySearchBy_spec (h.compares a) with ⟨i, x, hok, hi, hx⟩ | ⟨i, herr, hvacancy⟩
  · obtain rfl : x.addr = a := Nat.compare_eq_eq.1 hx
    exact Or.inl ⟨x.thunk, by simp [hok, hi], List.mem_of_getElem? hi⟩
  · exact Or.inr ⟨i, by simp [herr], hvacancy.le_length,
      fun x hx => Nat.compare_eq_lt.1 (hvacancy.lt_of_mem_take x hx),
      fun x hx => Nat.compare_eq_gt.1 (hvacancy.gt_of_mem_drop x hx)⟩

theorem Registers.getThunk_eq_ok_iff (h : Registers context l) :
    context.getThunk a = .ok thunk ↔ ⟨a, thunk⟩ ∈ l := by
  rcases h.getThunk_cases a with ⟨thunk', hok, hmem⟩ | ⟨i, herr, hi, hlt, hgt⟩
  · rw [hok, Except.ok.injEq]
    constructor
    · rintro rfl
      exact hmem
    · exact fun hmem' => congrArg ThunkFn.thunk (h.eq_of_addr hmem hmem' rfl)
  · rw [herr]
    refine iff_of_false (by simp) fun hmem => ?_
    rw [← List.take_append_drop i l, List.mem_append] at hmem
    exact hmem.elim (fun hmem => absurd (hlt _ hmem) (lt_irrefl _)) fun hmem =>
      absurd (hgt _ hmem) (lt_irrefl _)

theorem Registers.getThunk_eq_error (h : Registers context l)
    (hget : context.getThunk a = .error slot) :
    slot.target = a ∧ slot.index ≤ l.length ∧ (∀ x ∈ l.take slot.index, x.addr < a) ∧
      ∀ x ∈ l.drop slot.index, a < x.addr := by
  rcases h.getThunk_cases a with ⟨thunk, hok, -⟩ | ⟨i, herr, hspec⟩
  · simp [hok] at hget
  · obtain rfl := Except.error.inj (herr.symm.trans hget)
    exact ⟨rfl, hspec⟩

theorem insertIdx_eq_take_append {α : Type*} {l : List α} {i : ℕ} (hi : i ≤ l.length) (x : α) :
    l.insertIdx i x = l.take i ++ x :: l.drop i := by
  have := BoundedRangeAllocator.insertIdx_length_append (l.take i) (l.drop i) x
  rwa [List.take_append_drop, List.length_take_of_le hi] at this

/-- Inserting at the slot of a miss adds an entry for the address, and no other changes. -/
theorem Registers.insertThunk (h : Registers context l) (hmmap : LawfulMmap pageSize mmap)
    (hget : context.getThunk a = .error slot)
    (hinsert : context.insertThunk pageSize mmap slot thunk = some context') :
    context'.alloc = context.alloc ∧ Registers context' (l.insertIdx slot.index ⟨a, thunk⟩) := by
  obtain ⟨rfl, hindex, hlt, hgt⟩ := h.getThunk_eq_error hget
  obtain ⟨thunks, hthunks, rfl⟩ := Option.map_eq_some_iff.1 hinsert
  refine ⟨rfl, (h.holds.insert (by decide) hmmap hthunks).2, ?_⟩
  rw [insertIdx_eq_take_append hindex, List.pairwise_append, List.pairwise_cons]
  have hpair := h.sorted
  rw [← List.take_append_drop slot.index l, List.pairwise_append] at hpair
  refine ⟨hpair.1, ⟨fun x hx => hgt x hx, hpair.2.1⟩, fun x hx y hy => ?_⟩
  rcases List.mem_cons.1 hy with rfl | hy
  · exact hlt x hx
  · exact hpair.2.2 x hx y hy

end ProcessContext

end Diversion
