import Diversion.RangeAllocator

/-!
# PodVec

The growing vector of src/abi/src/alloc/vec.rs, which the process context keeps its tables
in : `insert` moves the elements behind the index up by one cell, in an allocation that
`reserve_one` has replaced with a larger one if it was full. The memory is the operating
system's, `Mmap`; `LawfulMmap` is what a successful `mmap` promises.

`Holds` says which list a vector holds, and `Holds.insert` that inserting into the one is
`List.insertIdx` on the other.
-/

namespace Diversion

/-- `PodVec<T>` : `cells` is the memory from `ptr` on, `cap` cells long. -/
structure PodVec (α : Type) where
  cells : List (Option α)
  len : ℕ
  rawPtr : ℕ
  rawLen : ℕ
deriving DecidableEq, Repr

/-- `mmap` of a number of bytes at an address the system chooses, `none` on failure. -/
abbrev Mmap := ℕ → Option ℕ

namespace PodVec

variable {α : Type}

/-- The zeroed vector. -/
def new : PodVec α :=
  ⟨[], 0, 0, 0⟩

/-- How many values there is room for. -/
def cap (v : PodVec α) : ℕ :=
  v.cells.length

/-- `as_slice`. -/
def asSlice (v : PodVec α) : List α :=
  (v.cells.take v.len).reduceOption

/-- Three halves of the capacity in bytes, in whole pages. -/
def rawLenForGrow (layout : Layout) (v : PodVec α) (align : ℕ) : ℕ :=
  let newCap := v.cap + max (v.cap / 2) 1
  let aligned := newCap * layout.size % wordSize
  let aligned := if align < layout.align then wrappingAdd aligned (layout.align - 1) else aligned
  nextMultipleOf aligned align

/-- `raw_ptr_assign` : the elements are copied to the first aligned address. -/
def rawPtrAssign (layout : Layout) (v : PodVec α) (rawPtr rawLen : ℕ) : PodVec α :=
  let alignOffset := nextMultipleOf rawPtr layout.align - rawPtr
  let cap := (rawLen - alignOffset) / layout.size
  { v with cells := v.cells.take v.len ++ List.replicate (cap - v.len) none, rawPtr, rawLen }

/-- `reserve_one`. It panics if `mmap` fails. -/
def reserveOne (layout : Layout) (pageSize : ℕ) (mmap : Mmap) (v : PodVec α) :
    Option (PodVec α) :=
  if v.len = v.cap then
    let rawLen := v.rawLenForGrow layout pageSize
    (mmap rawLen).map fun rawPtr => v.rawPtrAssign layout rawPtr rawLen
  else some v

/-- `ptr::copy` of `count` cells within an allocation. -/
def copyWithin (cells : List (Option α)) (src dst count : ℕ) : List (Option α) :=
  cells.take dst ++ (cells.drop src).take count ++ cells.drop (dst + count)

/-- `insert`. It panics if the index is out of bounds. -/
def insert (layout : Layout) (pageSize : ℕ) (mmap : Mmap) (v : PodVec α) (index : ℕ)
    (value : α) : Option (PodVec α) :=
  if index ≤ v.len then do
    let v ← v.reserveOne layout pageSize mmap
    let cells := if index ≠ v.len then copyWithin v.cells index (index + 1) (v.len - index)
      else v.cells
    some { v with cells := cells.set index (some value), len := v.len + 1 }
  else none

end PodVec

/-- Pages are a power of two. A mapping starts at one, and it ends in user space. -/
structure LawfulMmap (pageSize : ℕ) (mmap : Mmap) : Prop where
  page_pow : ∃ k, pageSize = 2 ^ k
  page_le : pageSize ≤ 2 ^ 32
  aligned : ∀ {len ptr}, mmap len = some ptr → pageSize ∣ ptr
  fits : ∀ {len ptr}, mmap len = some ptr → ptr + len ≤ isizeMax + 1

namespace PodVec

variable {α : Type} {layout : Layout} {pageSize index rawPtr rawLen : ℕ} {mmap : Mmap}
  {v v' : PodVec α} {l : List α} {value : α}

/-- The vector holds the elements of `l`, within an allocation of the system. -/
structure Holds (layout : Layout) (v : PodVec α) (l : List α) : Prop where
  len : v.len = l.length
  cells : v.cells.take l.length = l.map some
  allocated : v.cap * layout.size ≤ isizeMax + 1

theorem holds_new : Holds layout (new : PodVec α) [] :=
  ⟨rfl, rfl, by simp [new, cap]⟩

theorem Holds.length_le_cap (h : Holds layout v l) : l.length ≤ v.cap := by
  have := congrArg List.length h.cells
  rw [List.length_take, List.length_map] at this
  exact this ▸ Nat.min_le_right _ _

theorem Holds.asSlice_eq (h : Holds layout v l) : v.asSlice = l := by
  rw [asSlice, h.len, h.cells]
  exact List.filterMap_map.trans List.filterMap_some

/-! ## Growing -/

theorem alignOffset_lt (layout : Layout) (hrawPtr : rawPtr ≤ isizeMax + 1) :
    nextMultipleOf rawPtr layout.align - rawPtr < layout.align := by
  obtain ⟨k, hk⟩ := layout.align_pow
  have hpos : 0 < layout.align := hk ▸ Nat.two_pow_pos k
  have hmod := Nat.mod_lt rawPtr hpos
  have halign := layout.align_le
  unfold nextMultipleOf
  split_ifs with hzero
  · omega
  · rw [wrappingAdd_eq (by unfold isizeMax wordSize at *; omega)]
    omega

theorem alignOffset_eq_zero (hdvd : layout.align ∣ rawPtr) :
    nextMultipleOf rawPtr layout.align - rawPtr = 0 := by
  rw [nextMultipleOf, if_pos (Nat.mod_eq_zero_of_dvd hdvd), Nat.sub_self]

/-- The new length is not cut off, and it has room for half as many elements again, aligned. -/
theorem le_rawLenForGrow (hcap : v.cap * layout.size ≤ isizeMax + 1)
    (hsmall : layout.size + layout.align ≤ 2 ^ 61) (hpage : pageSize ≤ 2 ^ 32) :
    (v.cap + 1) * layout.size + (if pageSize < layout.align then layout.align - 1 else 0) ≤
      v.rawLenForGrow layout pageSize := by
  have hhalf : max (v.cap / 2) 1 * layout.size ≤ 2 ^ 62 := by
    rcases le_total (v.cap / 2) 1 with hle | hle
    · rw [max_eq_right hle]
      omega
    · have := Nat.mul_le_mul_right layout.size (Nat.div_mul_le_self v.cap 2)
      rw [max_eq_left hle]
      rw [Nat.mul_right_comm] at this
      unfold isizeMax at hcap
      omega
  have hone : layout.size ≤ max (v.cap / 2) 1 * layout.size :=
    Nat.le_mul_of_pos_left _ (by omega)
  have hmod : (v.cap + max (v.cap / 2) 1) * layout.size % wordSize =
      v.cap * layout.size + max (v.cap / 2) 1 * layout.size := by
    rw [Nat.add_mul]
    refine Nat.mod_eq_of_lt ?_
    unfold isizeMax wordSize at *
    omega
  simp only [rawLenForGrow, hmod]
  rw [Nat.add_mul, Nat.one_mul]
  unfold isizeMax at hcap
  split_ifs
  · rw [wrappingAdd_eq (by unfold wordSize; omega)]
    refine Nat.le_trans ?_ (le_nextMultipleOf (by unfold wordSize; omega))
    omega
  · refine Nat.le_trans ?_ (le_nextMultipleOf (by unfold wordSize; omega))
    omega

/-- The part of a mapping behind the first aligned address has room for one more element. -/
theorem cap_lt_rawPtrAssign (hmmap : LawfulMmap pageSize mmap)
    (hle : (v.cap + 1) * layout.size + (if pageSize < layout.align then layout.align - 1 else 0) ≤
      v.rawLenForGrow layout pageSize)
    (hmap : mmap (v.rawLenForGrow layout pageSize) = some rawPtr) :
    v.cap < (v.rawLenForGrow layout pageSize -
      (nextMultipleOf rawPtr layout.align - rawPtr)) / layout.size := by
  rw [Nat.lt_iff_add_one_le, Nat.le_div_iff_mul_le layout.size_pos]
  split_ifs at hle with hpage
  · have hrawPtr : rawPtr ≤ isizeMax + 1 := by
      have := hmmap.fits hmap
      omega
    have := alignOffset_lt layout hrawPtr
    omega
  · -- both are powers of two
    obtain ⟨j, hj⟩ := hmmap.page_pow
    obtain ⟨k, hk⟩ := layout.align_pow
    have hdvd : layout.align ∣ rawPtr := by
      refine Nat.dvd_trans ?_ (hmmap.aligned hmap)
      rw [hj, hk] at hpage ⊢
      exact Nat.pow_dvd_pow 2 ((Nat.pow_le_pow_iff_right (by omega)).1 (not_lt.1 hpage))
    rw [alignOffset_eq_zero hdvd]
    omega

theorem Holds.rawPtrAssign (h : Holds layout v l) (hlen : v.len = v.cap)
    (hfits : rawPtr + rawLen ≤ isizeMax + 1)
    (hcap : v.cap < (rawLen - (nextMultipleOf rawPtr layout.align - rawPtr)) / layout.size) :
    Holds layout (v.rawPtrAssign layout rawPtr rawLen) l ∧
      l.length < (v.rawPtrAssign layout rawPtr rawLen).cap := by
  have hlen' := h.len
  have hcells : v.cells.take v.len = l.map some := by rw [h.len, h.cells]
  have hcap' : (v.rawPtrAssign layout rawPtr rawLen).cap =
      (rawLen - (nextMultipleOf rawPtr layout.align - rawPtr)) / layout.size := by
    simp only [cap, PodVec.rawPtrAssign, hcells, List.length_append, List.length_map,
      List.length_replicate]
    omega
  refine ⟨⟨h.len, ?_, ?_⟩, by omega⟩
  · simp only [PodVec.rawPtrAssign, hcells]
    exact List.take_left' (List.length_map _)
  · rw [hcap']
    refine (Nat.div_mul_le_self _ _).trans ?_
    omega

/-- After `reserve_one` there is room for an element, and the elements are the same. -/
theorem Holds.reserveOne (h : Holds layout v l) (hsmall : layout.size + layout.align ≤ 2 ^ 61)
    (hmmap : LawfulMmap pageSize mmap) (hreserve : v.reserveOne layout pageSize mmap = some v') :
    Holds layout v' l ∧ l.length < v'.cap := by
  unfold PodVec.reserveOne at hreserve
  split_ifs at hreserve with hlen
  · obtain ⟨rawPtr, hmap, rfl⟩ := Option.map_eq_some_iff.1 hreserve
    exact h.rawPtrAssign hlen (hmmap.fits hmap)
      (cap_lt_rawPtrAssign hmmap (le_rawLenForGrow h.allocated hsmall hmmap.page_le) hmap)
  · obtain rfl := Option.some.inj hreserve
    have := h.len
    have := h.length_le_cap
    exact ⟨h, by omega⟩

/-! ## Inserting -/

/-- The cells of `post` moved up by one, over the first cell behind them. -/
theorem copyWithin_append (pre post : List (Option α)) {rest : List (Option α)}
    (hrest : rest ≠ []) :
    ∃ c, copyWithin (pre ++ (post ++ rest)) pre.length (pre.length + 1) post.length =
      pre ++ c :: (post ++ rest.drop 1) := by
  obtain ⟨c, tail, htail⟩ : ∃ c tail, post ++ rest = c :: tail :=
    List.exists_cons_of_ne_nil (by simp [hrest])
  have htake : (pre ++ (post ++ rest)).take (pre.length + 1) = pre ++ [c] := by
    rw [List.take_length_add_append, htail, List.take_succ_cons, List.take_zero]
  have hdrop : (pre ++ (post ++ rest)).drop (pre.length + 1 + post.length) = rest.drop 1 := by
    rw [Nat.add_assoc, Nat.add_comm 1, List.drop_length_add_append, List.drop_length_add_append]
  refine ⟨c, ?_⟩
  rw [copyWithin, htake, hdrop, List.drop_left, List.take_left]
  simp

/-- Moving the elements behind the index up and writing the value is an insertion. -/
theorem take_set_copyWithin {cells : List (Option α)} (hcells : cells.take l.length = l.map some)
    (hlt : l.length < cells.length) (hindex : index ≤ l.length) :
    ((copyWithin cells index (index + 1) (l.length - index)).set index (some value)).take
      (l.length + 1) = (l.insertIdx index value).map some := by
  obtain ⟨pre, post, rfl, rfl⟩ : ∃ pre post, l = pre ++ post ∧ index = pre.length :=
    ⟨l.take index, l.drop index, (List.take_append_drop _ _).symm,
      (List.length_take_of_le hindex).symm⟩
  obtain ⟨rest, rfl⟩ : ∃ rest, cells = pre.map some ++ (post.map some ++ rest) :=
    ⟨cells.drop (pre ++ post).length, by
      rw [← List.append_assoc, ← List.map_append, ← hcells, List.take_append_drop]⟩
  have hrest : rest ≠ [] := by
    rintro rfl
    simp at hlt
  obtain ⟨c, hcopy⟩ := copyWithin_append (pre.map some) (post.map some) hrest
  simp only [List.length_map] at hcopy
  rw [List.length_append, Nat.add_sub_cancel_left, hcopy,
    BoundedRangeAllocator.insertIdx_length_append]
  have hset : ((pre.map some ++ c :: (post.map some ++ rest.drop 1)).set pre.length
      (some value)) = (pre ++ value :: post).map some ++ rest.drop 1 := by
    rw [List.map_append, List.map_cons, List.append_assoc, List.cons_append]
    simp
  rw [hset]
  exact List.take_left' (by simp [Nat.add_assoc])

@[simp] theorem copyWithin_zero (cells : List (Option α)) (src dst : ℕ) :
    copyWithin cells src dst 0 = cells := by
  simp [copyWithin]

theorem length_copyWithin {cells : List (Option α)} {src dst count : ℕ}
    (hsrc : src + count ≤ cells.length) (hdst : dst + count ≤ cells.length) :
    (copyWithin cells src dst count).length = cells.length := by
  simp only [copyWithin, List.length_append, List.length_take, List.length_drop]
  omega

/-- Inserting into a vector that has room for an element. -/
theorem Holds.insertReserved (h : Holds layout v l) (hlt : l.length < v.cap)
    (hindex : index ≤ l.length) (value : α) :
    Holds layout { v with
      cells := (if index ≠ v.len then copyWithin v.cells index (index + 1) (v.len - index)
        else v.cells).set index (some value)
      len := v.len + 1 } (l.insertIdx index value) := by
  have hlen : v.len = l.length := h.len
  have hinsertIdx : (l.insertIdx index value).length = l.length + 1 := by
    rw [List.length_insertIdx, if_pos hindex]
  have hcells : (if index ≠ v.len then copyWithin v.cells index (index + 1) (v.len - index)
      else v.cells) = copyWithin v.cells index (index + 1) (l.length - index) := by
    split_ifs with hne
    · rw [hlen]
    · rw [← hlen, not_not.1 hne, Nat.sub_self, copyWithin_zero]
  refine ⟨by rw [hinsertIdx, hlen], ?_, ?_⟩
  · rw [hinsertIdx, hcells]
    exact take_set_copyWithin h.cells hlt hindex
  · have hroom : l.length < v.cells.length := hlt
    have hlength : (copyWithin v.cells index (index + 1) (l.length - index)).length =
        v.cells.length := length_copyWithin (by omega) (by omega)
    have hallocated := h.allocated
    simp only [cap, hcells, List.length_set, hlength] at hallocated ⊢
    exact hallocated

/-- `insert` inserts. -/
theorem Holds.insert (h : Holds layout v l) (hsmall : layout.size + layout.align ≤ 2 ^ 61)
    (hmmap : LawfulMmap pageSize mmap)
    (hinsert : v.insert layout pageSize mmap index value = some v') :
    index ≤ l.length ∧ Holds layout v' (l.insertIdx index value) := by
  unfold PodVec.insert at hinsert
  split_ifs at hinsert with hindex
  rw [h.len] at hindex
  obtain ⟨w, hreserve, hinsert⟩ := Option.bind_eq_some_iff.1 hinsert
  obtain ⟨hw, hlt⟩ := h.reserveOne hsmall hmmap hreserve
  obtain rfl := Option.some.inj hinsert
  exact ⟨hindex, hw.insertReserved hlt hindex value⟩

end PodVec

end Diversion
