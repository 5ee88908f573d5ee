import Diversion.Lib.Transition
import Diversion.PodVec

/-!
# Histories of PodVec

A `PodVec` under every sequence of insertions, with whatever blocks the system returns. Its
elements are those of the list they were inserted into, and every cell of its capacity is
aligned and in the block (`refines_insertIdx`). What carries it over a reallocation is that
`rawLenForGrow` does not wrap around for a vector whose cells are in a block of user space
(`InBlock.le_rawLenForGrow`), and has room for the way to the first aligned address.
-/

namespace Diversion

/-- The layout of a type. Its size is a multiple of its alignment. -/
structure ElemLayout extends Layout where
  dvd : align ∣ size

/-- Allocations of the system. There is none at the null address. -/
structure LawfulAlloc (granularity : ℕ) (alloc : Mmap) : Prop
    extends LawfulMmap granularity alloc where
  pos : ∀ {len ptr}, alloc len = some ptr → 0 < ptr

theorem LawfulAlloc.granularity_le {granularity len ptr : ℕ} {alloc : Mmap}
    (h : LawfulAlloc granularity alloc) (halloc : alloc len = some ptr) : granularity ≤ ptr :=
  Nat.le_of_dvd (h.pos halloc) (h.aligned halloc)

namespace PodVec

variable {α : Type}

/-- `insert`, with what the system would return for any length. -/
structure Call (granularity : ℕ) (α : Type) where
  index : ℕ
  value : α
  alloc : Mmap
  lawful : LawfulAlloc granularity alloc

/-- `none` for an insertion that fails. -/
def step (layout : Layout) (granularity : ℕ) (v : PodVec α) (call : Call granularity α) :
    Option (PodVec α) :=
  v.insert layout granularity call.alloc call.index call.value

/-- The field `ptr`, which `raw_ptr_assign` sets along with `raw_ptr`. -/
def ptr (layout : Layout) (v : PodVec α) : ℕ :=
  v.rawPtr + (nextMultipleOf v.rawPtr layout.align - v.rawPtr)

/-- The address of an element. -/
def slot (layout : Layout) (v : PodVec α) (i : ℕ) : ℕ :=
  v.ptr layout + i * layout.size

/-- The cells are in the raw block, which is one of user space. -/
structure InBlock (layout : Layout) (granularity : ℕ) (v : PodVec α) : Prop where
  room : v.ptr layout + v.cap * layout.size ≤ v.rawPtr + v.rawLen
  fits : v.rawPtr + v.rawLen ≤ isizeMax + 1
  granularity_le : v.cap = 0 ∨ granularity ≤ v.rawPtr

/-- What callers can rely on of a vector that holds `l`. -/
structure Refines (layout : Layout) (granularity : ℕ) (v : PodVec α) (l : List α) : Prop where
  contents : v.asSlice = l
  len_eq : v.len = l.length
  len_le_cap : v.len ≤ v.cap
  aligned : ∀ i < v.cap, layout.align ∣ v.slot layout i
  inside : ∀ i < v.cap, v.rawPtr ≤ v.slot layout i ∧
    v.slot layout i + layout.size ≤ v.rawPtr + v.rawLen
  /-- A reallocation makes room. -/
  grows : ∀ alloc w, LawfulAlloc granularity alloc → v.len = v.cap →
    v.reserveOne layout granularity alloc = some w → w.len < w.cap
  /-- An insertion within bounds succeeds, unless it needs a block that the system refuses. -/
  inserts : ∀ call : Call granularity α, call.index ≤ l.length →
    (v.len = v.cap → (call.alloc (v.rawLenForGrow layout granularity)).isSome) →
      (v.step layout granularity call).isSome

variable {layout : Layout} {granularity : ℕ} {alloc : Mmap} {v v' : PodVec α} {l : List α}

/-! ## The length of a block -/

/-- A type with its padding to the next alignment fits in user space. -/
theorem size_add_align_le (layout : Layout) : layout.size + layout.align ≤ isizeMax + 1 := by
  obtain ⟨k, hk⟩ := layout.align_pow
  have hpos := layout.align_pos
  have hfits := layout.fits
  have hk63 : k < 63 := by
    have hle := layout.align_le
    rw [hk] at hle
    by_contra hcon
    have := Nat.pow_le_pow_right (show 0 < 2 by decide) (Nat.not_lt.1 hcon)
    unfold isizeMax at hle
    omega
  have hup : layout.size ≤ Align.up layout.size layout.align := Align.le_up hpos
  have hpow : isizeMax + 1 = 2 ^ (63 - k) * 2 ^ k := by
    rw [← Nat.pow_add, Nat.sub_add_cancel hk63.le]
    rfl
  -- the next multiple is one of those up to `2 ^ 63`
  have hlt : (layout.size + layout.align - 1) / layout.align < 2 ^ (63 - k) := by
    refine Nat.lt_of_mul_lt_mul_right (a := 2 ^ k) ?_
    rw [← hpow, ← hk]
    omega
  have hmul := Nat.mul_le_mul_right layout.align (Nat.succ_le_of_lt hlt)
  rw [Nat.succ_mul, hk, ← hpow, ← hk] at hmul
  unfold Align.up at hup
  omega

theorem two_mul_align_le (layout : Layout) : 2 * layout.align ≤ isizeMax + 1 := by
  obtain ⟨k, hk⟩ := layout.align_pow
  have hle := layout.align_le
  rw [hk] at hle ⊢
  have hk63 : k < 63 := by
    by_contra hcon
    have := Nat.pow_le_pow_right (show 0 < 2 by decide) (Nat.not_lt.1 hcon)
    unfold isizeMax at hle
    omega
  calc 2 * 2 ^ k = 2 ^ (k + 1) := (Nat.pow_succ').symm
    _ ≤ 2 ^ 63 := Nat.pow_le_pow_right (by decide) hk63
    _ = isizeMax + 1 := rfl

/-- The bytes `rawLenForGrow` asks for, before they are rounded up, stay below the end of the
address space by more than the granularity. -/
theorem InBlock.grow_lt (h : InBlock layout granularity v) (hpage : granularity ≤ 2 ^ 32) :
    v.cap * layout.size + max (v.cap / 2) 1 * layout.size + (layout.align - 1) + granularity <
      wordSize := by
  have hsize := size_add_align_le layout
  have halign := two_mul_align_le layout
  have hpos := layout.align_pos
  have hroom := h.room
  have hfits := h.fits
  have hrawPtr : v.rawPtr ≤ v.ptr layout := Nat.le_add_right _ _
  unfold isizeMax at *
  unfold wordSize
  rcases Nat.eq_zero_or_pos v.cap with hzero | hcap
  · rw [hzero, show max (0 / 2) 1 = 1 from rfl]
    omega
  · have hgranularity := h.granularity_le.resolve_left hcap.ne'
    rcases Nat.lt_or_ge 1 v.cap with htwo | hone
    · have hhalf := Nat.mul_le_mul_right layout.size (Nat.div_mul_le_self v.cap 2)
      rw [Nat.mul_right_comm] at hhalf
      rw [max_eq_left (by omega)]
      omega
    · obtain hone : v.cap = 1 := by omega
      rw [hone] at hroom ⊢
      rw [show max (1 / 2) 1 = 1 from rfl]
      omega

/-- The length of a new block does not wrap around. -/
theorem InBlock.le_rawLenForGrow (h : InBlock layout granularity v)
    (hpage : granularity ≤ 2 ^ 32) :
    (v.cap + 1) * layout.size + (if granularity < layout.align then layout.align - 1 else 0) ≤
      v.rawLenForGrow layout granularity := by
  have hlt := h.grow_lt hpage
  have hone : layout.size ≤ max (v.cap / 2) 1 * layout.size :=
    Nat.le_mul_of_pos_left _ (by omega)
  have hmod : (v.cap + max (v.cap / 2) 1) * layout.size % wordSize =
      v.cap * layout.size + max (v.cap / 2) 1 * layout.size := by
    rw [Nat.add_mul]
    exact Nat.mod_eq_of_lt (by omega)
  simp only [rawLenForGrow, hmod]
  rw [Nat.add_mul, Nat.one_mul]
  split_ifs
  · rw [wrappingAdd_eq (by omega)]
    refine Nat.le_trans ?_ (le_nextMultipleOf (by omega))
    omega
  · refine Nat.le_trans ?_ (le_nextMultipleOf (by omega))
    omega

/-! ## Steps -/

theorem inBlock_new : InBlock layout granularity (new : PodVec α) where
  room := by simp [ptr, new, cap, nextMultipleOf]
  fits := Nat.zero_le _
  granularity_le := Or.inl rfl

theorem cap_rawPtrAssign {rawPtr rawLen : ℕ} (h : Holds layout v l)
    (hcap : v.len ≤ (rawLen - (nextMultipleOf rawPtr layout.align - rawPtr)) / layout.size) :
    (v.rawPtrAssign layout rawPtr rawLen).cap =
      (rawLen - (nextMultipleOf rawPtr layout.align - rawPtr)) / layout.size := by
  have hcells : v.cells.take v.len = l.map some := by rw [h.len, h.cells]
  have hlen := h.len
  simp only [cap, PodVec.rawPtrAssign, hcells, List.length_append, List.length_map,
    List.length_replicate]
  omega

/-- A new block has the old cells and more, all behind its first aligned address. -/
theorem InBlock.rawPtrAssign {rawPtr : ℕ} (h : InBlock layout granularity v)
    (hholds : Holds layout v l) (hlen : v.len = v.cap) (halloc : LawfulAlloc granularity alloc)
    (hmap : alloc (v.rawLenForGrow layout granularity) = some rawPtr) :
    let w := v.rawPtrAssign layout rawPtr (v.rawLenForGrow layout granularity)
    InBlock layout granularity w ∧ Holds layout w l ∧ l.length < w.cap := by
  have hlt := cap_lt_rawPtrAssign halloc.toLawfulMmap (h.le_rawLenForGrow halloc.page_le) hmap
  have hfits := halloc.fits hmap
  obtain ⟨hw, hroom⟩ := hholds.rawPtrAssign hlen hfits hlt
  refine ⟨⟨?_, hfits, Or.inr (halloc.granularity_le hmap)⟩, hw, hroom⟩
  rw [cap_rawPtrAssign hholds (hlen.trans_lt hlt).le]
  have hdiv := Nat.div_mul_le_self (v.rawLenForGrow layout granularity -
    (nextMultipleOf rawPtr layout.align - rawPtr)) layout.size
  have hle : layout.size ≤ (v.rawLenForGrow layout granularity -
      (nextMultipleOf rawPtr layout.align - rawPtr)) / layout.size * layout.size :=
    Nat.le_mul_of_pos_left _ (Nat.zero_lt_of_lt hlt)
  have := layout.size_pos
  simp only [ptr, PodVec.rawPtrAssign]
  omega

theorem InBlock.reserveOne (h : InBlock layout granularity v) (hholds : Holds layout v l)
    (halloc : LawfulAlloc granularity alloc)
    (hreserve : v.reserveOne layout granularity alloc = some v') :
    InBlock layout granularity v' ∧ Holds layout v' l ∧ l.length < v'.cap := by
  unfold PodVec.reserveOne at hreserve
  split_ifs at hreserve with hlen
  · obtain ⟨rawPtr, hmap, rfl⟩ := Option.map_eq_some_iff.1 hreserve
    exact h.rawPtrAssign hholds hlen halloc hmap
  · obtain rfl := Option.some.inj hreserve
    have := hholds.len
    have := hholds.length_le_cap
    exact ⟨h, hholds, by omega⟩

/-- What a step keeps : the vector holds a list in its block. -/
theorem inBlock_step {call : Call granularity α} (h : InBlock layout granularity v)
    (hholds : Holds layout v l) (hstep : v.step layout granularity call = some v') :
    InBlock layout granularity v' ∧ Holds layout v' (l.insertIdx call.index call.value) := by
  unfold step PodVec.insert at hstep
  split_ifs at hstep with hindex
  obtain ⟨w, hreserve, hstep⟩ := Option.bind_eq_some_iff.1 hstep
  obtain ⟨hblock, hw, hlt⟩ := h.reserveOne hholds call.lawful hreserve
  obtain rfl := Option.some.inj hstep
  rw [hholds.len] at hindex
  refine ⟨?_, hw.insertReserved hlt hindex call.value⟩
  have hcap : ((if call.index ≠ w.len then
      copyWithin w.cells call.index (call.index + 1) (w.len - call.index)
        else w.cells).set call.index (some call.value)).length = w.cells.length := by
    have : l.length < w.cells.length := hlt
    have := hw.len
    rw [List.length_set]
    split_ifs
    · exact length_copyWithin (by omega) (by omega)
    · rfl
  refine ⟨?_, hblock.fits, ?_⟩
  · have hroom := hblock.room
    simp only [ptr, cap, hcap] at hroom ⊢
    exact hroom
  · have hgranularity := hblock.granularity_le
    simp only [cap, hcap] at hgranularity ⊢
    exact hgranularity

/-! ## Histories -/

/-- The first cell is aligned, and the others are whole elements behind it. -/
theorem dvd_slot (layout : ElemLayout) (h : InBlock layout.toLayout granularity v) (i : ℕ) :
    layout.align ∣ v.slot layout.toLayout i := by
  have hrawPtr : v.rawPtr ≤ isizeMax + 1 := (Nat.le_add_right _ _).trans h.fits
  have hle : v.rawPtr ≤ Align.up v.rawPtr layout.align := Align.le_up layout.align_pos
  rw [slot, ptr, Layout.nextMultipleOf_align hrawPtr, Nat.add_sub_cancel' hle]
  exact Nat.dvd_add (Align.dvd_up _ _) (Nat.dvd_trans layout.dvd (Nat.dvd_mul_left _ _))

theorem InBlock.slot_inside (h : InBlock layout granularity v) {i : ℕ} (hi : i < v.cap) :
    v.rawPtr ≤ v.slot layout i ∧ v.slot layout i + layout.size ≤ v.rawPtr + v.rawLen := by
  have hroom := h.room
  have hmul := Nat.mul_le_mul_right layout.size (Nat.succ_le_of_lt hi)
  rw [Nat.succ_mul] at hmul
  have hptr : v.rawPtr ≤ v.ptr layout := Nat.le_add_right _ _
  unfold slot
  omega

theorem InBlock.refines {layout : ElemLayout} (h : InBlock layout.toLayout granularity v)
    (hholds : Holds layout.toLayout v l) : Refines layout.toLayout granularity v l where
  contents := hholds.asSlice_eq
  len_eq := hholds.len
  len_le_cap := hholds.len ▸ hholds.length_le_cap
  aligned i _ := dvd_slot layout h i
  inside i hi := h.slot_inside hi
  grows alloc w halloc _ hreserve := by
    obtain ⟨-, hw, hlt⟩ := h.reserveOne hholds halloc hreserve
    exact hw.len ▸ hlt
  inserts call hindex hsome := by
    unfold step PodVec.insert PodVec.reserveOne
    rw [if_pos (hholds.len ▸ hindex)]
    split_ifs with hlen
    · obtain ⟨rawPtr, hmap⟩ := Option.isSome_iff_exists.1 (hsome hlen)
      simp [hmap]
    · rfl

/-- After every history of insertions the vector is the list they make, in aligned cells of its
block. -/
theorem refines_insertIdx (layout : ElemLayout) {calls : List (Call granularity α)}
    (hrun : Transition.run (step layout.toLayout granularity) new calls = some v) :
    Refines layout.toLayout granularity v
      (calls.foldl (fun l call => l.insertIdx call.index call.value) []) := by
  have hstep : ∀ (v : PodVec α) (call : Call granularity α) (w : PodVec α) (l : List α),
      InBlock layout.toLayout granularity v ∧ Holds layout.toLayout v l → True →
        v.step layout.toLayout granularity call = some w →
          InBlock layout.toLayout granularity w ∧
            Holds layout.toLayout w (l.insertIdx call.index call.value) :=
    fun _ _ _ _ h _ => inBlock_step h.1 h.2
  obtain ⟨hblock, hholds⟩ := Transition.run_foldl hstep ⟨inBlock_new, holds_new⟩
    (fun _ _ => trivial) hrun
  exact hblock.refines hholds

/-- A block at `ptr`, unless it would be a huge one. -/
def allocAt (ptr : ℕ) : Mmap :=
  fun len => if len ≤ 2 ^ 40 then some ptr else none

theorem lawful_allocAt {ptr : ℕ} (hpos : 0 < ptr) (hdvd : 4096 ∣ ptr) (hle : ptr ≤ 2 ^ 40) :
    LawfulAlloc 4096 (allocAt ptr) where
  page_pow := ⟨12, rfl⟩
  page_le := by decide
  aligned h := by
    unfold allocAt at h
    split_ifs at h
    exact Option.some.inj h ▸ hdvd
  fits h := by
    unfold allocAt at h
    split_ifs at h
    obtain rfl := Option.some.inj h
    unfold isizeMax
    omega
  pos h := by
    unfold allocAt at h
    split_ifs at h
    exact Option.some.inj h ▸ hpos

/-- Elements of two pages, aligned to two pages. -/
def twoPages : ElemLayout where
  size := 8192
  align := 8192
  size_pos := by decide
  align_pow := ⟨13, rfl⟩
  fits := by decide
  dvd := Nat.dvd_refl _

/-- Two insertions in front, each into a block that begins in the middle of a cell. -/
def pushFrontTwo : List (Call 4096 ℕ) :=
  [⟨0, 5, allocAt 0x11000, lawful_allocAt (by decide) (by decide) (by decide)⟩,
    ⟨0, 7, allocAt 0x21000, lawful_allocAt (by decide) (by decide) (by decide)⟩]

theorem refines_pushFrontTwo : Refines twoPages.toLayout 4096
    ⟨[some 7, some 5], 2, 0x21000, 0x6000⟩ [7, 5] :=
  refines_insertIdx twoPages
    (show Transition.run (step twoPages.toLayout 4096) new pushFrontTwo = _ by decide +kernel)

end PodVec

end Diversion
