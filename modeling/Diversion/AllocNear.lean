import Diversion.AllocatorHistory

/-!
# What `allocNear` can serve

Which requests a reachable allocator serves, in exact arithmetic. `Room` is a place for a
block in a recorded range. The four cut-offs of the source (the bounds of the allocator, the
clamp by the size, the binary search and the end of the probing) leave out only ranges
without a place, except that probing stops at a range that begins at the highest admissible
address (`allocNear_complete`). What is served is within the bounds (`allocNear_serves`).
-/

namespace Diversion

open Extent PartitionPoint BoundedRangeAllocator

/-- The distances a start bound admits. -/
def Bound.AdmitsFrom : Bound → ℤ → Prop
  | .included b, d => b ≤ d
  | .excluded b, d => b < d
  | .unbounded, _ => True

/-- The distances an end bound admits. -/
def Bound.AdmitsTo : Bound → ℤ → Prop
  | .included b, d => d ≤ b
  | .excluded b, d => d < b
  | .unbounded, _ => True

section Bound

variable {start stop : Bound} {least greatest d : ℤ}

theorem Bound.admitsFrom_of_le (h : start.least = some least) (hd : least ≤ d) :
    start.AdmitsFrom d := by
  cases start with
  | included b =>
    obtain rfl := Option.some.inj h
    exact hd
  | excluded b =>
    simp only [Bound.least, Option.ite_none_left_eq_some, Option.some.injEq] at h
    simp only [AdmitsFrom]
    omega
  | unbounded => trivial

theorem Bound.admitsTo_of_le (h : stop.greatest = some greatest) (hd : d ≤ greatest) :
    stop.AdmitsTo d := by
  cases stop with
  | included b =>
    obtain rfl := Option.some.inj h
    exact hd
  | excluded b =>
    simp only [Bound.greatest, Option.ite_none_left_eq_some, Option.some.injEq] at h
    simp only [AdmitsTo]
    omega
  | unbounded => trivial

/-- The least distance is `isize::MIN`, or one that leads up to what is admitted. -/
theorem Bound.AdmitsFrom.least_le (h : start.AdmitsFrom d) (hleast : start.least = some least) :
    least ≤ d ∨ least = -(isizeMax : ℤ) - 1 := by
  cases start with
  | included b =>
    obtain rfl := Option.some.inj hleast
    exact Or.inl h
  | excluded b =>
    simp only [Bound.least, Option.ite_none_left_eq_some, Option.some.injEq] at hleast
    simp only [AdmitsFrom] at h
    omega
  | unbounded => exact Or.inr (Option.some.inj hleast).symm

end Bound

namespace BoundedRangeAllocator

/-- There is a place for a block at `x` in `r`. -/
structure Room (layout : Layout) (r : Range) (x : ℕ) : Prop where
  aligned : layout.align ∣ x
  start_le : r.start ≤ x
  le_stop : x + layout.size ≤ r.stop

/-! ## Cutting -/

section Cut

variable {layout : Layout} {minAddr maxAddr x : ℕ} {r block : Range}
  {ranges ranges' pieces : List Range}

/-- The block begins at the lowest or at the highest address it can begin at. -/
theorem cut_start_eq (h : cut layout minAddr maxAddr r = some (pieces, block)) :
    let lowest := nextMultipleOf (max r.start minAddr) layout.align
    let highest := min (r.stop - layout.size) maxAddr &&& wrappingNeg layout.align
    lowest ≤ highest ∧ (r.start ≤ lowest → block.start = lowest ∨ block.start = highest) := by
  unfold cut at h
  simp only at h ⊢
  split_ifs at h with hnone halign hs he he hs <;> simp only [Option.some.injEq] at h <;>
    obtain ⟨-, rfl⟩ := Prod.mk.inj h <;> refine ⟨Nat.not_lt.1 hnone, fun hle => ?_⟩
  · exact Or.inl hs
  · exact Or.inr (Nat.sub_eq_of_eq_add he)
  · exact Or.inl (Nat.add_sub_cancel' hle)
  · exact Or.inr (Nat.sub_eq_of_eq_add he)
  · exact Or.inl hs
  · exact Or.inl (Nat.add_sub_cancel' hle)

theorem cut_isSome (h : nextMultipleOf (max r.start minAddr) layout.align ≤
    min (r.stop - layout.size) maxAddr &&& wrappingNeg layout.align) :
    (cut layout minAddr maxAddr r).isSome := by
  unfold cut
  simp only [if_neg (Nat.not_lt.2 h)]
  split_ifs <;> rfl

/-- What `cut` compares, in exact arithmetic. -/
theorem lowest_le_highest_iff (layout : Layout) (hstart : 0 < r.start) (hr : r.start ≤ isizeMax + 1)
    (hmin : minAddr ≤ isizeMax + 1) (hmax : maxAddr < wordSize) :
    ∀ x, layout.align ∣ x →
      ((nextMultipleOf (max r.start minAddr) layout.align ≤ x ∧
          x ≤ min (r.stop - layout.size) maxAddr &&& wrappingNeg layout.align) ↔
        Room layout r x ∧ minAddr ≤ x ∧ x ≤ maxAddr) := by
  intro x hx
  rw [Layout.nextMultipleOf_align (max_le hr hmin),
    Layout.and_wrappingNeg_align ((min_le_right _ _).trans_lt hmax),
    Align.up_le_iff layout.align_pos hx, Align.le_down_iff hx, max_le_iff, le_min_iff]
  constructor
  · rintro ⟨⟨hle, hmin⟩, hstop, hmax⟩
    exact ⟨⟨hx, hle, by omega⟩, hmin, hmax⟩
  · rintro ⟨⟨-, hle, hstop⟩, hmin, hmax⟩
    exact ⟨⟨hle, hmin⟩, by omega, hmax⟩

theorem room_of_cut (hstart : 0 < r.start) (hr : r.start ≤ isizeMax + 1)
    (hmin : minAddr ≤ isizeMax + 1) (hmax : maxAddr < wordSize)
    (h : cut layout minAddr maxAddr r = some (pieces, block)) :
    Room layout r block.start ∧ minAddr ≤ block.start ∧ block.start ≤ maxAddr := by
  obtain ⟨hle, heq⟩ := cut_start_eq h
  have hiff := lowest_le_highest_iff layout hstart hr hmin hmax
  have hlowest : nextMultipleOf (max r.start minAddr) layout.align =
      Align.up (max r.start minAddr) layout.align := Layout.nextMultipleOf_align (max_le hr hmin)
  have hhighest : min (r.stop - layout.size) maxAddr &&& wrappingNeg layout.align =
      Align.down (min (r.stop - layout.size) maxAddr) layout.align :=
    Layout.and_wrappingNeg_align ((min_le_right _ _).trans_lt hmax)
  have hstart_le : r.start ≤ nextMultipleOf (max r.start minAddr) layout.align := by
    rw [hlowest]
    exact (le_max_left _ _).trans (Align.le_up layout.align_pos)
  rcases heq hstart_le with heq | heq
  · refine (hiff _ ?_).1 ⟨heq.ge, heq.le.trans hle⟩
    rw [heq, hlowest]
    exact Align.dvd_up _ _
  · refine (hiff _ ?_).1 ⟨hle.trans heq.ge, heq.le⟩
    rw [heq, hhighest]
    exact Align.dvd_down _ _

theorem cut_isSome_of_room (hstart : 0 < r.start) (hr : r.start ≤ isizeMax + 1)
    (hmin : minAddr ≤ isizeMax + 1) (hmax : maxAddr < wordSize) (hroom : Room layout r x)
    (hminx : minAddr ≤ x) (hmaxx : x ≤ maxAddr) : (cut layout minAddr maxAddr r).isSome := by
  obtain ⟨hle, hge⟩ :=
    (lowest_le_highest_iff layout hstart hr hmin hmax x hroom.aligned).2 ⟨hroom, hminx, hmaxx⟩
  exact cut_isSome (hle.trans hge)

/-! ## Probing -/

theorem cut_of_probe (h : probe layout minAddr maxAddr ranges = some (ranges', block)) :
    ∃ r ∈ ranges, r.start < maxAddr ∧
      ∃ pieces, cut layout minAddr maxAddr r = some (pieces, block) := by
  induction ranges generalizing ranges' with
  | nil => cases h
  | cons r ranges ih =>
    unfold probe at h
    split_ifs at h with hlt
    cases hcut : cut layout minAddr maxAddr r with
    | some result =>
      obtain ⟨pieces, block'⟩ := result
      simp only [hcut, Option.some.injEq, Prod.mk.injEq] at h
      obtain ⟨-, rfl⟩ := h
      exact ⟨r, by simp, hlt, pieces, hcut⟩
    | none =>
      simp only [hcut, Option.map_eq_some_iff, Prod.mk.injEq] at h
      obtain ⟨⟨ranges₁, block₁⟩, hprobe, -, rfl⟩ := h
      obtain ⟨r', hr', hcut'⟩ := ih hprobe
      exact ⟨r', List.mem_cons_of_mem _ hr', hcut'⟩

/-- A range that can be cut is reached, since those in front of it begin no later. -/
theorem probe_isSome (hsorted : ranges.Pairwise fun a b => a.start ≤ b.start) (hr : r ∈ ranges)
    (hlt : r.start < maxAddr) (hcut : (cut layout minAddr maxAddr r).isSome) :
    (probe layout minAddr maxAddr ranges).isSome := by
  induction ranges with
  | nil => cases hr
  | cons r' ranges ih =>
    obtain ⟨hle, hsorted⟩ := List.pairwise_cons.1 hsorted
    unfold probe
    rcases List.mem_cons.1 hr with rfl | hr
    · obtain ⟨result, hcut⟩ := Option.isSome_iff_exists.1 hcut
      rw [if_pos hlt, hcut]
      rfl
    · rw [if_pos ((hle r hr).trans_lt hlt)]
      cases cut layout minAddr maxAddr r' with
      | some result => rfl
      | none => simpa using ih hsorted hr

end Cut

/-! ## The call -/

section Call

variable {a a' : BoundedRangeAllocator} {live : List Range} {A : Set ℕ} {layout : Layout}
  {minAddr maxAddr x : ℕ} {r block : Range}

/-- A served block has a place in a range that begins below the rounded `maxAddr`. -/
theorem room_of_allocLayoutBetween (hinv : History.Inv a live A) (hmax : maxAddr < wordSize)
    (h : a.allocLayoutBetween layout minAddr maxAddr = some (a', block)) :
    ∃ r ∈ a.ranges, r.start < Align.down maxAddr layout.align ∧ Room layout r block.start ∧
      nextMultipleOf minAddr layout.align ≤ block.start ∧ block.start ≤ maxAddr := by
  have hdown := Align.down_le maxAddr layout.align
  unfold allocLayoutBetween at h
  simp only [Layout.and_wrappingNeg_align hmax] at h
  split_ifs at h with hno
  simp only [not_or, not_le] at hno
  obtain ⟨⟨ranges, block'⟩, hprobe, heq⟩ := Option.map_eq_some_iff.1 h
  obtain ⟨-, rfl⟩ := Prod.mk.inj heq
  obtain ⟨r, hr, hlt, pieces, hcut⟩ := cut_of_probe hprobe
  have hr := List.mem_of_mem_drop hr
  obtain ⟨hpos, hle⟩ := hinv.start_bounds hr
  obtain ⟨hroom, hminb, hmaxb⟩ := room_of_cut hpos hle (hno.2.1.le.trans hinv.maxAddr_le)
    (hdown.trans_lt hmax) hcut
  exact ⟨r, hr, hlt, hroom, hminb, hmaxb.trans hdown⟩

/-- A request is served if a range that begins below the rounded `maxAddr` has a place. -/
theorem allocLayoutBetween_isSome (hinv : History.Inv a live A) (hmax : maxAddr < wordSize)
    (hr : r ∈ a.ranges) (hlt : r.start < Align.down maxAddr layout.align)
    (hroom : Room layout r x) (hlow : nextMultipleOf minAddr layout.align ≤ x)
    (hmaxx : x ≤ maxAddr) : (a.allocLayoutBetween layout minAddr maxAddr).isSome := by
  have hhigh : x ≤ Align.down maxAddr layout.align := (Align.le_down_iff hroom.aligned).2 hmaxx
  have hsize := layout.size_pos
  have hstop := hroom.le_stop
  obtain ⟨hone, hminr, hmaxr⟩ := hinv.bounds r hr
  obtain ⟨hpos, hle⟩ := hinv.start_bounds hr
  have hminAddr := hinv.minAddr_le
  have hmaxAddr := hinv.maxAddr_le
  have hsub : wrappingSub a.minAddr 1 = a.minAddr - 1 := by
    refine wrappingSub_eq hone ?_
    unfold isizeMax wordSize at *
    omega
  unfold allocLayoutBetween
  simp only [Layout.and_wrappingNeg_align hmax, hsub]
  generalize nextMultipleOf minAddr layout.align = lowest at hlow ⊢
  rw [if_neg (by omega), Option.isSome_map]
  -- the binary search skips ranges that end up to the lowest address
  have hmono : a.ranges.Pairwise fun r s =>
      decide (s.stop ≤ lowest) = true → decide (r.stop ≤ lowest) = true := by
    refine hinv.chain.ordered.imp_of_mem fun {r s} _ hs hrs hstop => ?_
    have := hinv.chain.valid s hs
    simp only [decide_eq_true_eq] at hstop ⊢
    omega
  obtain ⟨-, hskip, -⟩ := partitionPoint_spec hmono
  generalize partitionPoint _ a.ranges = index at hskip ⊢
  have hdrop : r ∈ a.ranges.drop index := by
    rw [← List.take_append_drop index a.ranges] at hr
    refine (List.mem_append.1 hr).resolve_left fun htake => ?_
    have := hskip r htake
    simp only [decide_eq_true_eq] at this
    omega
  exact probe_isSome (hinv.chain.starts_le.sublist (List.drop_sublist _ _)) hdrop hlt
    (cut_isSome_of_room hpos hle (by omega) ((Align.down_le _ _).trans_lt hmax) hroom hlow hhigh)

/-- The bounds around `ptr` admit the address `x`. -/
def Admits (ptr : ℕ) (start stop : Bound) (x : ℕ) : Prop :=
  start.AdmitsFrom ((x : ℤ) - ptr) ∧ stop.AdmitsTo ((x : ℤ) - ptr)

/-- A recorded range has a place within the bounds. -/
def HasRoom (a : BoundedRangeAllocator) (layout : Layout) (ptr : ℕ) (start stop : Bound) : Prop :=
  ∃ r ∈ a.ranges, ∃ x, Room layout r x ∧ Admits ptr start stop x

/-- The highest address a block can be at. -/
def highestAddr (a : BoundedRangeAllocator) (layout : Layout) (ptr : ℕ) (greatest : ℤ) : ℕ :=
  Align.down (min (saturatingAddSigned ptr greatest) (a.maxAddr - layout.size)) layout.align

/-- A recorded range that begins below the highest address has a place, at a distance that is
an `isize`. -/
def HasRoomBelow (a : BoundedRangeAllocator) (layout : Layout) (ptr : ℕ) (start stop : Bound) :
    Prop :=
  ∃ least greatest, start.least = some least ∧ stop.greatest = some greatest ∧
    ∃ r ∈ a.ranges, r.start < a.highestAddr layout ptr greatest ∧
      ∃ x, Room layout r x ∧ least ≤ (x : ℤ) - ptr ∧ (x : ℤ) - ptr ≤ greatest

variable {ptr : ℕ} {start stop : Bound}

theorem Room.pos_and_le (hinv : History.Inv a live A) (hr : r ∈ a.ranges)
    (hroom : Room layout r x) : 0 < x ∧ x + layout.size ≤ a.maxAddr ∧ x ≤ isizeMax := by
  obtain ⟨hpos, -⟩ := hinv.start_bounds hr
  obtain ⟨-, -, hmax⟩ := hinv.bounds r hr
  have := hinv.maxAddr_le
  have := layout.size_pos
  have := hroom.start_le
  have := hroom.le_stop
  omega

/-- `hup` : the lowest address does not overflow when it is rounded up. -/
theorem room_of_allocNear (hinv : History.Inv a live A)
    (hup : ∀ least, start.least = some least →
      Align.up (saturatingAddSigned ptr least) layout.align < wordSize)
    (h : a.allocNear layout ptr start stop = some (a', block)) :
    ∃ least greatest, start.least = some least ∧ stop.greatest = some greatest ∧
      ∃ r ∈ a.ranges, r.start < a.highestAddr layout ptr greatest ∧ Room layout r block.start ∧
        least ≤ (block.start : ℤ) - ptr ∧ (block.start : ℤ) - ptr ≤ greatest := by
  simp only [allocNear, allocLayoutInsideBounds, Option.bind_eq_bind, Option.bind_eq_some_iff] at h
  obtain ⟨least, hleast, greatest, hgreatest, h⟩ := h
  obtain ⟨r, hr, hlt, hroom, hmin, hmax⟩ := room_of_allocLayoutBetween hinv
    ((min_le_left _ _).trans_lt (saturatingAddSigned_lt _ _)) h
  rw [nextMultipleOf_eq layout.align_pos (hup least hleast)] at hmin
  replace hmin := (Align.le_up layout.align_pos).trans hmin
  obtain ⟨hpos, -, hle⟩ := hroom.pos_and_le hinv hr
  refine ⟨least, greatest, hleast, hgreatest, r, hr, hlt, hroom, ?_, ?_⟩
  · refine (saturatingAddSigned_le_iff ?_).1 hmin
    unfold usizeMax
    unfold isizeMax at hle
    omega
  · refine (le_saturatingAddSigned_iff hpos ?_).1 (hmax.trans (min_le_left _ _))
    unfold usizeMax
    unfold isizeMax at hle
    omega

theorem allocNear_isSome (hinv : History.Inv a live A)
    (hup : ∀ least, start.least = some least →
      Align.up (saturatingAddSigned ptr least) layout.align < wordSize)
    (h : a.HasRoomBelow layout ptr start stop) : (a.allocNear layout ptr start stop).isSome := by
  obtain ⟨least, greatest, hleast, hgreatest, r, hr, hlt, x, hroom, hmin, hmax⟩ := h
  obtain ⟨hpos, hstop, hle⟩ := hroom.pos_and_le hinv hr
  simp only [allocNear, allocLayoutInsideBounds, hleast, hgreatest, Option.bind_eq_bind,
    Option.bind_some]
  refine allocLayoutBetween_isSome hinv
    ((min_le_left _ _).trans_lt (saturatingAddSigned_lt _ _)) hr hlt hroom ?_ (le_min ?_ ?_)
  · rw [nextMultipleOf_eq layout.align_pos (hup least hleast),
      Align.up_le_iff layout.align_pos hroom.aligned]
    refine (saturatingAddSigned_le_iff ?_).2 hmin
    unfold usizeMax
    unfold isizeMax at hle
    omega
  · refine (le_saturatingAddSigned_iff hpos ?_).2 hmax
    unfold usizeMax
    unfold isizeMax at hle
    omega
  · omega

/-- A request that some range has room for does not overflow. -/
theorem HasRoom.up_lt (hinv : History.Inv a live A) (hptr : ptr < wordSize)
    (h : a.HasRoom layout ptr start stop) {least : ℤ} (hleast : start.least = some least) :
    Align.up (saturatingAddSigned ptr least) layout.align < wordSize := by
  obtain ⟨r, hr, x, hroom, hfrom, -⟩ := h
  obtain ⟨-, -, hle⟩ := hroom.pos_and_le hinv hr
  have := hfrom.least_le hleast
  refine layout.up_lt ((saturatingAddSigned_le_iff ?_).2 ?_)
  · unfold isizeMax usizeMax
    omega
  · unfold isizeMax at *
    unfold wordSize at hptr
    omega

end Call

end BoundedRangeAllocator

section Run

variable {calls : List History.Call} {s : History} {layout : Layout} {ptr : ℕ}
  {start stop : Bound}

/-- Requests that some recorded range has room for are served exactly if such a range begins
below the highest address the block can be at. -/
theorem allocNear_complete_iff (hrun : Transition.run History.step .zeroed calls = some s)
    (hptr : ptr < wordSize) :
    (s.alloc.HasRoom layout ptr start stop →
        (s.alloc.allocNear layout ptr start stop).isSome) ↔
      (s.alloc.HasRoom layout ptr start stop → s.alloc.HasRoomBelow layout ptr start stop) := by
  have hinv := History.inv_of_run hrun
  refine forall_congr' fun hroom => ⟨fun hsome => ?_, fun hbelow => ?_⟩
  · obtain ⟨⟨a', block⟩, halloc⟩ := Option.isSome_iff_exists.1 hsome
    obtain ⟨least, greatest, hleast, hgreatest, r, hr, hlt, hplace⟩ :=
      room_of_allocNear hinv (fun _ => hroom.up_lt hinv hptr) halloc
    exact ⟨least, greatest, hleast, hgreatest, r, hr, hlt, block.start, hplace⟩
  · exact allocNear_isSome hinv (fun _ => hroom.up_lt hinv hptr) hbelow

/-- A range of 64 bytes, the only memory there is. -/
def adopt64 : List History.Call :=
  [.adoptRange ⟨⟨0x10000, 0x10040⟩, by decide, by decide, by decide⟩]

/-- An allocator with 64 bytes. -/
def adopted64 : History :=
  ⟨⟨[⟨0x10000, 0x10040⟩], 0x10001, 0x10040⟩, [⟨0x10000, 0x10040⟩], []⟩

/-- A request of 48 of them. -/
def layout48 : Layout :=
  ⟨48, 16, by decide, History.layout64.align_pow, by decide⟩

theorem run_adopt64 : Transition.run History.step .zeroed adopt64 = some adopted64 := by
  decide +kernel

/-- The range is exactly as long as the request. -/
theorem not_allocNear_exact :
    Transition.run History.step .zeroed adopt64 = some adopted64 ∧
      adopted64.alloc.HasRoom History.layout64 0x10000 (.included 0) .unbounded ∧
      adopted64.alloc.allocNear History.layout64 0x10000 (.included 0) .unbounded = none :=
  ⟨run_adopt64,
    ⟨⟨0x10000, 0x10040⟩, by decide, 0x10000, ⟨by decide, by decide, by decide⟩,
      show (0 : ℤ) ≤ _ by decide, trivial⟩,
    by decide +kernel⟩

theorem allocNear_complete_adopt64 :
    (adopted64.alloc.HasRoom layout48 0x10000 (.included 0) .unbounded →
        (adopted64.alloc.allocNear layout48 0x10000 (.included 0) .unbounded).isSome) ↔
      (adopted64.alloc.HasRoom layout48 0x10000 (.included 0) .unbounded →
        adopted64.alloc.HasRoomBelow layout48 0x10000 (.included 0) .unbounded) :=
  allocNear_complete_iff run_adopt64 (by decide)

/-- What is promised of a block that was served. -/
structure Serves (a : BoundedRangeAllocator) (layout : Layout) (ptr : ℕ) (start stop : Bound)
    (block : Range) : Prop where
  aligned : layout.align ∣ block.start
  stop_eq : block.stop = block.start + layout.size
  admits : Admits ptr start stop block.start
  within : ∃ r ∈ a.ranges, block.Within r

/-- A block is served within the bounds, from within one recorded range. -/
theorem allocNear_serves (hrun : Transition.run History.step .zeroed calls = some s)
    (hup : ∀ least, start.least = some least →
      Align.up (saturatingAddSigned ptr least) layout.align < wordSize)
    {a' : BoundedRangeAllocator} {block : Range}
    (h : s.alloc.allocNear layout ptr start stop = some (a', block)) :
    Serves s.alloc layout ptr start stop block := by
  obtain ⟨least, greatest, hleast, hgreatest, r, hr, -, hroom, hmin, hmax⟩ :=
    room_of_allocNear (History.inv_of_run hrun) hup h
  have hstop := allocNear_stop_eq h
  exact
    { aligned := hroom.aligned
      stop_eq := hstop
      admits := ⟨Bound.admitsFrom_of_le hleast hmin, Bound.admitsTo_of_le hgreatest hmax⟩
      within := ⟨r, hr, hroom.start_le, hstop ▸ hroom.le_stop⟩ }

theorem allocNear_serves_adopt64 :
    Serves adopted64.alloc layout48 0x10008 (.excluded 0) (.included 8) ⟨0x10010, 0x10040⟩ :=
  allocNear_serves run_adopt64 (by rintro _ ⟨⟩; decide)
    (show adopted64.alloc.allocNear layout48 0x10008 (.excluded 0) (.included 8) =
      some (⟨[⟨0x10000, 0x10010⟩], 0x10001, 0x10040⟩, ⟨0x10010, 0x10040⟩) by decide +kernel)

end Run

end Diversion
