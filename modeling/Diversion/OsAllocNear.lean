import Diversion.Install
import Diversion.RegionSearch

/-!
# Allocating with the help of the system

`os_alloc_near` (src/installer/arch.rs) asks the recorded ranges, and if they have no room it
has pages mapped within the bounds, adopts them and asks again. The search for the pages
looks for `size` bytes at any address, and the allocator for an aligned block in a range that
begins below the highest address a block can be at; `osAllocNear_serves_iff` says what the
adopted ranges must have for the second request to be served.
-/

namespace Diversion

open Extent BoundedRangeAllocator

section OsAllocNear

variable {calls : List History.Call} {s : History} {session session' : Session}
  {layout : Layout} {ptr fuel : ℕ} {bounds : Bound × Bound} {info : SysInfo}
  {maps : Mappings info} {accepts : ℕ → ℕ → Bool} {region block : Range}

/-- The recorded ranges cannot serve the request, the system maps a new region for it, and
some free memory has an aligned place within the bounds. -/
structure MapsRegion (s : History) (layout : Layout) (ptr : ℕ) (bounds : Bound × Bound)
    (maps : Mappings info) (accepts : ℕ → ℕ → Bool) (fuel : ℕ) (region : Range) :
    Prop where
  unserved : s.alloc.allocNear layout ptr bounds.1 bounds.2 = none
  found : Region.allocInsideBounds maps accepts fuel ptr bounds.1 bounds.2 layout.size
    layout.size_pos = some (.ok (some region))
  fresh : ∀ r ∈ s.adopted, region.Separate r
  align_le : layout.align ≤ info.allocGranularity
  room : ∃ free x, Region.Free maps free ∧ Room layout free x ∧ Admits ptr bounds.1 bounds.2 x

/-- After the region was adopted the allocator is one that calls lead to. -/
theorem MapsRegion.run_adoptRange (h : MapsRegion s layout ptr bounds maps accepts fuel region)
    (hrun : Transition.run History.step .zeroed calls = some s) :
    ∃ live A, History.Inv (s.alloc.adoptRange region) live A := by
  obtain ⟨-, -, -, -, -, req, -, -, -, hp, hstop⟩ := Region.placed_of_allocInsideBounds h.found
  have hstart := Region.minAddress_le_minAllocAddr req
  have hpos := info.min_pos
  have hle := Region.lt_stopAt req region.start
  have hmax := Region.stopAt_le hp.le_max
  have hinfo := info.max_le
  have hmin := hp.min_le
  let slice : Slice := ⟨region, by omega, by omega, by omega⟩
  have hstep : History.step s (.adoptRange slice) = some { s with
      alloc := s.alloc.adoptRange region
      adopted := region :: s.adopted } := if_pos h.fresh
  have hinv := History.inv_step (History.inv_of_run hrun) hstep
  exact ⟨_, _, hinv⟩

/-- The lowest address of a request that the system serves does not overflow. -/
theorem MapsRegion.up_lt (h : MapsRegion s layout ptr bounds maps accepts fuel region)
    {least : ℤ} (hleast : bounds.1.least = some least) :
    Align.up (saturatingAddSigned ptr least) layout.align < wordSize := by
  obtain ⟨least', -, hleast', -, -, req, hmin, -, -, -, -⟩ :=
    Region.placed_of_allocInsideBounds h.found
  obtain rfl := Option.some.inj (hleast.symm.trans hleast')
  refine layout.up_lt ?_
  have := req.min_le_max
  have := req.max_le
  have := info.max_le
  have : saturatingAddSigned ptr least ≤ req.minAddr := hmin ▸ le_max_left _ _
  omega

/-- The second request decides. -/
theorem osAllocNear_eq (h : session.context.alloc.allocNear layout ptr bounds.1 bounds.2 = none) :
    (∃ block session', session.osAllocNear layout (.ok (some region)) ptr bounds =
        (.ok (some block), session')) ↔
      ((session.context.alloc.adoptRange region).allocNear layout ptr bounds.1 bounds.2).isSome := by
  have hfirst : session.allocNear layout ptr bounds = none := by
    rw [Session.allocNear, h]
    rfl
  simp only [Session.osAllocNear, hfirst]
  cases hsecond : (session.adoptRange region).allocNear layout ptr bounds with
  | none =>
    have : (session.context.alloc.adoptRange region).allocNear layout ptr bounds.1 bounds.2 =
        none := Option.map_eq_none_iff.1 hsecond
    simp [this]
  | some result =>
    obtain ⟨⟨alloc, block⟩, hsome, -⟩ := Option.map_eq_some_iff.1 hsecond
    have : (session.context.alloc.adoptRange region).allocNear layout ptr bounds.1 bounds.2 =
        some (alloc, block) := hsome
    simp [this]

/-- When the system maps a region for a request, the request is served exactly if, with the
region adopted, a recorded range that begins below the highest address of a block has an
aligned place. -/
theorem osAllocNear_serves_iff (hrun : Transition.run History.step .zeroed calls = some s)
    (hsession : session.context.alloc = s.alloc) :
    (MapsRegion s layout ptr bounds maps accepts fuel region →
        ∃ block session', session.osAllocNear layout (.ok (some region)) ptr bounds =
          (.ok (some block), session')) ↔
      (MapsRegion s layout ptr bounds maps accepts fuel region →
        (s.alloc.adoptRange region).HasRoomBelow layout ptr bounds.1 bounds.2) := by
  refine forall_congr' fun h => ?_
  obtain ⟨live, A, hinv⟩ := h.run_adoptRange hrun
  rw [osAllocNear_eq (hsession ▸ h.unserved), hsession]
  refine ⟨fun hsome => ?_, allocNear_isSome hinv fun _ => h.up_lt⟩
  obtain ⟨⟨a', block⟩, halloc⟩ := Option.isSome_iff_exists.1 hsome
  obtain ⟨least, greatest, hleast, hgreatest, r, hr, hlt, hplace⟩ :=
    room_of_allocNear hinv (fun _ => h.up_lt) halloc
  exact ⟨least, greatest, hleast, hgreatest, r, hr, hlt, block.start, hplace⟩

/-- A thunk at the beginning of the only page of an empty allocator. -/
theorem not_osAllocNear_pageStart :
    MapsRegion .zeroed Thunk.layout 0x10000 (.included 0, .included 0) Region.textMappings
        (fun _ _ => true) 1 ⟨0x10000, 0x11000⟩ ∧
      ((Session.ofContext .zeroed).osAllocNear Thunk.layout (.ok (some ⟨0x10000, 0x11000⟩))
        0x10000 (.included 0, .included 0)).1 = .ok none := by
  refine ⟨⟨by decide +kernel, by decide +kernel, by simp [History.zeroed], by decide,
    ⟨0x10000, 0x11000⟩, 0x10000, ⟨by decide, by decide⟩, ⟨by decide, by decide, by decide⟩,
    show (0 : ℤ) ≤ _ by decide, show _ ≤ (0 : ℤ) by decide⟩, by decide +kernel⟩

theorem osAllocNear_serves_iff_zeroed :
    (MapsRegion .zeroed Thunk.layout 0x10000 (.included 0, .included 8) Region.textMappings
        (fun _ _ => true) 1 ⟨0x10000, 0x11000⟩ →
        ∃ block session', (Session.ofContext .zeroed).osAllocNear Thunk.layout
          (.ok (some ⟨0x10000, 0x11000⟩)) 0x10000 (.included 0, .included 8) =
            (.ok (some block), session')) ↔
      (MapsRegion .zeroed Thunk.layout 0x10000 (.included 0, .included 8) Region.textMappings
          (fun _ _ => true) 1 ⟨0x10000, 0x11000⟩ →
        (BoundedRangeAllocator.zeroed.adoptRange ⟨0x10000, 0x11000⟩).HasRoomBelow Thunk.layout
          0x10000 (.included 0) (.included 8)) :=
  osAllocNear_serves_iff (show Transition.run History.step .zeroed [] = some .zeroed from rfl) rfl

end OsAllocNear

end Diversion
