import Diversion.Install
import Diversion.RegionSearch

/-!
# The reach of a trampoline

The relocated instructions of a site have to reach every address they are relative to from
wherever they end in the buffer. `HookSite::relocate` asks for a buffer around the midpoint of
these addresses, within bounds that leave room for half of their distance and for the buffer.
The analysis keeps the least and the greatest of the addresses (`RelAddrs.extremes`); buffers
within the bounds reach them all, and if no buffer does, the bounds are empty and the
relocation is an error (`relocate_reaches`).
-/

namespace Diversion

open BoundedRangeAllocator

/-! ## The addresses of a site -/

/-- The addresses the relocated instructions are relative to : the memory operands of the
kept ones, and where the appended jump leads. -/
def HookSite.relAddrs (site : HookSite) : List ℕ :=
  site.kept.filterMap Instruction.ipRelMemoryAddress ++
    if site.willBranch then [] else [site.trampolineTargetAddr]

section Extremes

variable {l : List ℕ} {init : ℕ} {s : Scan} {insns : List Instruction}

/-- A fold with an operation that chooses one of two elements chooses one of all. -/
theorem foldl_mem {f : ℕ → ℕ → ℕ} (l : List ℕ) (init : ℕ) (hf : ∀ a b, f a b = a ∨ f a b = b) :
    l.foldl f init = init ∨ l.foldl f init ∈ l := by
  induction l generalizing init with
  | nil => exact Or.inl rfl
  | cons b l ih =>
    rw [List.foldl_cons]
    rcases ih (f init b) with h | h
    · rcases hf init b with hb | hb
      · exact Or.inl (h.trans hb)
      · exact Or.inr (by rw [h, hb]; simp)
    · exact Or.inr (List.mem_cons_of_mem _ h)

/-- A fold with an operation that is below both of two elements is below all. -/
theorem foldl_rel {f : ℕ → ℕ → ℕ} (r : ℕ → ℕ → Prop) [IsPreorder ℕ r] (l : List ℕ) (init : ℕ)
    (hf : ∀ a b, r (f a b) a ∧ r (f a b) b) :
    r (l.foldl f init) init ∧ ∀ a ∈ l, r (l.foldl f init) a := by
  induction l generalizing init with
  | nil => exact ⟨refl_of r _, by simp⟩
  | cons b l ih =>
    obtain ⟨hinit, hmem⟩ := ih (f init b)
    refine ⟨trans_of r hinit (hf init b).1, fun a ha => ?_⟩
    rcases List.mem_cons.1 ha with rfl | ha
    · exact trans_of r hinit (hf init a).2
    · exact hmem a ha

/-- Keeping instructions folds their relative addresses in. -/
theorem Scan.keepAll_relAddrs (s : Scan) (insns : List Instruction) :
    (s.keepAll insns).minRelAddr =
        (insns.filterMap Instruction.ipRelMemoryAddress).foldl min s.minRelAddr ∧
      (s.keepAll insns).maxRelAddr =
        (insns.filterMap Instruction.ipRelMemoryAddress).foldl max s.maxRelAddr := by
  induction insns generalizing s with
  | nil => exact ⟨rfl, rfl⟩
  | cons insn insns ih =>
    have h := ih (s.keep insn)
    simp only [keepAll, List.foldl_cons] at h ⊢
    cases haddr : insn.ipRelMemoryAddress with
    | none => simpa [keep, haddr] using h
    | some relAddr => simpa [keep, haddr] using h

theorem Scan.skipAll_relAddrs :
    (s.skipAll insns).minRelAddr = s.minRelAddr ∧ (s.skipAll insns).maxRelAddr = s.maxRelAddr := by
  induction insns generalizing s with
  | nil => exact ⟨rfl, rfl⟩
  | cons insn insns ih => exact ih (s := s.skip insn)

/-- What the loop records is about the instructions it keeps. -/
theorem scan_relAddrs (insns : List Instruction) :
    let kept := insns.take (scan .start insns).minCount
    (scan .start insns).minRelAddr =
        (kept.filterMap Instruction.ipRelMemoryAddress).foldl min usizeMax ∧
      (scan .start insns).maxRelAddr =
        (kept.filterMap Instruction.ipRelMemoryAddress).foldl max 0 := by
  obtain ⟨kept, pad, rest, rfl, -, -, hend⟩ := scan_cases insns
  have hkeep := Scan.keepAll_relAddrs .start kept
  have hscan : (scan .start (kept ++ (pad ++ rest))).minCount = kept.length ∧
      (scan .start (kept ++ (pad ++ rest))).minRelAddr =
        (Scan.start.keepAll kept).minRelAddr ∧
      (scan .start (kept ++ (pad ++ rest))).maxRelAddr =
        (Scan.start.keepAll kept).maxRelAddr := by
    rcases hend with ⟨-, -, hend⟩ | ⟨-, -, -, -, -, hend | ⟨insn, -, -, -, -, -, hend⟩⟩ <;>
      rw [hend]
    · simp
    · exact ⟨by simp, Scan.skipAll_relAddrs.1, Scan.skipAll_relAddrs.2⟩
    · exact ⟨by simp, Scan.skipAll_relAddrs.1, Scan.skipAll_relAddrs.2⟩
  obtain ⟨hcount, hmin, hmax⟩ := hscan
  simp only [hcount, hmin, hmax, List.take_left']
  exact hkeep

/-- The analysis folds all addresses of the site. -/
theorem HookSite.relAddrs_of_ofInsns {addr : ℕ} {bytes : Vector UInt8 disasmLen} {site : HookSite}
    (h : HookSite.ofInsns addr bytes insns = .ok site) :
    site.minRelAddr = site.relAddrs.foldl min usizeMax ∧
      site.maxRelAddr = site.relAddrs.foldl max 0 := by
  obtain ⟨hmin, hmax⟩ := scan_relAddrs insns
  unfold HookSite.ofInsns at h
  simp only at h
  cases hlast : (insns.take (scan .start insns).minCount).getLast? with
  | none =>
    rw [hlast] at h
    split_ifs at h
  | some last =>
    rw [hlast] at h
    split_ifs at h with hlen hbranch <;> obtain rfl := Except.ok.inj h
    · simpa [HookSite.relAddrs, HookSite.kept] using ⟨hmin, hmax⟩
    · simp only [HookSite.relAddrs, HookSite.kept, Bool.false_eq_true, if_false,
        List.dropLast_concat, List.foldl_append, List.foldl_cons, List.foldl_nil, hmin, hmax,
        and_self]

/-- The recorded addresses are the least and the greatest of the site. -/
structure HookSite.Spans (site : HookSite) : Prop where
  min_mem : site.minRelAddr ∈ site.relAddrs
  max_mem : site.maxRelAddr ∈ site.relAddrs
  between : ∀ r ∈ site.relAddrs, site.minRelAddr ≤ r ∧ r ≤ site.maxRelAddr

theorem HookSite.spans_of_analyze {decode : Decode} {addr : ℕ} {bytes : Vector UInt8 disasmLen}
    {site : HookSite} (h : HookSite.analyze decode addr bytes = .ok site)
    (hne : site.relAddrs ≠ []) (hlt : ∀ r ∈ site.relAddrs, r ≤ isizeMax) : site.Spans := by
  obtain ⟨hmin, hmax⟩ := HookSite.relAddrs_of_ofInsns (HookSite.ofInsns_of_analyze h)
  have hlow := foldl_rel (f := min) (· ≤ ·) site.relAddrs usizeMax
    fun a b => ⟨min_le_left a b, min_le_right a b⟩
  have hhigh := foldl_rel (f := max) (· ≥ ·) site.relAddrs 0
    fun a b => ⟨le_max_left a b, le_max_right a b⟩
  obtain ⟨a, ha⟩ := List.exists_mem_of_ne_nil _ hne
  have hle := hlt a ha
  have hlowa := hlow.2 a ha
  have hhigha := hhigh.2 a ha
  refine ⟨?_, ?_, fun r hr => ⟨hmin ▸ hlow.2 r hr, hmax ▸ hhigh.2 r hr⟩⟩
  · rw [hmin]
    refine (foldl_mem _ usizeMax min_choice).resolve_left fun heq => ?_
    rw [heq] at hlowa
    unfold usizeMax isizeMax at *
    omega
  · rw [hmax]
    rcases foldl_mem site.relAddrs 0 max_choice with heq | hmem
    · -- the only address is 0
      rw [heq] at hhigha ⊢
      obtain rfl : a = 0 := Nat.le_zero.1 hhigha
      exact ha
    · exact hmem

end Extremes

/-! ## The bounds -/

section Bounds

variable {site : HookSite} {B : ℕ}

/-- Every address of the site is within 32 bits of every end of an instruction in a buffer
at `B`. -/
def HookSite.ReachedFrom (site : HookSite) (B : ℕ) : Prop :=
  ∀ e, B < e → e ≤ B + relocBufLen → ∀ r ∈ site.relAddrs,
    i32Min ≤ (r : ℤ) - e ∧ (r : ℤ) - e ≤ i32Max

/-- The greatest distance from the midpoint, and the length of the buffer. -/
def HookSite.maxOffset (site : HookSite) : ℕ :=
  (site.maxRelAddr - site.minRelAddr + 1) / 2 + relocBufLen

theorem wrapIsize_eq {n : ℤ} (hmin : -2 ^ 63 ≤ n) (hmax : n < 2 ^ 63) : wrapIsize n = n := by
  unfold wrapIsize
  omega

/-- The bounds are computed without overflow. -/
theorem HookSite.Spans.relocateBounds_eq (h : site.Spans)
    (hlt : ∀ r ∈ site.relAddrs, r ≤ isizeMax) :
    site.relocateBounds = ((site.minRelAddr + site.maxRelAddr) / 2,
      .excluded (i32Min + site.maxOffset), .excluded (i32Max - site.maxOffset)) := by
  have hle := (h.between _ h.min_mem).2
  have hmax := hlt _ h.max_mem
  have hoffset : (site.maxOffset : ℤ) < 2 ^ 63 - 2 ^ 31 := by
    unfold maxOffset relocBufLen
    unfold isizeMax at hmax
    omega
  have hexact : wrapIsize (site.maxOffset : ℕ) = site.maxOffset :=
    wrapIsize_eq (by omega) (by omega)
  unfold relocateBounds
  rw [if_pos hle]
  change (_, Bound.excluded (wrapIsize (i32Min + wrapIsize (site.maxOffset : ℕ))),
    Bound.excluded (wrapIsize (i32Max - wrapIsize (site.maxOffset : ℕ)))) = _
  rw [hexact, wrapIsize_eq (by unfold i32Min; omega) (by unfold i32Min; omega),
    wrapIsize_eq (by unfold i32Max; omega) (by unfold i32Max; omega)]

/-- A buffer within the bounds reaches all addresses. -/
theorem HookSite.Spans.reachedFrom (h : site.Spans) (hlt : ∀ r ∈ site.relAddrs, r ≤ isizeMax)
    (hB : Admits site.relocateBounds.1 site.relocateBounds.2.1 site.relocateBounds.2.2 B) :
    site.ReachedFrom B := by
  intro e hlow hhigh r hr
  obtain ⟨hmin, hmax⟩ := h.between r hr
  rw [h.relocateBounds_eq hlt] at hB
  obtain ⟨hfrom, hto⟩ := hB
  simp only [Bound.AdmitsFrom, Bound.AdmitsTo, maxOffset, relocBufLen, i32Min, i32Max] at *
  omega

/-- If no buffer is within the bounds, there is no distance between them either. -/
theorem HookSite.Spans.bounds_empty (h : site.Spans) (hlt : ∀ r ∈ site.relAddrs, r ≤ isizeMax)
    (hno : ∀ B, ¬Admits site.relocateBounds.1 site.relocateBounds.2.1 site.relocateBounds.2.2 B) :
    i32Max - site.maxOffset - 1 < i32Min + site.maxOffset + 1 := by
  rw [h.relocateBounds_eq hlt] at hno
  have hmid := hno ((site.minRelAddr + site.maxRelAddr) / 2)
  simp only [Admits, Bound.AdmitsFrom, Bound.AdmitsTo, i32Min, i32Max] at hmid ⊢
  omega

theorem Bound.least_excluded {b : ℤ} (h : b ≠ isizeMax) :
    (Bound.excluded b).least = some (b + 1) :=
  if_neg h

theorem Bound.greatest_excluded {b : ℤ} (h : b ≠ -(isizeMax : ℤ) - 1) :
    (Bound.excluded b).greatest = some (b - 1) :=
  if_neg h

theorem saturatingAddSigned_lt_of_neg {a : ℕ} {low high : ℤ} (ha : 0 < a ∧ a < usizeMax)
    (hlow : low < 0) (hhigh : 0 ≤ high) :
    saturatingAddSigned a low < saturatingAddSigned a high := by
  have hle : saturatingAddSigned a low ≤ a - 1 :=
    (saturatingAddSigned_le_iff (by omega)).2 (by omega)
  have hge : a ≤ saturatingAddSigned a high :=
    (le_saturatingAddSigned_iff ha.1 ha.2.le).2 (by omega)
  omega

/-- A request whose bounds admit no distance is not served. -/
theorem allocNear_of_empty (a : BoundedRangeAllocator) (layout : Layout) (ptr : ℕ)
    {start stop : Bound} {least greatest : ℤ} (halign : layout.align = 1)
    (hleast : start.least = some least) (hgreatest : stop.greatest = some greatest)
    (hlt : saturatingAddSigned ptr greatest < saturatingAddSigned ptr least) :
    a.allocNear layout ptr start stop = none := by
  have hup : nextMultipleOf (saturatingAddSigned ptr least) 1 = saturatingAddSigned ptr least :=
    if_pos (Nat.mod_one _)
  have hdown := Nat.and_le_left (n := min (saturatingAddSigned ptr greatest)
    (a.maxAddr - layout.size)) (m := wrappingNeg 1)
  have hmin := min_le_left (saturatingAddSigned ptr greatest) (a.maxAddr - layout.size)
  simp only [allocNear, allocLayoutInsideBounds, hleast, hgreatest, Option.bind_eq_bind,
    Option.bind_some, allocLayoutBetween, halign, hup]
  exact if_pos (Or.inl (by omega))

/-- If no buffer is within the bounds, the relocation is an error. -/
theorem HookSite.Spans.relocate_error (h : site.Spans) (hlt : ∀ r ∈ site.relAddrs, r ≤ isizeMax)
    (hno : ∀ B, ¬Admits site.relocateBounds.1 site.relocateBounds.2.1 site.relocateBounds.2.2 B)
    {info : SysInfo} (maps : Mappings info) (accepts : ℕ → ℕ → Bool) (fuel : ℕ) (encode : Encode)
    (decode : Decode) (s : Session) :
    ∃ region err, Region.allocInsideBounds maps accepts fuel site.relocateBounds.1
        site.relocateBounds.2.1 site.relocateBounds.2.2 relocBufLayout.size
        relocBufLayout.size_pos = some region ∧
      (site.relocate encode decode region s).1 = .error err := by
  have hempty := h.bounds_empty hlt hno
  have hle := (h.between _ h.min_mem).2
  have hmax := hlt _ h.max_mem
  have hoffset : site.maxOffset =
    (site.maxRelAddr - site.minRelAddr + 1) / 2 + relocBufLen := rfl
  have heq := h.relocateBounds_eq hlt
  have hlarge : site.maxOffset < 2 ^ 62 + 2 ^ 11 := by
    unfold isizeMax at hmax
    unfold relocBufLen at hoffset
    omega
  have hneg : i32Max - site.maxOffset - 1 < 0 ∧ 0 ≤ i32Min + site.maxOffset + 1 := by
    unfold i32Min i32Max at hempty ⊢
    omega
  have hmid : 0 < (site.minRelAddr + site.maxRelAddr) / 2 ∧
      (site.minRelAddr + site.maxRelAddr) / 2 < usizeMax := by
    unfold isizeMax at hmax
    unfold i32Max i32Min at hempty
    unfold relocBufLen at hoffset
    unfold usizeMax
    omega
  have hleast := Bound.least_excluded (b := i32Min + site.maxOffset)
    (by unfold i32Min isizeMax; omega)
  have hgreatest := Bound.greatest_excluded (b := i32Max - site.maxOffset)
    (by unfold i32Max isizeMax; omega)
  have hnone := allocNear_of_empty s.context.alloc relocBufLayout
    ((site.minRelAddr + site.maxRelAddr) / 2) rfl hleast hgreatest
    (saturatingAddSigned_lt_of_neg hmid hneg.1 hneg.2)
  have hregion : ∃ err, Region.allocInsideBounds maps accepts fuel
      ((site.minRelAddr + site.maxRelAddr) / 2) (.excluded (i32Min + site.maxOffset))
      (.excluded (i32Max - site.maxOffset)) relocBufLayout.size relocBufLayout.size_pos =
        some (.error err) :=
    Region.allocInsideBounds_of_empty hleast hgreatest (hneg.1.trans_le hneg.2)
  obtain ⟨err, hregion⟩ := hregion
  simp only [relocate, heq, Session.osAllocNear, Session.allocNear, hnone, Option.map_none]
  exact ⟨_, _, hregion, rfl⟩

/-- The address is one that `relocate` accepts for the buffer. -/
def HookSite.Within (site : HookSite) (B : ℕ) : Prop :=
  Admits site.relocateBounds.1 site.relocateBounds.2.1 site.relocateBounds.2.2 B

/-- What `relocate` makes of the addresses of a site. -/
structure HookSite.RelocatesInReach (site : HookSite) : Prop where
  spans : site.Spans
  exact : site.relocateBounds = ((site.minRelAddr + site.maxRelAddr) / 2,
    .excluded (i32Min + site.maxOffset), .excluded (i32Max - site.maxOffset))
  reached : ∀ B, site.Within B → site.ReachedFrom B
  empty : (∀ B, ¬site.ReachedFrom B) → ∀ B, ¬site.Within B
  error : (∀ B, ¬site.Within B) → ∀ (info : SysInfo) (maps : Mappings info)
    (accepts : ℕ → ℕ → Bool) (fuel : ℕ) (encode : Encode) (decode : Decode) (s : Session),
      ∃ region err, Region.allocInsideBounds maps accepts fuel site.relocateBounds.1
          site.relocateBounds.2.1 site.relocateBounds.2.2 relocBufLayout.size
          relocBufLayout.size_pos = some region ∧
        (site.relocate encode decode region s).1 = .error err

/-- The bounds for the buffer are exact, a buffer within them reaches every address of the
site, and if no buffer can, the relocation is an error. -/
theorem relocate_reaches {decode : Decode} {addr : ℕ} {bytes : Vector UInt8 disasmLen}
    (h : HookSite.analyze decode addr bytes = .ok site) (hne : site.relAddrs ≠ [])
    (hlt : ∀ r ∈ site.relAddrs, r ≤ isizeMax) : site.RelocatesInReach := by
  have hspans := HookSite.spans_of_analyze h hne hlt
  exact
    { spans := hspans
      exact := hspans.relocateBounds_eq hlt
      reached := fun _ => hspans.reachedFrom hlt
      empty := fun hno B hB => hno B (hspans.reachedFrom hlt hB)
      error := fun hno _ => hspans.relocate_error hlt hno }

end Bounds

/-- `lea rax, [rip + 0x1ff9]`, behind it `int3`. -/
def leaSample : Vector UInt8 disasmLen :=
  ⟨#[0x48, 0x8d, 0x05, 0xf9, 0x1f, 0, 0, 0xcc, 0xcc, 0xcc, 0xcc, 0xcc, 0xcc, 0xcc, 0xcc, 0xcc,
    0xcc, 0xcc, 0xcc], rfl⟩

/-- A decoder for the `lea` and the jump back. -/
def decodeLea : Decode := fun ip bytes =>
  if bytes.length = disasmLen then ⟨.other 7, ip, 7, .next, some (ip + 0x2000), none⟩
  else decodeSample ip bytes

/-- The site of a `lea` relative to the instruction pointer. -/
def leaSite : HookSite where
  bytes := leaSample
  insns := [⟨.other 7, 0x401000, 7, .next, some 0x403000, none⟩, .jmpRel32 0x401007]
  minRelAddr := 0x401007
  maxRelAddr := 0x403000
  targetAddr := 0x401000
  trampolineTargetAddr := 0x401007
  willBranch := false

theorem analyze_leaSample : HookSite.analyze decodeLea 0x401000 leaSample = .ok leaSite :=
  rfl

/-- A low buffer is within the bounds around the middle of the data and the code behind it, and
reaches both. -/
theorem relocate_reaches_lea : leaSite.RelocatesInReach ∧ leaSite.relAddrs = [0x403000, 0x401007] ∧
    leaSite.ReachedFrom 0x10000 := by
  have hreaches : leaSite.RelocatesInReach :=
    relocate_reaches analyze_leaSample (by decide) (by decide)
  refine ⟨hreaches, rfl, hreaches.reached _ ⟨?_, ?_⟩⟩ <;> change (_ : ℤ) < _ <;> decide

end Diversion
