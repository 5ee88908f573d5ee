import Diversion.Decode

/-!
# Page protections

How the window of a hook site is made writable and given back (src/installer/arch/os/linux.rs
and memory.rs). `Protection::of` looks one address up in the file of mappings; `protect` sets
every page that meets the range. The address space is the protection of each page; what the
system makes of a call is a parameter of it.

The guard remembers one protection for all pages of the range. So giving the range back
restores the address space exactly if its pages all had the one of the first
(`preservesProtections_iff`).
-/

namespace Diversion

/-- The `PROT_*` bits. -/
structure Protection where
  bits : UInt32
deriving DecidableEq, Repr

namespace Protection

/-- `libc::PROT_READ`. -/
def protRead : UInt32 := 1

/-- `libc::PROT_WRITE`. -/
def protWrite : UInt32 := 2

/-- `libc::PROT_EXEC`. -/
def protExec : UInt32 := 4

/-- `try_into_rwx_from_rx`. -/
def tryIntoRwxFromRx (prot : Protection) : Option Protection :=
  if prot.bits &&& protExec ≠ 0 then some ⟨prot.bits ||| protWrite⟩ else none

end Protection

/-- A line of `/proc/self/maps`. -/
structure RegionInfo where
  start : ℕ
  stop : ℕ
  prot : Protection
deriving DecidableEq, Repr

/-- `proc_pid_maps` : the lines of the file, if it can be read. -/
abbrev ProcPidMaps := Except IoError (List (Except IoError RegionInfo))

/-- The protection of every page that is mapped. -/
structure AddressSpace where
  pageSize : ℕ
  page_pow : ∃ k, pageSize = 2 ^ k
  prot : ℕ → Option Protection

namespace AddressSpace

variable {space : AddressSpace} {addr len n : ℕ}

/-- Page `n` has a byte in the range. -/
def Touches (space : AddressSpace) (addr len n : ℕ) : Prop :=
  0 < len ∧ addr / space.pageSize ≤ n ∧ n ≤ (addr + len - 1) / space.pageSize

instance : Decidable (space.Touches addr len n) :=
  inferInstanceAs (Decidable (0 < len ∧ _ ∧ _))

theorem pageSize_pos (space : AddressSpace) : 0 < space.pageSize := by
  obtain ⟨k, hk⟩ := space.page_pow
  exact hk ▸ Nat.two_pow_pos k

/-- The lines that could be read are those of the address space. -/
def Lists (space : AddressSpace) (maps : ProcPidMaps) : Prop :=
  ∀ lines, maps = .ok lines → ∀ r, .ok r ∈ lines →
    ∀ addr, r.start ≤ addr → addr < r.stop → space.prot (addr / space.pageSize) = some r.prot

/-- `mprotect` sets the pages that meet the range, or none if it fails. -/
def mprotect (space : AddressSpace) (addr len : ℕ) (prot : Protection) :
    Except IoError Unit → Except IoError Unit × AddressSpace
  | .ok () => (.ok (), { space with
      prot := fun n =>
        if space.Touches addr len n then (space.prot n).map fun _ => prot else space.prot n })
  | .error err => (.error err, space)

/-- Where `protect` begins : the address rounded down to its page. -/
def pageStart (space : AddressSpace) (addr : ℕ) : ℕ :=
  addr - (addr &&& (space.pageSize - 1))

/-- The length `protect` asks for. A slice does not reach past the last address. -/
def pageLen (space : AddressSpace) (addr len : ℕ) : ℕ :=
  len + (addr &&& (space.pageSize - 1))

end AddressSpace

/-- `ProtectionGuard`, a region with the protection to restore. -/
structure ProtectionGuard where
  addr : ℕ
  len : ℕ
  prot : Option Protection
deriving DecidableEq, Repr

namespace Protection

/-- What `Protection::of` makes of a line. -/
def ofRegion (addr : ℕ) : Except IoError RegionInfo → Option (Except IoError Protection)
  | .ok r => if r.start ≤ addr ∧ addr < r.stop then some (.ok r.prot) else none
  | .error err => some (.error err)

/-- `Protection::of`, the first region of the maps with the address. -/
def of (maps : ProcPidMaps) (addr : ℕ) : Except IoError Protection := do
  let regions ← maps
  (regions.findSome? (ofRegion addr)).getD
    (.error ⟨"tried to get protection of uncommitted memory"⟩)

/-- `Protection::protect`, on whole pages. -/
def protect (prot : Protection) (space : AddressSpace) (addr len : ℕ) (os : Except IoError Unit) :
    Except IoError Unit × AddressSpace :=
  space.mprotect (space.pageStart addr) (space.pageLen addr len) prot os

/-- `make_rwx`, of memory that is executable. -/
def makeRwx (space : AddressSpace) (maps : ProcPidMaps) (addr len : ℕ)
    (os : Except IoError Unit) : Except IoError ProtectionGuard × AddressSpace :=
  match Protection.of maps addr with
  | .error err => (.error err, space)
  | .ok old =>
    match old.tryIntoRwxFromRx with
    | none => (.error ⟨"memory is not executable"⟩, space)
    | some rwx =>
      match rwx.protect space addr len os with
      | (.error err, space) => (.error err, space)
      | (.ok (), space) => (.ok ⟨addr, len, some old⟩, space)

end Protection

namespace ProtectionGuard

/-- `ProtectionGuard::restore`. -/
def restore (guard : ProtectionGuard) (space : AddressSpace) (os : Except IoError Unit) :
    Except IoError Unit × AddressSpace :=
  match guard.prot with
  | some prot => prot.protect space guard.addr guard.len os
  | none => (.ok (), space)

/-- `drop`, which ignores whether the range was restored. -/
def drop (guard : ProtectionGuard) (space : AddressSpace) (os : Except IoError Unit) :
    AddressSpace :=
  (guard.restore space os).2

end ProtectionGuard

/-! ## Giving a range back -/

section Restore

variable {space : AddressSpace} {maps : ProcPidMaps} {addr len n : ℕ} {old : Protection}
  {os os' : Except IoError Unit}

theorem AddressSpace.pageStart_eq (space : AddressSpace) (addr len : ℕ) :
    space.pageStart addr = Align.down addr space.pageSize ∧
      space.pageLen addr len = addr + len - Align.down addr space.pageSize := by
  obtain ⟨k, hk⟩ := space.page_pow
  have hmod : addr &&& (space.pageSize - 1) = addr % space.pageSize := by
    rw [hk, Nat.and_two_pow_sub_one_eq_mod]
  have hdown : Align.down addr space.pageSize + addr % space.pageSize = addr :=
    Nat.div_add_mod' addr space.pageSize
  rw [pageStart, pageLen, hmod]
  omega

/-- The page of the address is among those that are set, if any is. -/
theorem AddressSpace.touches_page
    (h : space.Touches (space.pageStart addr) (space.pageLen addr len) n) :
    space.Touches (space.pageStart addr) (space.pageLen addr len) (addr / space.pageSize) := by
  obtain ⟨hlen, -, -⟩ := h
  obtain ⟨hstart, hlen'⟩ := space.pageStart_eq addr len
  have hpage : Align.down addr space.pageSize / space.pageSize = addr / space.pageSize :=
    Nat.mul_div_cancel _ space.pageSize_pos
  refine ⟨hlen, ?_, ?_⟩
  · rw [hstart, hpage]
  · rw [← hpage, ← hstart]
    exact Nat.div_le_div_right (by omega)

/-- What `of` found is the protection of the page. -/
theorem AddressSpace.Lists.prot_of (h : space.Lists maps)
    (hof : Protection.of maps addr = .ok old) :
    space.prot (addr / space.pageSize) = some old := by
  cases maps with
  | error err => cases hof
  | ok lines =>
    change (lines.findSome? (Protection.ofRegion addr)).getD _ = .ok old at hof
    cases hfind : lines.findSome? (Protection.ofRegion addr) with
    | none => rw [hfind] at hof; cases hof
    | some found =>
      rw [hfind] at hof
      obtain rfl : found = .ok old := hof
      obtain ⟨line, hline, hfound⟩ := List.exists_of_findSome?_eq_some hfind
      cases line with
      | error err => cases hfound
      | ok r =>
        simp only [Protection.ofRegion] at hfound
        split_ifs at hfound with hin
        obtain rfl := Except.ok.inj (Option.some.inj hfound)
        exact h lines rfl r hline addr hin.1 hin.2

theorem makeRwx_eq (hof : Protection.of maps addr = .ok old)
    (hexec : old.bits &&& Protection.protExec ≠ 0) :
    Protection.makeRwx space maps addr len (.ok ()) = (.ok ⟨addr, len, some old⟩,
      (Protection.protect ⟨old.bits ||| Protection.protWrite⟩ space addr len (.ok ())).2) := by
  simp only [Protection.makeRwx, hof, Protection.tryIntoRwxFromRx, if_pos hexec,
    Protection.protect, AddressSpace.mprotect]

/-- `make_rwx` succeeds on executable memory if the system lets it. Otherwise nothing
changes. -/
theorem makeRwx_cases (space : AddressSpace) (maps : ProcPidMaps) (addr len : ℕ)
    (os : Except IoError Unit) :
    (∃ old, Protection.of maps addr = .ok old ∧ old.bits &&& Protection.protExec ≠ 0 ∧
      os = .ok ()) ∨
      ∃ err, Protection.makeRwx space maps addr len os = (.error err, space) := by
  unfold Protection.makeRwx
  cases hof : Protection.of maps addr with
  | error err => exact Or.inr ⟨err, rfl⟩
  | ok old =>
    by_cases hexec : old.bits &&& Protection.protExec ≠ 0
    · cases os with
      | ok => exact Or.inl ⟨old, rfl, hexec, rfl⟩
      | error err =>
        refine Or.inr ⟨err, ?_⟩
        simp only [Protection.tryIntoRwxFromRx, if_pos hexec, Protection.protect,
          AddressSpace.mprotect]
    · refine Or.inr ⟨⟨"memory is not executable"⟩, ?_⟩
      simp only [Protection.tryIntoRwxFromRx, if_neg hexec]

/-- What the guard leaves behind, page by page : `old`, or `rwx` if the system fails. -/
theorem restore_prot (old rwx : Protection) :
    ((⟨addr, len, some old⟩ : ProtectionGuard).restore
        (rwx.protect space addr len (.ok ())).2 os').2.prot n =
      if space.Touches (space.pageStart addr) (space.pageLen addr len) n then
        (space.prot n).map fun _ => if os' = .ok () then old else rwx
      else space.prot n := by
  change ((old.protect (rwx.protect space addr len (.ok ())).2 addr len os').2.prot n) = _
  have hrwx : (rwx.protect space addr len (.ok ())).2.prot n =
      if space.Touches (space.pageStart addr) (space.pageLen addr len) n then
        (space.prot n).map fun _ => rwx else space.prot n := rfl
  cases os' with
  | error err =>
    simp only [reduceCtorEq, if_false]
    exact hrwx
  | ok =>
    change (if space.Touches (space.pageStart addr) (space.pageLen addr len) n then
      ((rwx.protect space addr len (.ok ())).2.prot n).map fun _ => old
      else (rwx.protect space addr len (.ok ())).2.prot n) = _
    rw [hrwx]
    split_ifs with htouch hok
    · rw [Option.map_map]
      rfl
    · exact absurd rfl hok
    · rfl

/-- Making a range writable and giving it back leaves every page as it was, and so does
failing to. `os` and `os'` are what the system makes of the two calls. -/
def PreservesProtections (space : AddressSpace) (maps : ProcPidMaps) (addr len : ℕ)
    (os os' : Except IoError Unit) : Prop :=
  match Protection.makeRwx space maps addr len os with
  | (.ok guard, space') => ∀ n, (guard.restore space' os').2.prot n = space.prot n ∧
      (guard.drop space' os').prot n = space.prot n
  | (.error _, space') => ∀ n, space'.prot n = space.prot n

/-- The pages of the range have the protection of its first page, which the system restores
or which was writable already. -/
def UniformProtection (space : AddressSpace) (maps : ProcPidMaps) (addr len : ℕ)
    (os os' : Except IoError Unit) : Prop :=
  ∀ old, Protection.of maps addr = .ok old → old.bits &&& Protection.protExec ≠ 0 →
    os = .ok () → ∀ n, space.Touches (space.pageStart addr) (space.pageLen addr len) n →
      ∀ prot, space.prot n = some prot →
        prot = old ∧ (os' = .ok () ∨ old.bits ||| Protection.protWrite = old.bits)

/-- The protections are preserved exactly if they were uniform. -/
theorem preservesProtections_iff (hmaps : space.Lists maps) :
    PreservesProtections space maps addr len os os' ↔
      UniformProtection space maps addr len os os' := by
  unfold PreservesProtections UniformProtection
  rcases makeRwx_cases space maps addr len os with ⟨old, hof, hexec, rfl⟩ | ⟨err, hmake⟩
  · simp only [makeRwx_eq hof hexec, ProtectionGuard.drop, restore_prot, and_self]
    have hold := hmaps.prot_of hof
    constructor
    · rintro h old' hof' - - n hn prot hprot
      obtain rfl : old = old' := Except.ok.inj (hof.symm.trans hof')
      have hpage := h (addr / space.pageSize)
      rw [if_pos (AddressSpace.touches_page hn), hold] at hpage
      have hset := h n
      rw [if_pos hn, hprot] at hset
      have hpage := Option.some.inj hpage
      refine ⟨(Option.some.inj hset).symm.trans hpage, ?_⟩
      split_ifs at hpage with hok
      · exact Or.inl hok
      · exact Or.inr (congrArg Protection.bits hpage)
    · intro h n
      have h := h old hof hexec trivial n
      split_ifs with hn hok
      · cases hprot : space.prot n with
        | none => rfl
        | some prot =>
          obtain ⟨rfl, -⟩ := h hn prot hprot
          rfl
      · cases hprot : space.prot n with
        | none => rfl
        | some prot =>
          obtain ⟨rfl, hbits⟩ := h hn prot hprot
          exact congrArg some (congrArg Protection.mk (hbits.resolve_left hok))
      · rfl
  · rw [hmake]
    refine iff_of_true (fun n => rfl) fun old hof hexec hos => ?_
    subst hos
    rw [makeRwx_eq hof hexec] at hmake
    cases (Prod.mk.inj hmake).1

theorem page_eq_pow : ∃ k, 4096 = 2 ^ k :=
  ⟨12, rfl⟩

/-- The last page of some code, and a page of constants. -/
def textThenRodata : AddressSpace where
  pageSize := 4096
  page_pow := page_eq_pow
  prot n := if n = 0x401 then some ⟨5⟩ else if n = 0x402 then some ⟨1⟩ else none

/-- The maps of this address space. -/
def textThenRodataMaps : ProcPidMaps :=
  .ok [.ok ⟨0x401000, 0x402000, ⟨5⟩⟩, .ok ⟨0x402000, 0x403000, ⟨1⟩⟩]

theorem lists_textThenRodata : textThenRodata.Lists textThenRodataMaps := by
  rintro lines ⟨⟩ r hr addr hstart hstop
  simp only [List.mem_cons, List.not_mem_nil, or_false, Except.ok.injEq] at hr
  rcases hr with rfl | rfl <;> simp only at hstart hstop
  · have : addr / 4096 = 0x401 := by omega
    simp [textThenRodata, this]
  · have : addr / 4096 = 0x402 := by omega
    simp [textThenRodata, this]

/-- A window that reaches into the constants leaves them executable. -/
theorem not_preservesProtections_textThenRodata :
    textThenRodata.Lists textThenRodataMaps ∧
      ¬PreservesProtections textThenRodata textThenRodataMaps 0x401ffa disasmLen (.ok ()) (.ok ()) :=
  ⟨lists_textThenRodata, fun h => absurd (h 0x402).1 (by decide)⟩

theorem preservesProtections_iff_textThenRodata :
    PreservesProtections textThenRodata textThenRodataMaps 0x401100 disasmLen (.ok ()) (.ok ()) ↔
      UniformProtection textThenRodata textThenRodataMaps 0x401100 disasmLen (.ok ()) (.ok ()) :=
  preservesProtections_iff lists_textThenRodata

end Restore

end Diversion
