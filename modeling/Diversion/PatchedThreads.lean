import Diversion.Install

/-!
# Threads after the patch

`suspend_and_detour` writes a 5-byte jump over the first instructions of a function. A thread
that goes on, or returns, strictly inside these bytes executes the middle of the jump. The
threads that stand at a kept instruction are moved to the trampoline, the others stay where they
are, and the return addresses on the stacks are left alone.

`leavesJump_iff` : no thread is left inside exactly if every instruction of the window that
starts inside was kept, and no kept call ends there.
-/

namespace Diversion

/-! ## Addresses of the window -/

section Window

variable {decode : Decode}

end Window

/-- `target` and `target + JmpRel::LEN` are not inside. -/
def InsideJump (target addr : ℕ) : Prop :=
  target < addr ∧ addr < target + jmpRelLen
deriving Decidable

/-- The instruction pushes the address of the next one. `FlowControl::Call` is not enough for
that, as it is also the one of `SYSCALL`, `SYSENTER` and `VMCALL`. -/
def Instruction.isCall (insn : Instruction) : Bool :=
  match insn.code with
  | .call _ => true
  | _ => false

section Patch

variable {encode : Encode} {decode decode' : Decode} {target ip : ℕ}
  {bytes : Vector UInt8 disasmLen} {site : HookSite} {encoded : Encoded} {layout : BlockLayout}
  {relocs : List IpReloc}

end Patch

/-! ## When no thread is left inside -/

/-- A window, the part of it that was kept, and the table for that part. -/
structure Tabled (target : ℕ) (window : List Instruction) (site : HookSite)
    (relocs : List IpReloc) : Prop where
  fits : target + disasmLen < wordSize
  kept : site.kept <+: window
  len_pos : ∀ insn ∈ window, 1 ≤ insn.len
  totalLen_le : totalLen window ≤ disasmLen
  ip : ∀ (i : ℕ) insn, window[i]? = some insn → insn.ip = target + totalLen (window.take i)
  outside : ∀ r ∈ relocs, ¬InsideJump target r.toIp
  entry : ∀ r ∈ relocs, ∃ (i : ℕ) (insn : Instruction), site.kept[i]? = some insn ∧
    r.fromIp = insn.ip
  covered : ∀ (i : ℕ) insn, 1 ≤ i → site.kept[i]? = some insn → ∃ r ∈ relocs, r.fromIp = insn.ip

namespace Tabled

variable {target i : ℕ} {window : List Instruction} {site : HookSite} {relocs : List IpReloc}
  {insn : Instruction}

theorem getElem?_window (h : Tabled target window site relocs) (hi : site.kept[i]? = some insn) :
    window[i]? = some insn := by
  obtain ⟨rest, hrest⟩ := h.kept
  obtain ⟨hlt, -⟩ := List.getElem?_eq_some_iff.1 hi
  rw [← hrest, List.getElem?_append_left hlt, hi]

/-- A kept instruction returns behind the bytes of the instructions up to it. -/
theorem nextIp (h : Tabled target window site relocs) (hi : site.kept[i]? = some insn) :
    insn.nextIp = target + totalLen (site.kept.take (i + 1)) ∧
      0 < totalLen (site.kept.take (i + 1)) := by
  obtain ⟨rest, hrest⟩ := h.kept
  obtain ⟨hlt, rfl⟩ := List.getElem?_eq_some_iff.1 hi
  have hwindow := h.getElem?_window hi
  have htake : window.take i = site.kept.take i := by
    rw [← hrest, List.take_append_of_le_length hlt.le]
  have hip := h.ip i _ hwindow
  have hlen := h.len_pos _ (List.mem_of_getElem? hwindow)
  have hsum : totalLen (site.kept.take (i + 1)) =
      totalLen (site.kept.take i) + (site.kept[i]).len := by
    rw [List.take_succ_eq_append_getElem hlt, totalLen_append, totalLen_cons, totalLen_nil]
    rfl
  have hle : totalLen (site.kept.take (i + 1)) ≤ totalLen window :=
    totalLen_le_of_isPrefix ((List.take_prefix _ _).trans h.kept)
  have htotal := h.totalLen_le
  have hfits := h.fits
  rw [htake] at hip
  rw [Instruction.nextIp, wrappingAdd_eq (by omega)]
  omega

end Tabled

end Diversion
