import Diversion.ContextSave
import Diversion.Lib.Align
import Mathlib.Tactic.IntervalCases

/-!
# The frame of a saved context

Where `xsave` puts what on the stack, relative to the word with the return address of
`XSAVE_FLAVOR`, the lowest of the frame. `k` is the offset of the frame pointer : the alignment
leaves a gap below it.
-/

namespace Diversion

namespace ContextSave

open WordMemory Machine

/-! ## Addresses relative to the frame -/

section Offsets

variable {a v : BitVec 64} {i j : ℕ} {m : Machine}

/-- Code is executed in two pieces. -/
theorem run_append (cpu : Cpu) (is js : List Insn) (m : Machine) :
    m.run cpu (is ++ js) = (m.run cpu is).bind fun m => m.run cpu js := by
  induction is generalizing m with
  | nil => rfl
  | cons i is ih =>
    rw [List.cons_append, run, run, Option.bind_assoc]
    exact congrArg _ (funext ih)

end Offsets

/-! ## The blocks of `xsave` -/

/-- The flags that `popfq` does not load. -/
def heldFlags (rflags : BitVec 64) : BitVec 64 :=
  rflags &&& ~~~popMask

section Blocks

variable {cpu : Cpu} {sites : CallSites} {s : Statics} {m m' m'' : Machine}
  {base : BitVec 64} {k : ℕ}

/-- What no block changes. -/
structure Leaves (m m' : Machine) : Prop where
  xstate : m'.xstate = m.xstate
  held : heldFlags m'.rflags = heldFlags m.rflags

/-- Two pieces of code that leave the state leave it together. -/
theorem Leaves.trans (h : Leaves m m') (h' : Leaves m' m'') : Leaves m m'' :=
  ⟨h'.xstate.trans h.xstate, h'.held.trans h.held⟩

end Blocks

/-! ## The area -/

namespace Statics

/-- The format of the area. -/
def layout (s : Statics) (cpu : Cpu) : Component → ℕ :=
  match s.flavor with
  | .xsave => cpu.standard
  | .xsavec => compacted s.xstateBv

/-- The components that the instruction takes to be in use. -/
def live (s : Statics) (x : XState) : BitVec 64 :=
  match s.flavor with
  | .xsave => x.inUse
  | .xsavec => x.live

/-- The components whose registers are stored. -/
def stored (s : Statics) (x : XState) : BitVec 64 :=
  match s.flavor with
  | .xsave => s.xstateBv
  | .xsavec => x.live &&& s.xstateBv

/-- `XCOMP_BV` as the flavor leaves it : the compacted format has its own bit and the
components. -/
def xcompBv (s : Statics) : BitVec 64 :=
  match s.flavor with
  | .xsave => 0
  | .xsavec => s.xstateBv ||| isCompacted

/-- What `context_save_proc` makes sure of. -/
structure Ok (cpu : Cpu) (s : Statics) : Prop where
  le_xcr0 : s.xstateBv &&& ~~~cpu.xcr0 = 0
  sse_of_avx : Has s.xstateBv .avx → Has s.xstateBv .sse
  setWidth : (s.xstateBv.setWidth 32).setWidth 64 = s.xstateBv
  le_size : 576 ≤ s.size
  size_lt : s.size < 2 ^ 32
  dvd_size : 64 ∣ s.size
  fits : Fits (s.layout cpu) s.xstateBv s.size
  avx : Has s.xstateBv .avx → s.avxOffset = offsetOfXsave + s.layout cpu .avx
  opmask : Has s.xstateBv .opmask → s.avx512Offset = offsetOfXsave + s.layout cpu .opmask
  zmmHi256 : Has s.xstateBv .zmmHi256 → s.avx512Offset + 64 = offsetOfXsave + s.layout cpu .zmmHi256
  hi16Zmm : Has s.xstateBv .hi16Zmm → s.avx512Offset + 576 = offsetOfXsave + s.layout cpu .hi16Zmm

end Statics

section Proc

variable {cpu : Cpu} {s : Statics} {mask : BitVec 64} {c : Component} {layout : Component → ℕ}

end Proc

section Area

variable {cpu : Cpu} {sites : CallSites} {s : Statics} {m m' : Machine} {base : BitVec 64} {j k : ℕ}

end Area

end ContextSave

end Diversion
