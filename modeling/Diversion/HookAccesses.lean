import Diversion.ContextFrame

/-!
# The accesses of a hook

The places of a hook point into the frame that `xsave` has built. Every part of it that a
`Context` knows of is an array of its own there (`Part.apart`), at the address that the pointers
of `call_proc` give it (`Pointers.addr_of`). So the memory of the frame goes along with a
`Context` (`Agrees`) : a read returns what the `Context` has, and a write changes both alike.
-/

namespace Diversion

open WordMemory

/-- The components that the registers of a place belong to. -/
def Place.components : Place → List Component
  | gpr _ _ | flag _ => []
  | st _ => [.x87]
  | xmm _ => [.sse]
  | ymm _ => [.sse, .avx]
  | zmm n => if 16 ≤ n.val then [.hi16Zmm] else [.sse, .avx, .zmmHi256]
  | kmask _ => [.opmask]

/-- The components of the place are all in the bitmap. -/
def Place.Covered (bv : BitVec 64) (place : Place) : Prop :=
  ∀ c ∈ place.components, Has bv c
deriving Decidable

namespace ContextSave

/-! ## Parts -/

namespace Part

/-- The number of bytes that places point to. -/
def size : Part → ℕ
  | eflags => 4
  | regs => 128
  | bank c => c.size

/-- The part is saved. -/
def Covered (bv : BitVec 64) : Part → Prop
  | eflags | regs => True
  | bank c => Has bv c

/-- Where the part is in the frame. -/
def offset (layout : Component → ℕ) : Part → ℕ
  | eflags => 0x08
  | regs => 0x10
  | bank c => 0x98 + layout c

section Fits

variable {layout : Component → ℕ} {bv : BitVec 64} {n : ℕ} {part part' : Part}

theorem le_size (h : Fits layout bv n) (hn : 576 ≤ n) (hpart : part.Covered bv) :
    part.offset layout + part.size ≤ 0x98 + n := by
  cases part with
  | eflags | regs =>
    simp only [offset, size]
    omega
  | bank c =>
    have := h.le_size c hpart
    simp only [offset, size]
    omega

theorem le_offset : 8 ≤ part.offset layout := by
  cases part <;> simp only [offset] <;> omega

/-- The parts have no byte in common. -/
theorem apart (h : Fits layout bv n) (hpart : part.Covered bv) (hpart' : part'.Covered bv)
    (hne : part ≠ part') : part.offset layout + part.size ≤ part'.offset layout ∨
      part'.offset layout + part'.size ≤ part.offset layout := by
  cases part <;> cases part' <;> simp only [offset, size]
  case bank.bank c d =>
    have := h.disjoint hpart hpart' fun heq => hne (congrArg bank heq)
    omega
  all_goals first | exact absurd rfl hne | omega

end Fits

end Part

section Pointers

variable {cpu : Cpu} {s : Statics} {base : BitVec 64}

end Pointers

/-! ## The bytes of a context -/

end ContextSave

open ContextSave in
/-- The parts of a context as bytes. -/
def Context.part (c : Context) : Part → ℕ → UInt8
  | .eflags => fun i => (bytes (c.eflags.setWidth 64))[i]?.getD 0
  | .regs => c.regs
  | .bank .x87 => c.x87Regs
  | .bank .sse => c.xmmRegs
  | .bank .avx => c.ymmHRegs
  | .bank .opmask => c.kRegs
  | .bank .zmmHi256 => c.zmmHRegs
  | .bank .hi16Zmm => c.zmmRegs

namespace ContextSave

/-- The effect of a store on the parts. -/
def Store.apply (t : Store) (f : Part → ℕ → UInt8) : Part → ℕ → UInt8 :=
  Function.update f t.part (ByteMemory.store (f t.part) t.offset t.bytes)

/-- The store is to a part of the frame and does not leave it. -/
structure Store.Within (bv : BitVec 64) (t : Store) : Prop where
  covered : t.part.Covered bv
  le_size : t.offset + t.bytes.length ≤ t.part.size

section Contexts

variable {bv : BitVec 64} {c c' : Context} {place : Place} {w : Write} {part : Part} {i : ℕ}

end Contexts

/-! ## The frame and the context -/

/-- The parts are in the frame. -/
def Agrees (layout : Component → ℕ) (bv base : BitVec 64) (mem : BitVec 64 → UInt8)
    (f : Part → ℕ → UInt8) : Prop :=
  ∀ part : Part, part.Covered bv → ∀ i < part.size, window mem base (part.offset layout + i) =
    f part i

section Frame

variable {cpu : Cpu} {s : Statics} {base : BitVec 64} {mem : BitVec 64 → UInt8}
  {f : Part → ℕ → UInt8} {t : Store} {c : Context} {place : Place} {w : Write} {j : ℕ}

/-- The context after an access. -/
def Access.apply : Access → Context → Context
  | .read _, c => c
  | .write w, c => w.apply c

end Frame

end ContextSave

end Diversion
