import Diversion.Lib.WordMemory

/-!
# The XSAVE feature set

The processor saves its vector registers by components. `xsave` stores every requested component
at its fixed place, `xsavec` only those in use, without gaps, and both leave in the header which
ones are in use. `xrstor` loads the requested components of which the header says so, and puts the
others into their initial configuration, whatever the area holds for them. That configuration is 0
in all registers of a component.

The control words of the x87 unit are part of its component, and MXCSR of that of the XMM registers.
MXCSR does not count for what is in use, so `xsavec` and the standard format of `xrstor` have rules
of their own for it. No place points to these words. The addresses of the last x87 instruction and
of its operand are left out.
-/

namespace Diversion

open WordMemory

/-- The components of the state that the code saves, after their bits in XCR0. -/
inductive Component where
  | x87
  | sse
  | avx
  | opmask
  | zmmHi256
  | hi16Zmm
deriving DecidableEq, Repr

namespace Component

/-- The bit of the component in XCR0 and in the header. -/
def bit : Component → ℕ
  | x87 => 0
  | sse => 1
  | avx => 2
  | opmask => 5
  | zmmHi256 => 6
  | hi16Zmm => 7

/-- The number of bytes of the registers. -/
def size : Component → ℕ
  | x87 => 128
  | sse => 256
  | avx => 256
  | opmask => 64
  | zmmHi256 => 512
  | hi16Zmm => 1024

/-- In the order of their bits. -/
def all : List Component :=
  [x87, sse, avx, opmask, zmmHi256, hi16Zmm]

/-- No component is empty. -/
theorem size_pos (c : Component) : 0 < c.size := by
  cases c <;> decide

end Component

/-- The bitmap has the bit of the component. -/
def Has (bv : BitVec 64) (c : Component) : Prop :=
  bv.getLsbD c.bit = true

instance (bv : BitVec 64) (c : Component) : Decidable (Has bv c) :=
  inferInstanceAs (Decidable (_ = _))

/-- A component of both. -/
@[simp] theorem has_and {a b : BitVec 64} {c : Component} :
    Has (a &&& b) c ↔ Has a c ∧ Has b c := by
  simp [Has]

/-- A component of one of two. -/
@[simp] theorem has_or {a b : BitVec 64} {c : Component} : Has (a ||| b) c ↔ Has a c ∨ Has b c := by
  simp [Has]

/-- A component that is missing. -/
@[simp] theorem has_not {a : BitVec 64} {c : Component} : Has (~~~a) c ↔ ¬Has a c := by
  have hbit : c.bit < 64 := by
    cases c <;> decide
  simp [Has, hbit]

/-- The control word in its initial configuration, with all else of its 8 bytes 0. -/
def initialX87Control : BitVec 64 := 0x37f

/-- MXCSR in its initial configuration. -/
def initialMxcsr : BitVec 32 := 0x1f80

/-- The state of the components. -/
structure XState where
  /-- The registers, in the bytes that they have in memory. -/
  regs : Component → ℕ → UInt8
  /-- FCW, FSW, FTW and FOP, as they are in memory. -/
  x87Control : BitVec 64
  mxcsr : BitVec 32
  /-- XINUSE. -/
  inUse : BitVec 64
  initial : ∀ c, ¬Has inUse c → ∀ i < c.size, regs c i = 0
  initialControl : ¬Has inUse .x87 → x87Control = initialX87Control

/-- What `xsavec` takes to be in use : SSE also when MXCSR is not as initially. -/
def XState.live (x : XState) : BitVec 64 :=
  if x.mxcsr = initialMxcsr then x.inUse else x.inUse ||| .ofNat 64 (2 ^ Component.sse.bit)

/-- The arithmetic instructions. -/
inductive Alu where
  | and
  | sub
  | xor
deriving DecidableEq, Repr

/-- The result of an instruction with a source and a destination. -/
def Alu.eval : Alu → BitVec 64 → BitVec 64 → BitVec 64
  | and, dst, src => dst &&& src
  | sub, dst, src => dst - src
  | xor, dst, src => dst ^^^ src

/-- What the processor says of itself, and what its manual says of that. -/
structure Cpu where
  xcr0 : BitVec 64
  /-- `is_x86_feature_detected!("xsavec")`. -/
  xsavec : Bool
  /-- EBX of leaf 0DH : where the component is in the standard format. -/
  offset : Component → ℕ
  /-- EAX of leaf 0DH, sub-leaf 2. -/
  avxSize : ℕ
  /-- The bits of MXCSR that are not reserved. -/
  mxcsrMask : BitVec 32
  /-- The status flags after an instruction, from the flags before it and its operands. -/
  flags : Alu → BitVec 64 → BitVec 64 → BitVec 64 → BitVec 64
  x87 : Has xcr0 .x87
  sse_of_avx : Has xcr0 .avx → Has xcr0 .sse
  avx_of_opmask : Has xcr0 .opmask → Has xcr0 .avx
  zmmHi256_iff : Has xcr0 .zmmHi256 ↔ Has xcr0 .opmask
  hi16Zmm_iff : Has xcr0 .hi16Zmm ↔ Has xcr0 .opmask
  avxSize_eq : avxSize = 256
  le_offset : 576 ≤ offset .avx
  offset_lt : offset .avx < 2 ^ 31
  dvd_offset : 64 ∣ offset .avx

/-! ## Formats -/

/-- The standard format. -/
def Cpu.standard (cpu : Cpu) : Component → ℕ
  | .x87 => 32
  | .sse => 160
  | c => cpu.offset c

/-- The compacted format : the components behind the header follow each other. -/
def compacted (bv : BitVec 64) : Component → ℕ
  | .x87 => 32
  | .sse => 160
  | c => 576 + ((Component.all.filter fun d => 2 ≤ d.bit ∧ d.bit < c.bit ∧ Has bv d).map
      Component.size).sum

/-- Where the components of `bv` are in an area of `size` bytes : apart from each other, from the
control words and from the header. -/
structure Fits (layout : Component → ℕ) (bv : BitVec 64) (size : ℕ) : Prop where
  x87 : layout .x87 = 32
  sse : layout .sse = 160
  behind_header : ∀ c, Has bv c → 2 ≤ c.bit → 576 ≤ layout c
  le_size : ∀ c, Has bv c → layout c + c.size ≤ size
  apart : ∀ c d, Has bv c → Has bv d → c.bit < d.bit → layout c + c.size ≤ layout d

/-! ## The instructions -/

section Instructions

variable (layout : Component → ℕ) (rfbm stored : BitVec 64) (x : XState) (area : BitVec 64)
  (mem : BitVec 64 → UInt8)

/-- The registers of the component are stored in an area, if they are to. -/
def saveComponent (mem : BitVec 64 → UInt8) (c : Component) : BitVec 64 → UInt8 :=
  if Has stored c then
    store mem (area + .ofNat 64 (layout c)) (ByteMemory.load (x.regs c) 0 c.size)
  else mem

/-- Save each of the components that are stored. -/
def saveComponents : BitVec 64 → UInt8 :=
  Component.all.foldl (saveComponent layout stored x area) mem

/-- The control words are stored at the start of the area, each if it is to. -/
def Cpu.saveControl (cpu : Cpu) (x87 mxcsr : Bool) : BitVec 64 → UInt8 :=
  let mem := if x87 then store mem (area + .ofNat 64 0) (bytes x.x87Control) else mem
  if mxcsr then store mem (area + .ofNat 64 24) (bytes (cpu.mxcsrMask ++ x.mxcsr)) else mem

/-- The area is aligned to 64 bytes. -/
def IsAligned : Prop :=
  area.toNat % 64 = 0
deriving Decidable

/-- The bit of XCOMP_BV for the compacted format. -/
def isCompacted : BitVec 64 :=
  .ofNat 64 (2 ^ 63)

namespace Cpu

variable (cpu : Cpu)

/-- `none` is a fault. -/
def execXsave : Option (BitVec 64 → UInt8) :=
  if IsAligned area then
    let mem := cpu.saveControl x area mem (Has rfbm .x87) (Has rfbm .sse ∨ Has rfbm .avx)
    let mem := saveComponents cpu.standard rfbm x area mem
    let xstateBv := word (load mem (area + .ofNat 64 512) 8)
    some (store mem (area + .ofNat 64 512)
      (bytes ((xstateBv &&& ~~~rfbm) ||| (x.inUse &&& rfbm))))
  else none

/-- XSAVEC : the compacted format, with the components that are in use. -/
def execXsavec : Option (BitVec 64 → UInt8) :=
  if IsAligned area then
    let saved := x.live &&& rfbm
    let mem := cpu.saveControl x area mem (Has saved .x87) (Has saved .sse)
    let mem := saveComponents (compacted rfbm) saved x area mem
    let mem := store mem (area + .ofNat 64 512) (bytes saved)
    some (store mem (area + .ofNat 64 520) (bytes (rfbm ||| isCompacted)))
  else none

/-- The header is not one to fault on. -/
def AcceptsHeader (xstateBv xcompBv : BitVec 64) : Prop :=
  if xcompBv.getLsbD 63 then
    xcompBv &&& ~~~isCompacted &&& ~~~cpu.xcr0 = 0 ∧ xstateBv &&& ~~~xcompBv = 0 ∧
      load mem (area + .ofNat 64 528) 48 = List.replicate 48 0
  else xcompBv = 0 ∧ xstateBv &&& ~~~cpu.xcr0 = 0 ∧
    load mem (area + .ofNat 64 528) 8 = List.replicate 8 0

instance (xstateBv xcompBv : BitVec 64) : Decidable (cpu.AcceptsHeader area mem xstateBv xcompBv) :=
  inferInstanceAs (Decidable (ite _ _ _))

end Cpu

/-- The registers after an `xrstor` that finds this header. -/
def restoredRegs (xstateBv : BitVec 64) (c : Component) (i : ℕ) : UInt8 :=
  if Has rfbm c then
    if Has xstateBv c then window mem (area + .ofNat 64 (layout c)) i else 0
  else x.regs c i

variable {rfbm x} in
/-- A component that is not in use afterwards is set to zero. -/
theorem restoredRegs_initial {xstateBv : BitVec 64} (c : Component)
    (hc : ¬Has ((x.inUse &&& ~~~rfbm) ||| (xstateBv &&& rfbm)) c) (i : ℕ) (hi : i < c.size) :
    restoredRegs layout rfbm x area mem xstateBv c i = 0 := by
  simp only [has_or, has_and, has_not, not_or, not_and, not_not] at hc
  unfold restoredRegs
  split_ifs with hrfbm hbv
  · exact absurd hrfbm (hc.2 hbv)
  · rfl
  · exact x.initial c (fun h => hrfbm (hc.1 h)) i hi

/-- The x87 control words after it. -/
def restoredX87Control (xstateBv : BitVec 64) : BitVec 64 :=
  if Has rfbm .x87 then
    if Has xstateBv .x87 then word (load mem (area + .ofNat 64 0) 8) else initialX87Control
  else x.x87Control

/-- What MXCSR is to be set to. The standard format always has a value for it. -/
def newMxcsr (xstateBv xcompBv : BitVec 64) : Option (BitVec 32) :=
  let loaded := (word (load mem (area + .ofNat 64 24) 8)).setWidth 32
  if xcompBv.getLsbD 63 then
    if Has rfbm .sse then some (if Has xstateBv .sse then loaded else initialMxcsr) else none
  else if Has rfbm .sse ∨ Has rfbm .avx then some loaded else none

variable {rfbm x} in
/-- So is the control state of the x87 unit, to its initial values. -/
theorem restoredX87Control_initial {xstateBv : BitVec 64}
    (h : ¬Has ((x.inUse &&& ~~~rfbm) ||| (xstateBv &&& rfbm)) .x87) :
    restoredX87Control rfbm x area mem xstateBv = initialX87Control := by
  simp only [has_or, has_and, has_not, not_or, not_and, not_not] at h
  unfold restoredX87Control
  split_ifs with hrfbm hbv
  · exact absurd hrfbm (h.2 hbv)
  · rfl
  · exact x.initialControl fun hinUse => hrfbm (h.1 hinUse)

/-- The state after an `xrstor` that finds this header and sets MXCSR. -/
def restoreComponents (xstateBv : BitVec 64) (mxcsr : Option (BitVec 32)) : XState where
  regs := restoredRegs layout rfbm x area mem xstateBv
  x87Control := restoredX87Control rfbm x area mem xstateBv
  mxcsr := mxcsr.getD x.mxcsr
  inUse := (x.inUse &&& ~~~rfbm) ||| (xstateBv &&& rfbm)
  initial := restoredRegs_initial layout area mem
  initialControl := restoredX87Control_initial area mem

/-- `none` is a fault : also when a reserved bit of MXCSR would be set. -/
def Cpu.execXrstor (cpu : Cpu) : Option XState :=
  let xstateBv := word (load mem (area + .ofNat 64 512) 8)
  let xcompBv := word (load mem (area + .ofNat 64 520) 8)
  let mxcsr := newMxcsr rfbm area mem xstateBv xcompBv
  if IsAligned area ∧ cpu.AcceptsHeader area mem xstateBv xcompBv ∧
      mxcsr.all fun v => v &&& ~~~cpu.mxcsrMask = 0 then
    let layout := if xcompBv.getLsbD 63 then compacted xcompBv else cpu.standard
    some (restoreComponents layout rfbm x area mem xstateBv mxcsr)
  else none

end Instructions

/-! ## What is stored -/

section Stored

variable {layout : Component → ℕ} {bv stored : BitVec 64} {size k i : ℕ} {x : XState}
  {base : BitVec 64} {mem : BitVec 64 → UInt8} {c d : Component}

/-- Two components do not overlap. -/
theorem Fits.disjoint (h : Fits layout bv size) (hc : Has bv c) (hd : Has bv d) (hne : c ≠ d) :
    layout c + c.size ≤ layout d ∨ layout d + d.size ≤ layout c := by
  have hbit : c.bit ≠ d.bit := by
    revert hne
    cases c <;> cases d <;> decide
  rcases Nat.lt_or_gt_of_ne hbit with hlt | hlt
  · exact Or.inl (h.apart c d hc hd hlt)
  · exact Or.inr (h.apart d c hd hc hlt)

/-- The control words of the components that are stored, in an area. -/
structure HasControl (x : XState) (stored area : BitVec 64) (mem : BitVec 64 → UInt8) : Prop where
  x87Control : Has stored .x87 → word (load mem (area + .ofNat 64 0) 8) = x.x87Control
  mxcsr : Has stored .sse → (word (load mem (area + .ofNat 64 24) 8)).setWidth 32 = x.mxcsr

/-- It depends on these bytes only. -/
theorem HasControl.congr {area : BitVec 64} {mem' : BitVec 64 → UInt8}
    (h : HasControl x stored area mem) (heq : ∀ i < 32, window mem' area i = window mem area i) :
    HasControl x stored area mem' := by
  have hload : ∀ j, j ≤ 24 → load mem' (area + .ofNat 64 j) 8 = load mem (area + .ofNat 64 j) 8 :=
    fun j hj => load_eq_iff.2 fun i hi => by rw [window_add, window_add, heq _ (by omega)]
  exact ⟨fun hx87 => by rw [hload 0 (by decide), h.x87Control hx87],
    fun hsse => by rw [hload 24 le_rfl, h.mxcsr hsse]⟩

/-- The bit of the format is no component. -/
@[simp] theorem not_has_isCompacted : ¬Has isCompacted c := by
  cases c <;> decide

/-- The header of an area as `xsave` and `xsavec` leave it. -/
structure HasHeader (area xstateBv xcompBv : BitVec 64) (mem : BitVec 64 → UInt8) : Prop where
  xstateBv : word (load mem (area + .ofNat 64 512) 8) = xstateBv
  xcompBv : word (load mem (area + .ofNat 64 520) 8) = xcompBv
  reserved : load mem (area + .ofNat 64 528) 48 = List.replicate 48 0

/-- The header depends on its 64 bytes. -/
theorem HasHeader.congr {area xstateBv xcompBv : BitVec 64} {mem' : BitVec 64 → UInt8}
    (h : HasHeader area xstateBv xcompBv mem)
    (heq : ∀ i < 64, window mem' area (512 + i) = window mem area (512 + i)) :
    HasHeader area xstateBv xcompBv mem' := by
  have hload : ∀ j n, 512 ≤ j → j + n ≤ 576 →
      load mem' (area + .ofNat 64 j) n = load mem (area + .ofNat 64 j) n := by
    intro j n hj hn
    refine load_eq_iff.2 fun i hi => ?_
    have hindex : j + i = 512 + (j - 512 + i) := by omega
    rw [window_add, window_add, hindex, heq _ (by omega)]
  exact ⟨by rw [hload 512 8 le_rfl (by decide), h.xstateBv],
    by rw [hload 520 8 (by decide) (by decide), h.xcompBv],
    by rw [hload 528 48 (by decide) (by decide), h.reserved]⟩

end Stored

end Diversion
