import Diversion.RegisterPlaces
import Diversion.XSave

/-!
# Saving the context of a hook

The stub of a custom hook, `ContextSave`, calls `save_proc`, which calls `xsave`, `call_proc` and
`xrstor` (src/hook/custom/x86_64/context_save.rs). `xsave` builds a `Legacy` with its registers on
the stack, and `xrstor` restores them from there. All of it but `call_proc` is assembly, which is
modelled instruction by instruction. A jump or a return sets `rip`, and the code goes on only
where its caller has left the return address.

`call_proc` is the hook : accesses to register places through the pointers of `Context`. Apart
from them it may do what the calling convention lets it do.
-/

namespace Diversion

namespace ContextSave

open WordMemory

/-! ## Statics -/

/-- `xsave_proc` and `xsavec_proc`. -/
inductive Flavor where
  | xsave
  | xsavec
deriving DecidableEq, Repr

/-- The static variables of context_save.rs. -/
structure Statics where
  xstateBv : BitVec 64
  size : ℕ
  flavor : Flavor
  avxOffset : ℕ
  avx512Offset : ℕ

/-- `offset_of!(Legacy, xsave)`. -/
def offsetOfXsave : ℕ := 0x90

/-- The general registers, in the order of `Legacy::regs`. -/
inductive Gpr where
  | rax | rcx | rdx | rbx | rsp | rbp | rsi | rdi | r8 | r9 | r10 | r11 | r12 | r13 | r14 | r15
deriving DecidableEq, Repr

/-- A thread of the processor and the memory it works on. -/
structure Machine where
  gprs : Gpr → BitVec 64
  /-- RFLAGS as `pushfq` stores it, without RF and VM. -/
  rflags : BitVec 64
  rip : BitVec 64
  xstate : XState
  mem : BitVec 64 → UInt8

/-- The instructions of the assembly. A displacement is relative to the value of a register. -/
inductive Insn where
  | pushfq
  | popfq
  | push (src : Gpr)
  | pushMem (base : Gpr) (disp : ℕ)
  | pop (dst : Gpr)
  | mov (dst src : Gpr)
  | load (dst base : Gpr) (disp : ℕ)
  | store (base : Gpr) (disp : ℕ) (src : Gpr)
  | lea (dst base : Gpr) (disp : BitVec 64)
  | alu (op : Alu) (dst : Gpr) (src : BitVec 64)
  /-- `xor` of the lower half of a register with itself. -/
  | zero (dst : Gpr)
  /-- A `mov` to the lower half, which clears the upper one. -/
  | mov32 (dst : Gpr) (src : BitVec 32)
  /-- The callee is the code that follows. -/
  | call (ret : BitVec 64)
  | jmp (base : Gpr) (disp : ℕ)
  | ret
  | xsave (base : Gpr) (disp : ℕ)
  | xsavec (base : Gpr) (disp : ℕ)
  | xrstor (base : Gpr) (disp : ℕ)

/-- CF, PF, AF, ZF, SF and OF. -/
def statusMask : BitVec 64 := 0x8d5

/-- The flags that `popfq` loads in a program : these, TF, DF, NT, AC and ID. -/
def popMask : BitVec 64 := 0x244dd5

/-- The bits of the mask are replaced. -/
def blend (mask old new : BitVec 64) : BitVec 64 :=
  (new &&& mask) ||| (old &&& ~~~mask)

namespace Machine

variable (m : Machine)

/-- Write a general register. -/
def set (r : Gpr) (v : BitVec 64) : Machine :=
  { m with gprs := Function.update m.gprs r v }

/-- The address of a memory operand. -/
def addr (base : Gpr) (disp : ℕ) : BitVec 64 :=
  m.gprs base + .ofNat 64 disp

/-- Read 8 bytes. -/
def loadWord (a : BitVec 64) : BitVec 64 :=
  word (load m.mem a 8)

/-- Write 8 bytes. -/
def storeWord (a v : BitVec 64) : Machine :=
  { m with mem := store m.mem a (bytes v) }

/-- The stack pointer moves before the store. -/
def push (v : BitVec 64) : Machine :=
  (m.set .rsp (m.gprs .rsp - .ofNat 64 8)).storeWord (m.gprs .rsp - .ofNat 64 8) v

/-- The value that is popped, and the machine without it. -/
def pop : BitVec 64 × Machine :=
  (m.loadWord (m.gprs .rsp), m.set .rsp (m.gprs .rsp + .ofNat 64 8))

/-- EDX:EAX, as far as XCR0 allows. -/
def rfbm (cpu : Cpu) : BitVec 64 :=
  ((m.gprs .rdx).setWidth 32 ++ (m.gprs .rax).setWidth 32) &&& cpu.xcr0

/-- Write RFLAGS. -/
def setFlags (rflags : BitVec 64) : Machine :=
  { m with rflags }

/-- Go on at another address. -/
def setRip (rip : BitVec 64) : Machine :=
  { m with rip }

/-- The effect of an arithmetic instruction on the flags. -/
def setStatus (rflags : BitVec 64) : Machine :=
  m.setFlags (blend statusMask m.rflags rflags)

/-- `none` is a fault. -/
def exec (cpu : Cpu) : Insn → Option Machine
  | .pushfq => some (m.push m.rflags)
  | .popfq => some (m.pop.2.setFlags (blend popMask m.rflags m.pop.1))
  | .push src => some (m.push (m.gprs src))
  | .pushMem base disp => some (m.push (m.loadWord (m.addr base disp)))
  | .pop dst => some (m.pop.2.set dst m.pop.1)
  | .mov dst src => some (m.set dst (m.gprs src))
  | .load dst base disp => some (m.set dst (m.loadWord (m.addr base disp)))
  | .store base disp src => some (m.storeWord (m.addr base disp) (m.gprs src))
  | .lea dst base disp => some (m.set dst (m.gprs base + disp))
  | .alu op dst src =>
    some ((m.set dst (op.eval (m.gprs dst) src)).setStatus
      (cpu.flags op m.rflags (m.gprs dst) src))
  | .zero dst =>
    some ((m.set dst 0).setStatus (cpu.flags .xor m.rflags (m.gprs dst) (m.gprs dst)))
  | .mov32 dst src => some (m.set dst (src.setWidth 64))
  | .call ret => some (m.push ret)
  | .jmp base disp => some (m.setRip (m.loadWord (m.addr base disp)))
  | .ret => some (m.pop.2.setRip m.pop.1)
  | .xsave base disp =>
    (cpu.execXsave (m.rfbm cpu) m.xstate (m.addr base disp) m.mem).map fun mem => { m with mem }
  | .xsavec base disp =>
    (cpu.execXsavec (m.rfbm cpu) m.xstate (m.addr base disp) m.mem).map fun mem => { m with mem }
  | .xrstor base disp =>
    (cpu.execXrstor (m.rfbm cpu) m.xstate (m.addr base disp) m.mem).map fun xstate =>
      { m with xstate }

/-- Execute straight-line code. A fault ends it. -/
def run (cpu : Cpu) : List Insn → Machine → Option Machine
  | [], m => some m
  | i :: is, m => (m.exec cpu i).bind (run cpu is)

section Lemmas

variable {m} {r r' : Gpr} {a a' v : BitVec 64}

@[simp] theorem rip_set : (m.set r v).rip = m.rip := rfl

@[simp] theorem rip_storeWord : (m.storeWord a v).rip = m.rip := rfl

@[simp] theorem rip_setFlags : (m.setFlags v).rip = m.rip := rfl

@[simp] theorem xstate_setFlags : (m.setFlags v).xstate = m.xstate := rfl

@[simp] theorem xstate_setRip : (m.setRip v).xstate = m.xstate := rfl

@[simp] theorem loadWord_setRip : (m.setRip v).loadWord a = m.loadWord a := rfl

end Lemmas

end Machine

/-! ## The assembly -/

/-- Xrstor with flags, real rbp. -/
def restoreXState (s : Statics) : List Insn :=
  [.mov32 .rax (s.xstateBv.setWidth 32), .zero .rdx, .xrstor .rbx 0x70,
    .load .rax .rbx 0x10, .store .rbp 0 .rax]

/-- Restore gprs. -/
def loadGprs : List Insn :=
  [.load .rsi .rbx 0x18, .load .rdi .rbx 0x20, .load .r8 .rbx 0x28, .load .r9 .rbx 0x30,
    .load .r10 .rbx 0x38, .load .r11 .rbx 0x40, .load .r12 .rbx 0x48, .load .r13 .rbx 0x50,
    .load .r14 .rbx 0x58, .load .r15 .rbx 0x60]

/-- Restore flags, the rest of gprs, rbp and rsp, and return to the stub. -/
def popGprs : List Insn :=
  [.popfq, .pop .rax, .pop .rcx, .pop .rdx, .pop .rbx, .mov .rsp .rbp, .pop .rbp,
    .lea .rsp .rsp (.ofNat 64 0x10), .ret]

/-- The whole of `xrstor`. -/
def xrstor (s : Statics) : List Insn :=
  restoreXState s ++ loadGprs ++ popGprs

/-! ## The hook -/

/-- The pointers of `Context`. A null pointer is 0. -/
structure Pointers where
  legacy : BitVec 64
  avx : BitVec 64
  avx512 : BitVec 64

/-- What `call_proc` makes of its argument. -/
def Pointers.of (s : Statics) (legacy : BitVec 64) : Pointers where
  legacy := legacy
  avx := if s.avxOffset ≠ 0 then legacy + .ofNat 64 s.avxOffset else 0
  avx512 := if s.avx512Offset ≠ 0 then legacy + .ofNat 64 s.avx512Offset else 0

/-- The parts of the areas that places point into. -/
inductive Part where
  | eflags
  | regs
  | bank (c : Component)
deriving DecidableEq, Repr

/-- A store of some bytes into a part. -/
structure Store where
  part : Part
  offset : ℕ
  bytes : List UInt8

namespace Pointers

variable (p : Pointers)

/-- Where a part lies. A place of a missing area is at an offset from the null pointer. -/
def addr : Part → BitVec 64
  | .eflags => p.legacy
  | .regs => p.legacy + .ofNat 64 8
  | .bank .x87 => p.legacy + .ofNat 64 (offsetOfXsave + 32)
  | .bank .sse => p.legacy + .ofNat 64 (offsetOfXsave + 160)
  | .bank .avx => p.avx
  | .bank .opmask => p.avx512
  | .bank .zmmHi256 => p.avx512 + .ofNat 64 64
  | .bank .hi16Zmm => p.avx512 + .ofNat 64 576

/-- What the places read from. -/
def context (mem : BitVec 64 → UInt8) : Context where
  eflags := (word (load mem (p.addr .eflags) 4)).setWidth 32
  regs := window mem (p.addr .regs)
  x87Regs := window mem (p.addr (.bank .x87))
  xmmRegs := window mem (p.addr (.bank .sse))
  ymmHRegs := window mem (p.addr (.bank .avx))
  kRegs := window mem (p.addr (.bank .opmask))
  zmmHRegs := window mem (p.addr (.bank .zmmHi256))
  zmmRegs := window mem (p.addr (.bank .hi16Zmm))

end Pointers

/-- The stores of `Place::write`. -/
def stores (c : Context) (value : List UInt8) : Place → List Store
  | .gpr _ n => [⟨.regs, 8 * n, value⟩]
  | .flag n => [⟨.eflags, 0, (bytes (((Place.flag n).write c value).eflags.setWidth 64)).take 4⟩]
  | .st n => [⟨.bank .x87, 16 * n, value⟩]
  | .xmm n => [⟨.bank .sse, 16 * n, value⟩]
  | .ymm n => [⟨.bank .sse, 16 * n, value.take 16⟩, ⟨.bank .avx, 16 * n, value.drop 16⟩]
  | .zmm n =>
    if 16 ≤ n.val then [⟨.bank .hi16Zmm, 64 * (n - 16), value⟩]
    else
      [⟨.bank .sse, 16 * n, value.take 16⟩, ⟨.bank .avx, 16 * n, (value.drop 16).take 16⟩,
        ⟨.bank .zmmHi256, 32 * 1, value.drop 32⟩]
  | .kmask n => [⟨.bank .opmask, 8 * n, value⟩]

/-- What a hook does with a place. -/
inductive Access where
  | read (place : Place)
  | write (w : Write)

/-- The place that is read or written. -/
def Access.place : Access → Place
  | read place => place
  | write w => w.place

namespace Pointers

variable (p : Pointers) (mem : BitVec 64 → UInt8)

/-- The effect of one store. -/
def store (t : Store) : BitVec 64 → UInt8 :=
  WordMemory.store mem (p.addr t.part + .ofNat 64 t.offset) t.bytes

/-- The stores of a write in their order, with values from the memory before it. -/
def write (w : Write) : BitVec 64 → UInt8 :=
  (stores (p.context mem) w.value w.place).foldl p.store mem

/-- What the reads return. -/
def reads : (BitVec 64 → UInt8) → List Access → List (List UInt8)
  | _, [] => []
  | mem, .read place :: as => place.read (p.context mem) :: reads mem as
  | mem, .write w :: as => reads (p.write mem w) as

end Pointers

section Procs

variable (cpu : Cpu) (sites : CallSites) (s : Statics)

end Procs

end ContextSave

end Diversion
