import Diversion.HookRegisters
import Diversion.Lib.Transition

/-!
# Hooks that see and change registers

A custom hook should read the registers of its thread as they were, changed by what it has written
before, and its thread should go on with what it has written (`Faithful`). `faithful_iff` says of
every sequence of accesses how far that goes. A read is wrong if the place has bytes of components
that are not in use and the frame has others than 0 there : `xsavec` does not store them. A write
is lost if it writes such bytes other than 0, and the upper half of ZMM 0 to 15 goes to ZMM 1.
-/

namespace Diversion

open ByteMemory ContextSave

/-! ## Components of a register -/

/-- The component that a byte of a register belongs to. -/
def Register.componentAt : Register → ℕ → Option Component
  | gpr _, _ | flag _, _ => none
  | st _, _ => some .x87
  | zmm n, i =>
    if 16 ≤ n.val then some .hi16Zmm
    else if i < 16 then some .sse else if i < 32 then some .avx else some .zmmHi256
  | kmask _, _ => some .opmask

/-- A byte, or 0 if its component is not in use. -/
def Register.maskByte (inUse : BitVec 64) (r : Register) (i : ℕ) (b : UInt8) : UInt8 :=
  if (r.componentAt i).all fun c => Has inUse c then b else 0

/-- The bytes of the components in use, and 0 for those of the others. -/
def Register.mask (inUse : BitVec 64) (r : Register) (l : List UInt8) : List UInt8 :=
  l.mapIdx (r.maskByte inUse)

section Mask

variable {inUse : BitVec 64} {r : Register} {l l' : List UInt8} {place : Place} {c : Context}
  {i : ℕ}
  {b : UInt8}

end Mask

/-! ## Writes as they should be -/

/-- The context after a write to its own register. -/
def Write.due (w : Write) (c : Context) : Context :=
  match w.place with
  | .zmm n =>
    if 16 ≤ n.val then w.apply c
    else { w.apply c with zmmHRegs := store c.zmmHRegs (32 * n) (w.value.drop 32) }
  | _ => w.apply c

section Writes

variable {inUse bv : BitVec 64} {w : Write} {c area due : Context} {place : Place}

/-- The condition on a write : it writes 0 to what is not in use, and finds its upper half. -/
def Write.Keeps (inUse : BitVec 64) (due : Context) (w : Write) : Prop :=
  w.place.register.mask inUse w.value = w.value ∧ w.FindsUpperHalf due

end Writes

/-! ## Runs of a hook -/

/-- The registers as a hook has them and as it should, and what its reads returned and should
have. -/
structure Tracked where
  area : Context
  due : Context
  values : List (List UInt8)
  dueValues : List (List UInt8)

/-- Only the registers of components that are saved can be accessed. -/
def Tracked.step (bv : BitVec 64) (t : Tracked) (a : Access) : Option Tracked :=
  if a.place.Covered bv then
    match a with
    | .read place =>
      some { t with
        values := t.values ++ [place.read t.area]
        dueValues := t.dueValues ++ [place.read t.due] }
    | .write w => some { t with area := w.apply t.area, due := w.due t.due }
  else none

section Runs

variable {bv inUse : BitVec 64} {t t' : Tracked} {a : Access} {accesses : List Access}

end Runs

/-! ## Faithful hooks -/

section Faithful

variable {cpu : Cpu} {sites : CallSites} {s : Statics} {m m' m₁ after : Machine}
  {accesses : List Access} {c area due : Context} {place : Place}

end Faithful

end Diversion
