import Diversion.RegisterPlaces

/-!
# Two ways to write a general register

`Gpr<T, N>` is written with `Place::write` and assigned to through `DerefMut`
(src/hook/custom/x86_64/register.rs). The processor clears the upper half of a register in a
32-bit write and keeps the upper bits in a narrower one. `deref_mut` emulates it; `write` stores
the bytes of the value only, which makes no difference exactly if the upper half is zero
already (`writesAlike_iff`).
-/

namespace Diversion

open ByteMemory

/-- A value for a general register, of a type that is as wide as a register or a part of it
that has a name. -/
structure GprWrite where
  n : Fin 16
  width : Fin 9
  value : List UInt8
  length_value : value.length = width
  width_mem : width.val ∈ [1, 2, 4, 8]

namespace GprWrite

/-- `Place::write`. -/
def write (w : GprWrite) (c : Context) : Context :=
  (Place.gpr w.width w.n).write c w.value

/-- `deref_mut` of a type with `width` bytes. -/
def derefMut (width : ℕ) (n : Fin 16) (c : Context) : Context :=
  if width = 4 then { c with regs := store c.regs (8 * n + 4) [0, 0, 0, 0] } else c

/-- An assignment through `DerefMut`. -/
def assign (w : GprWrite) (c : Context) : Context :=
  (Place.gpr w.width w.n).write (derefMut w.width w.n c) w.value

/-- What a write leaves in a 64-bit register. -/
def extend (old value : List UInt8) : List UInt8 :=
  if value.length = 4 then value ++ [0, 0, 0, 0] else overwrite old value

/-- A register write of the processor. -/
def execute (w : GprWrite) (c : Context) : Context :=
  { c with regs := store c.regs (8 * w.n) (extend (load c.regs (8 * w.n) 8) w.value) }

/-- The context after the two ways to write is the one the processor leaves, in which only the
register has changed. -/
structure WritesAlike (w : GprWrite) (c : Context) : Prop where
  same : w.write c = w.assign c
  executed : w.assign c = w.execute c
  others : ∀ place : Place, place.register ≠ .gpr w.n →
    place.read (w.write c) = place.read c ∧ place.read (w.assign c) = place.read c

/-- The upper half of the register. -/
def upperHalf (w : GprWrite) (c : Context) : List UInt8 :=
  load c.regs (8 * w.n + 4) 4

variable (w : GprWrite) (c : Context)

theorem length_value_le : w.value.length ≤ 8 :=
  w.length_value.le.trans (Nat.le_of_lt_succ w.width.isLt)

theorem regs_write : (w.write c).regs = store c.regs (8 * w.n) w.value :=
  rfl

/-- What is stored in a 32-bit write, the zeros included. -/
theorem regs_execute_of_eq (h : w.value.length = 4) :
    (w.execute c).regs = store (store c.regs (8 * w.n + 4) [0, 0, 0, 0]) (8 * w.n) w.value := by
  simp only [execute, extend, if_pos h]
  rw [store_append, h]

/-- An assignment does what the processor does. -/
theorem assign_eq_execute : w.assign c = w.execute c := by
  have hlen := w.length_value
  by_cases h : w.width.val = 4
  · have hregs := w.regs_execute_of_eq c (hlen.trans h)
    simp only [assign, derefMut, if_pos h, Place.write]
    rw [← hregs]
    rfl
  · simp only [assign, derefMut, if_neg h, execute, extend, if_neg (hlen ▸ h), Place.write,
      store_overwrite_load w.length_value_le]

theorem read_of_ne {place : Place} (h : place.register ≠ .gpr w.n) :
    place.read (w.write c) = place.read c ∧ place.read (w.assign c) = place.read c := by
  have hwrite : ∀ c, place.read (w.write c) = place.read c := fun c => by
    rw [write, Place.read_write_gpr w.length_value_le, if_neg h]
  refine ⟨hwrite c, (hwrite _).trans ?_⟩
  unfold derefMut
  split_ifs
  · cases place with
    | gpr width k =>
      have hk : k.val ≠ w.n.val := fun heq => h (by rw [Place.register, Fin.ext heq])
      have := width.isLt
      refine load_store_of_disjoint ?_
      rw [show [(0 : UInt8), 0, 0, 0].length = 4 from rfl]
      omega
    | _ => rfl
  · rfl

/-- The two ways to write a register agree, with each other and with the processor, unless the
write is one of 32 bits and the upper half of the register is not zero. -/
theorem writesAlike_iff :
    WritesAlike w c ↔ (w.value.length = 4 → w.upperHalf c = [0, 0, 0, 0]) := by
  constructor
  · intro h hlen
    have hregs := congrArg Context.regs (h.same.trans h.executed)
    rw [regs_write, w.regs_execute_of_eq c hlen] at hregs
    have hupper := congrArg (fun regs => load regs (8 * w.n + 4) 4) hregs
    rw [load_store_of_disjoint (Or.inr (by omega)), load_store_of_disjoint (Or.inr (by omega)),
      load_store_self, overwrite_of_length_eq (by simp)] at hupper
    exact hupper
  · intro h
    have hexecute := w.assign_eq_execute c
    refine ⟨?_, hexecute, fun place hplace => w.read_of_ne c hplace⟩
    by_cases hlen : w.width.val = 4
    · -- the zeros are there already
      have hzero : store c.regs (8 * w.n + 4) [0, 0, 0, 0] = c.regs := by
        rw [← h (w.length_value.trans hlen)]
        exact store_load _ _ _
      simp only [write, assign, derefMut, if_pos hlen, hzero]
    · simp only [write, assign, derefMut, if_neg hlen]

/-- A `u32` in RAX. -/
def writeEax : GprWrite where
  n := 0
  width := 4
  value := [1, 2, 3, 4]
  length_value := rfl
  width_mem := by decide

/-- The upper half of RAX stays, where an assignment clears it. -/
theorem not_writesAlike_writeEax :
    ¬WritesAlike writeEax { Context.zeroed with regs := fun _ => 0xff } := by
  intro h
  have hregs := congrArg (fun c => c.regs 4) h.same
  revert hregs
  decide

end GprWrite

end Diversion
