import Diversion.Lib.ByteMemory
import Mathlib.Data.Nat.Digits.Defs
import Mathlib.Data.BitVec

/-!
# Memory with 64-bit addresses

A memory is a function of the address, and addresses wrap around. `window` is the memory from an
address on, as a memory of `ByteMemory`. All lemmas are about addresses relative to one base :
as long as nothing reaches around, a store is seen in a window where their offsets say so
(`window_store`), and a block that was stored is loaded (`load_store_self`) unless another store
met it (`load_store_of_disjoint`). `bytes` and `word` are the bytes of a 64-bit word, the lowest
first, and back.
-/

namespace WordMemory

variable {α : Type*} {mem : BitVec 64 → α} {base a : BitVec 64} {l : List α} {i j k n : ℕ}

/-- The memory from `a` on, by offset. Addresses wrap. -/
def window (mem : BitVec 64 → α) (a : BitVec 64) : ℕ → α := fun i => mem (a + .ofNat 64 i)

/-- The `n` bytes from `a` on. -/
def load (mem : BitVec 64 → α) (a : BitVec 64) (n : ℕ) : List α :=
  ByteMemory.load (window mem a) 0 n

/-- Write a list from `a` on. The distance to `a` wraps as addresses do. -/
def store (mem : BitVec 64 → α) (a : BitVec 64) (l : List α) : BitVec 64 → α := fun x =>
  l[(x - a).toNat]?.getD (mem x)

/-- A load has its length. -/
@[simp] theorem length_load : (load mem a n).length = n :=
  ByteMemory.length_load

/-- A byte of a load. -/
theorem getElem?_load : (load mem a n)[i]? = if i < n then some (window mem a i) else none := by
  rw [load, ByteMemory.getElem?_load, Nat.zero_add]

/-- A window in a window. -/
theorem window_add (mem : BitVec 64 → α) (a : BitVec 64) (k i : ℕ) :
    window mem (a + .ofNat 64 k) i = window mem a (k + i) := by
  rw [window, window, BitVec.add_assoc, ← BitVec.ofNat_add]

/-- Loads agree where their bytes do. -/
theorem load_eq_iff {m : BitVec 64 → α} :
    load m a n = load mem base n ↔ ∀ i < n, window m a i = window mem base i := by
  constructor
  · intro h i hi
    have hget : (load m a n)[i]? = (load mem base n)[i]? := by rw [h]
    rw [getElem?_load, getElem?_load, if_pos hi, if_pos hi] at hget
    exact Option.some.inj hget
  · intro h
    refine List.ext_getElem? fun i => ?_
    rw [getElem?_load, getElem?_load]
    split_ifs with hi
    · rw [h i hi]
    · rfl

/-- The offset of an address from that of a store. -/
theorem toNat_sub_of_le (hk : k ≤ i) (hi : i < 2 ^ 64) :
    (base + .ofNat 64 i - (base + .ofNat 64 k)).toNat = i - k := by
  have hb := base.isLt
  simp only [BitVec.toNat_sub, BitVec.toNat_add, BitVec.toNat_ofNat]
  omega

/-- The distance to an address above wraps. -/
theorem toNat_sub_of_lt (hik : i < k) (hk : k < 2 ^ 64) :
    (base + .ofNat 64 i - (base + .ofNat 64 k)).toNat = 2 ^ 64 + i - k := by
  have hb := base.isLt
  simp only [BitVec.toNat_sub, BitVec.toNat_add, BitVec.toNat_ofNat]
  omega

/-- Within one turn of the address space a store is the store of a memory by offset. -/
theorem window_store (hk : k + l.length ≤ 2 ^ 64) (hi : i < 2 ^ 64) :
    window (store mem (base + .ofNat 64 k) l) base i =
      ByteMemory.store (window mem base) k l i := by
  rw [window, store, ByteMemory.store]
  split_ifs with hki
  · rw [toNat_sub_of_le hki hi]
    rfl
  · cases l with
    | nil => rfl
    | cons x l =>
      rw [List.length_cons] at hk
      rw [toNat_sub_of_lt (by omega) (by omega), List.getElem?_eq_none]
      · rfl
      · rw [List.length_cons]
        omega

/-- A store leaves what lies beside it. -/
theorem load_store_of_disjoint (hk : k + l.length ≤ 2 ^ 64) (hj : j + n ≤ 2 ^ 64)
    (h : k + l.length ≤ j ∨ j + n ≤ k) :
    load (store mem (base + .ofNat 64 k) l) (base + .ofNat 64 j) n =
      load mem (base + .ofNat 64 j) n := by
  refine load_eq_iff.2 fun i hi => ?_
  rw [window_add, window_add, window_store hk (by omega), ByteMemory.store_of_outside (by omega)]

/-- What was stored is loaded. -/
theorem load_store_self (hn : l.length = n) (hl : n ≤ 2 ^ 64) : load (store mem a l) a n = l := by
  refine List.ext_getElem? fun i => ?_
  rw [getElem?_load]
  split_ifs with hi
  · have hself : window (store mem a l) a i = l[i]?.getD (window mem a i) := by
      have hstore : window (store mem (a + .ofNat 64 0) l) a i =
          ByteMemory.store (window mem a) 0 l i := window_store (by omega) (by omega)
      rw [show a + BitVec.ofNat 64 0 = a by simp] at hstore
      rw [hstore, ByteMemory.store, if_pos (Nat.zero_le i), Nat.sub_zero]
    rw [hself, List.getElem?_eq_getElem (by omega), Option.getD_some]
  · rw [List.getElem?_eq_none (by omega)]

/-! ## Words -/

/-- The 8 bytes of a word, the lowest first. -/
def bytes (v : BitVec 64) : List UInt8 :=
  (List.range 8).map fun i => UInt8.ofNat (v.toNat / 256 ^ i)

/-- The word of a list of bytes, the lowest first. -/
def word (l : List UInt8) : BitVec 64 :=
  .ofNat 64 (Nat.ofDigits 256 (l.map UInt8.toNat))

/-- A word has 8 bytes. -/
@[simp] theorem length_bytes (v : BitVec 64) : (bytes v).length = 8 := by
  simp [bytes]

end WordMemory
