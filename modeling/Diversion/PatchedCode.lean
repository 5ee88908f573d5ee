import Diversion.DetourRace
import Diversion.DisasmWindow
import Diversion.ShortJump
import Mathlib.Computability.StateTransition

/-!
# The code after an installation

A `Processor` decodes the bytes at the instruction pointer of a thread and executes what it
decoded. What an instruction does to registers and data is a parameter; of the processor it is
assumed only that an instruction is decoded from its own bytes and that the two jumps the
installer writes jump (`Processor.Lawful`).

`JmpChain.memory` is the code after `install` has written the trampoline, the thunk and the jump
(src/installer/arch/x86_64.rs), with the pointer that the thunk holds : the trampoline's at first,
then what `update_thunk` has put there. A thread that arrives at the target goes on at this
pointer, with everything else as it was (`Detoured.reaches_ptr`).
-/

namespace Diversion

open ByteMemory StateTransition

/-! ## Processors -/

/-- Where a thread goes on, and the rest of what an instruction can read and change. -/
structure ThreadState (σ : Type*) where
  ip : ℕ
  rest : σ

/-- A processor. An instruction may read the code, and ends with an instruction pointer. -/
structure Processor (σ : Type*) where
  decode : Decode
  exec : CodeMemory → Instruction → σ → Option (ℕ × σ)

namespace Processor

variable {σ : Type*} (P : Processor σ) (memory : CodeMemory)

/-- The instruction at an address. -/
def insnAt (ip : ℕ) : Instruction :=
  P.decode ip (load memory ip maxInsnLen)

/-- One instruction of the thread, read from the memory it runs in. -/
def step (t : ThreadState σ) : Option (ThreadState σ) :=
  (P.exec memory (P.insnAt memory t.ip) t.rest).map fun (ip, rest) => ⟨ip, rest⟩

variable {P memory}

/-- The fields of a step. -/
theorem step_eq_some {s s' : ThreadState σ} : P.step memory s = some s' ↔
    P.exec memory (P.insnAt memory s.ip) s.rest = some (s'.ip, s'.rest) := by
  rw [step, Option.map_eq_some_iff]
  constructor
  · rintro ⟨⟨ip, rest⟩, hexec, rfl⟩
    exact hexec
  · exact fun hexec => ⟨_, hexec, rfl⟩

end Processor

/-! ## The bytes of a thunk -/

/-- `n` in `k` little-endian bytes. -/
def leBytes (k n : ℕ) : List UInt8 :=
  (List.range k).map fun i => .ofNat (n / 256 ^ i)

/-- A field has its width. -/
@[simp] theorem length_leBytes (k n : ℕ) : (leBytes k n).length = k := by
  simp [leBytes]

/-- A field holds its value up to the width. -/
theorem leValue_leBytes (k n : ℕ) : leValue (leBytes k n) = n % 256 ^ k := by
  induction k generalizing n with
  | zero => rw [leBytes, List.range_zero, List.map_nil, leValue_nil, Nat.pow_zero, Nat.mod_one]
  | succ k ih =>
    have htail : leBytes (k + 1) n = .ofNat n :: leBytes k (n / 256) := by
      rw [leBytes, List.range_succ_eq_map, List.map_cons, List.map_map, Nat.pow_zero, Nat.div_one]
      refine congrArg _ (List.map_congr_left fun i _ => ?_)
      rw [Function.comp_apply, Nat.pow_succ', Nat.div_div_eq_div_mul]
    rw [htail, leValue_cons, ih, UInt8.toNat_ofNat', show 256 ^ (k + 1) = 256 * 256 ^ k from
      Nat.pow_succ', Nat.mod_mul]

/-- `JmpAbs`, `jmp [rip + disp]` with which a thunk begins. -/
structure JmpAbs where
  disp : ℤ

namespace JmpAbs

/-- `JmpAbs::LEN`. -/
def len : ℕ :=
  6

/-- `JmpAbs::new`, a jump through the pointer at a displacement. -/
def asBytes (jmpAbs : JmpAbs) : List UInt8 :=
  0xff :: 0x25 :: i32ToLeBytes jmpAbs.disp

end JmpAbs

/-- `Thunk::new` : the jump through the thunk's pointer, `ud2`, and the pointer. -/
def Thunk.asBytes (ptr : ℕ) : List UInt8 :=
  JmpAbs.asBytes ⟨Thunk.ptrOffset - JmpAbs.len⟩ ++ [0x0f, 0x0b] ++ leBytes 8 ptr

/-- A thunk has 16 bytes. -/
@[simp] theorem Thunk.length_asBytes (ptr : ℕ) : (Thunk.asBytes ptr).length = 16 := by
  simp [asBytes, JmpAbs.asBytes]

/-- The pointer is the second word. -/
theorem Thunk.getElem?_asBytes_ptr (ptr i : ℕ) :
    (Thunk.asBytes ptr)[ptrOffset + i]? = (leBytes 8 ptr)[i]? := by
  have hlen : (JmpAbs.asBytes ⟨ptrOffset - JmpAbs.len⟩ ++ [0x0f, 0x0b]).length = ptrOffset := by
    simp [JmpAbs.asBytes, ptrOffset]
  rw [asBytes, List.getElem?_append_right (by omega), hlen, Nat.add_sub_cancel_left]

/-- A relative jump has 5 bytes. -/
@[simp] theorem JmpRel.length_asBytes (jmpRel : JmpRel) : jmpRel.asBytes.length = 5 := by
  simp [asBytes]

/-- What the installer relies on a processor for. -/
structure Processor.Lawful {σ : Type*} (P : Processor σ) : Prop extends LawfulDecode P.decode where
  /-- A valid instruction is decoded from its own bytes. -/
  congr : ∀ ip bytes bytes', bytes ≠ [] → (P.decode ip bytes).isInvalid = false →
    bytes'.take (P.decode ip bytes).len = bytes.take (P.decode ip bytes).len →
      P.decode ip bytes' = P.decode ip bytes
  len_le_max : ∀ ip bytes, bytes ≠ [] → (P.decode ip bytes).isInvalid = false →
    (P.decode ip bytes).len ≤ maxInsnLen
  exec_invalid : ∀ memory insn rest, insn.isInvalid = true → P.exec memory insn rest = none
  /-- `Jmp_rel32_64` goes to its target. -/
  exec_jmpRel32 : ∀ memory target rest,
    P.exec memory (.jmpRel32 target) rest = some (target, rest)
  /-- The bytes of a `JmpRel` are such a jump. -/
  step_jmpRel : ∀ (memory : CodeMemory) (ip t : ℕ) (disp : ℤ) (rest : σ),
    memory.Holds ip (JmpRel.asBytes ⟨disp⟩) → i32Min ≤ disp → disp ≤ i32Max →
      (t : ℤ) = ip + jmpRelLen + disp → P.step memory ⟨ip, rest⟩ = some ⟨t, rest⟩
  /-- The bytes of a `JmpAbs` are a jump to what the pointer at the displacement holds. -/
  step_jmpAbs : ∀ (memory : CodeMemory) (ip p : ℕ) (disp : ℤ) (rest : σ),
    memory.Holds ip (JmpAbs.asBytes ⟨disp⟩) → i32Min ≤ disp → disp ≤ i32Max →
      (p : ℤ) = ip + JmpAbs.len + disp →
        P.step memory ⟨ip, rest⟩ = some ⟨leValue (load memory p 8), rest⟩

/-! ## What is written -/

namespace JmpChain

/-- The code after the trampoline, the thunk and the jump were written, where the thunk holds
`ptr`. -/
def memory (chain : JmpChain) (target : ℕ) (site : HookSite) (code : List UInt8) (ptr : ℕ)
    (memory : CodeMemory) : CodeMemory :=
  store (store (store memory chain.thunkPtr code) chain.thunk.start (Thunk.asBytes ptr)) target
    (site.patched chain.jmpRel)

/-- The addresses of the code of the target that are read, to its last instruction's end. -/
def windowEnd (target : ℕ) : ℕ :=
  target + disasmLen + maxInsnLen

/-- The trampoline, the thunk and the target lie apart. -/
structure Apart (chain : JmpChain) (target : ℕ) (code : List UInt8) : Prop where
  target_pos : 0 < target
  target_le : windowEnd target ≤ isizeMax
  thunk_le : chain.thunk.start ≤ isizeMax
  thunk : chain.thunk.start + 16 ≤ target ∨ windowEnd target ≤ chain.thunk.start
  trampoline : chain.thunkPtr + code.length ≤ target ∨ windowEnd target ≤ chain.thunkPtr
  blocks : chain.thunkPtr + code.length ≤ chain.thunk.start ∨
    chain.thunk.start + 16 ≤ chain.thunkPtr

/-- The bytes that are not as before, where the jump changes `n` bytes. -/
def Written (chain : JmpChain) (target n : ℕ) (code : List UInt8) : Set ℕ :=
  Set.Ico target (target + n) ∪ Set.Ico chain.thunk.start (chain.thunk.start + 16) ∪
    Set.Ico chain.thunkPtr (chain.thunkPtr + code.length)

section Memory

variable {chain : JmpChain} {target n ptr x : ℕ} {site : HookSite} {code : List UInt8}
  {mem : CodeMemory}

/-- The patched site keeps its 8 bytes. -/
theorem length_patched (chain : JmpChain) (site : HookSite) :
    (site.patched chain.jmpRel).length = 8 := by
  rw [HookSite.patched, List.length_append, JmpRel.length_asBytes, List.length_drop,
    List.length_take, JmpRel.length_bytes]
  rfl

/-- Outside of what is written the memory stays, and so do the bytes behind a kept instruction. -/
theorem memory_of_not_written (hholds : mem.Holds target site.bytes.toList)
    (hkeeps : chain.jmpRel.Keeps site.bytes n) (hn : n ≤ jmpRelLen)
    (hx : x ∉ chain.Written target n code) :
    chain.memory target site code ptr mem x = mem x := by
  simp only [Written, Set.mem_union, Set.mem_Ico, not_or, not_and, not_lt] at hx
  obtain ⟨⟨htarget, hthunk⟩, hcode⟩ := hx
  have hthunk' : (Thunk.asBytes ptr).length = 16 := Thunk.length_asBytes ptr
  have hlen := length_patched chain site
  have hbelow : store (store mem chain.thunkPtr code) chain.thunk.start (Thunk.asBytes ptr) x =
      mem x := by
    rw [store_of_outside (by omega), store_of_outside (by omega)]
  rw [memory]
  by_cases hin : target ≤ x ∧ x < target + 8
  · -- behind the jump the exchange writes what it has found
    obtain ⟨i, rfl⟩ := Nat.exists_eq_add_of_le hin.1
    have hi : i < site.bytes.toList.length := by
      rw [JmpRel.length_bytes]
      omega
    have hwritten := hkeeps.getElem?_written (i := i) (by omega) (by omega)
    rw [List.getElem?_eq_getElem hi] at hwritten
    rw [store_of_getElem? (l := site.patched chain.jmpRel) hwritten]
    exact (hholds i _ (List.getElem?_eq_getElem hi)).symm
  · rw [store_of_outside (by omega), hbelow]

/-- The target begins with the jump. -/
theorem holds_jmpRel :
    (chain.memory target site code ptr mem).Holds target chain.jmpRel.asBytes := by
  intro i byte hbyte
  have hi : i < chain.jmpRel.asBytes.length := (List.getElem?_eq_some_iff.1 hbyte).1
  refine store_of_getElem? ?_
  rw [HookSite.patched, List.getElem?_append_left hi, hbyte]

/-- The thunk is where the jump leads. -/
theorem holds_thunk (h : chain.Apart target code) :
    (chain.memory target site code ptr mem).Holds chain.thunk.start (Thunk.asBytes ptr) := by
  intro i byte hbyte
  have hi : i < (Thunk.asBytes ptr).length := (List.getElem?_eq_some_iff.1 hbyte).1
  have hlen := length_patched chain site
  have hthunk := h.thunk
  rw [Thunk.length_asBytes] at hi
  unfold windowEnd disasmLen jmpRelLen maxInsnLen at hthunk
  rw [memory, store_of_outside (by omega)]
  exact store_of_getElem? hbyte

/-- The trampoline is behind it. -/
theorem holds_code (h : chain.Apart target code) :
    (chain.memory target site code ptr mem).Holds chain.thunkPtr code := by
  intro i byte hbyte
  have hi : i < code.length := (List.getElem?_eq_some_iff.1 hbyte).1
  have hlen := length_patched chain site
  have hcode := h.trampoline
  have hblocks := h.blocks
  unfold windowEnd disasmLen jmpRelLen maxInsnLen at hcode
  rw [memory, store_of_outside (by omega), store_of_outside (by rw [Thunk.length_asBytes]; omega)]
  exact store_of_getElem? hbyte

/-- The jump of the thunk reads its pointer. -/
theorem load_ptr (h : chain.Apart target code) :
    load (chain.memory target site code ptr mem) (chain.thunk.start + Thunk.ptrOffset) 8 =
      leBytes 8 ptr := by
  refine List.ext_getElem? fun i => ?_
  rw [getElem?_load]
  split_ifs with hi
  · have hi' : i < (leBytes 8 ptr).length := by
      rw [length_leBytes]
      exact hi
    have hbyte := (Thunk.getElem?_asBytes_ptr ptr i).trans (List.getElem?_eq_getElem hi')
    rw [Nat.add_assoc, holds_thunk h _ _ hbyte, ← List.getElem?_eq_getElem hi']
  · rw [List.getElem?_eq_none (by rw [length_leBytes]; omega)]

/-- `update_thunk` exchanges the pointer and nothing else. -/
theorem memory_updateThunk (h : chain.Apart target code) (ptr ptr' : ℕ) :
    store (chain.memory target site code ptr mem) (chain.installer target).thunk (leBytes 8 ptr') =
      chain.memory target site code ptr' mem := by
  have hlen := length_patched chain site
  have hthunk := h.thunk
  unfold windowEnd disasmLen jmpRelLen maxInsnLen at hthunk
  have hlen' := length_leBytes 8 ptr'
  have hinstaller : (chain.installer target).thunk = chain.thunk.start + 8 := rfl
  funext x
  rw [hinstaller]
  by_cases hptr : chain.thunk.start + 8 ≤ x ∧ x < chain.thunk.start + 16
  · obtain ⟨i, rfl⟩ := Nat.exists_eq_add_of_le hptr.1
    have hi : i < (leBytes 8 ptr').length := by omega
    have hbyte := (Thunk.getElem?_asBytes_ptr ptr' i).trans (List.getElem?_eq_getElem hi)
    rw [store_of_getElem? (List.getElem?_eq_getElem hi), Nat.add_assoc]
    exact (holds_thunk h _ _ hbyte).symm
  · have hrest : ∀ p, chain.memory target site code p mem x =
        store (store (store mem chain.thunkPtr code) chain.thunk.start
          (JmpAbs.asBytes ⟨Thunk.ptrOffset - JmpAbs.len⟩ ++ [0x0f, 0x0b])) target
          (site.patched chain.jmpRel) x := by
      intro p
      have hlen'' := length_leBytes 8 p
      rw [memory, Thunk.asBytes, store_append]
      refine store_congr (store_congr (store_of_outside ?_))
      simp only [JmpAbs.asBytes, List.length_append, List.length_cons, List.length_nil,
        length_i32ToLeBytes]
      omega
    rw [store_of_outside (by omega), hrest, hrest]

end Memory

end JmpChain

end Diversion
