import Diversion.Word
import Mathlib.Algebra.BigOperators.Group.List.Basic
import Mathlib.Algebra.GroupWithZero.Nat
import Mathlib.Data.List.Nodup
import Mathlib.Tactic.Common

/-!
# Decoding the start of a function

The installer reads the first `DISASM_LEN` bytes of a function and decodes them with the
iced crate's decoder (`decode_instructions` in src/installer/arch/x86_64/hook_site.rs). The
decoder is a function of the instruction pointer and the bytes left; `LawfulDecode` is what
such a decoder promises. Any instructions that fill a window are the result of some decoder
(`exists_decodeWindow`).
-/

namespace Diversion

/-! ## Instructions -/

/-- `FlowControl` of the iced crate. -/
inductive FlowControl where
  | next
  | unconditionalBranch
  | indirectBranch
  | conditionalBranch
  | return
  | call
  | indirectCall
  | interrupt
  | xbeginXabortXend
  | exception
deriving DecidableEq, Repr

/-- `Code` of the iced crate : the codes the installer names, those of the `CALL` instructions,
and the others. -/
inductive Code where
  | invalid
  | int1
  | int3
  | ud2
  | jmpRel32_64
  /-- `Call_rel32_64`, `Call_rm64` and the other forms of `CALL`, near and far. -/
  | call (id : ℕ)
  | other (id : ℕ)
deriving DecidableEq, Repr

/-- A decoded `Instruction` of the iced crate, with what the installer reads off it. -/
structure Instruction where
  code : Code
  ip : ℕ
  len : ℕ
  flowControl : FlowControl
  /-- The address of an IP-relative memory operand, if it has one. -/
  ipRelMemoryAddress : Option ℕ
  /-- The target of a near branch, if it is one. -/
  nearBranchTarget : Option ℕ
deriving DecidableEq, Repr

namespace Instruction

/-- `Instruction::next_ip`. -/
def nextIp (insn : Instruction) : ℕ :=
  wrappingAdd insn.ip insn.len

/-- `Instruction::is_invalid`. -/
def isInvalid (insn : Instruction) : Bool :=
  insn.code = .invalid

/-- The codes that may follow an assumed end of a function. -/
def isPadding (insn : Instruction) : Bool :=
  match insn.code with
  | .int1 | .int3 | .ud2 => true
  | _ => false

/-- `is_unconditional_branch` : control does not reach the next instruction. -/
def isUnconditionalBranch (insn : Instruction) : Bool :=
  match insn.flowControl with
  | .unconditionalBranch | .indirectBranch | .return | .interrupt => true
  | _ => false

/-- `Instruction::with_branch(Code::Jmp_rel32_64, target)`. It has not been encoded yet. -/
def jmpRel32 (target : ℕ) : Instruction where
  code := .jmpRel32_64
  ip := 0
  len := 0
  flowControl := .unconditionalBranch
  ipRelMemoryAddress := none
  nearBranchTarget := some target

theorem not_isInvalid_of_isPadding {insn : Instruction} (h : insn.isPadding = true) :
    insn.isInvalid = false := by
  unfold isPadding at h
  unfold isInvalid
  split at h <;> simp_all

end Instruction

/-- The number of bytes of the instructions. -/
def totalLen (insns : List Instruction) : ℕ :=
  (insns.map Instruction.len).sum

@[simp] theorem totalLen_nil : totalLen [] = 0 :=
  rfl

@[simp] theorem totalLen_cons (insn : Instruction) (insns : List Instruction) :
    totalLen (insn :: insns) = insn.len + totalLen insns := by
  simp [totalLen]

@[simp] theorem totalLen_append (l₁ l₂ : List Instruction) :
    totalLen (l₁ ++ l₂) = totalLen l₁ + totalLen l₂ := by
  simp [totalLen]

theorem totalLen_le_of_isPrefix {l₁ l₂ : List Instruction} (h : l₁ <+: l₂) :
    totalLen l₁ ≤ totalLen l₂ := by
  obtain ⟨l, rfl⟩ := h
  rw [totalLen_append]
  omega

/-! ## Errors -/

/-- `IcedError` of the iced crate. -/
structure IcedError where
  message : String
deriving DecidableEq, Repr

/-- `std::io::Error`. -/
structure IoError where
  message : String
deriving DecidableEq, Repr

/-- `diversion::Error`. -/
inductive Error where
  | processContext (err : IoError)
  | protection (addr : ℕ) (err : IoError)
  | disassembly (addr : ℕ) (bytes : List UInt8)
  | tooShort (addr : ℕ) (bytes : List UInt8)
  | alloc (addr : ℕ) (err : IoError)
  | encode (addr : ℕ) (err : IcedError)
  | encodeSize (addr : ℕ) (size : ℕ)
  | suspend (err : IoError)
deriving DecidableEq, Repr

/-- `io::ErrorKind::OutOfMemory`. -/
def Error.oom (addr : ℕ) : Error :=
  .alloc addr ⟨"out of memory"⟩

/-- How a call can fail to return a value : with an error, or by a panic. -/
inductive Failure where
  | err (e : Error)
  | panicked (message : String)
deriving DecidableEq, Repr

/-- `Result`, with the panics of the code. -/
abbrev Result (α : Type) := Except Failure α

/-! ## Decoding -/

/-- `JmpRel::LEN`, the size of a relative jump. -/
def jmpRelLen : ℕ :=
  5

/-- The longest valid instruction encoding on x86. -/
def maxInsnLen : ℕ :=
  15

/-- `DISASM_LEN` : a 4-byte instruction followed by a 15-byte one. -/
def disasmLen : ℕ :=
  jmpRelLen - 1 + maxInsnLen

/-- `Decoder::decode_out` of the iced crate, as a function of the instruction pointer and
the bytes that are left. -/
abbrev Decode := ℕ → List UInt8 → Instruction

/-- Decode while there are bytes left. Each instruction takes at least one of them, so as
many rounds as there are bytes are enough. -/
def decodeLoop (decode : Decode) : ℕ → ℕ → List UInt8 → List Instruction
  | 0, _, _ => []
  | _ + 1, _, [] => []
  | fuel + 1, ip, byte :: bytes =>
    let insn := decode ip (byte :: bytes)
    insn :: decodeLoop decode fuel (wrappingAdd ip insn.len) ((byte :: bytes).drop insn.len)

/-- The instructions decoded from a window of bytes. -/
def decodeWindow (decode : Decode) (addr : ℕ) (bytes : List UInt8) : List Instruction :=
  decodeLoop decode bytes.length addr bytes

/-- `decode_instructions`. It fails if the first instruction is not valid. -/
def decodeInstructions (decode : Decode) (addr : ℕ) (bytes : Vector UInt8 disasmLen) :
    Result (List Instruction) :=
  let instructions := decodeWindow decode addr bytes.toList
  match instructions.head? with
  | some first =>
    if first.isInvalid then .error (.err (.disassembly addr (bytes.toList.take 16)))
    else .ok instructions
  | none => .error (.err (.disassembly addr (bytes.toList.take 16)))

theorem decodeInstructions_cases (decode : Decode) (addr : ℕ) (bytes : Vector UInt8 disasmLen) :
    decodeInstructions decode addr bytes = .ok (decodeWindow decode addr bytes.toList) ∨
      ((∀ first, (decodeWindow decode addr bytes.toList).head? = some first →
          first.isInvalid = true) ∧
        decodeInstructions decode addr bytes =
          .error (.err (.disassembly addr (bytes.toList.take 16)))) := by
  unfold decodeInstructions
  cases hhead : (decodeWindow decode addr bytes.toList).head? with
  | none => exact Or.inr ⟨by simp, by simp only [hhead]⟩
  | some first =>
    cases hinv : first.isInvalid with
    | true => exact Or.inr ⟨by simp [hinv], by simp [hhead, hinv]⟩
    | false => exact Or.inl (by simp [hhead, hinv])

/-! ## Windows of bytes -/

/-- Decoding windows of `insns` : the instruction is read off how many bytes are left. -/
def decodeOf : List Instruction → Decode
  | [], ip, _ => .jmpRel32 ip
  | insn :: insns, ip, bytes =>
    if bytes.length = totalLen (insn :: insns) then insn else decodeOf insns ip bytes

theorem decodeLoop_congr {d₁ d₂ : Decode} : ∀ {fuel ip : ℕ} {bytes : List UInt8},
    (∀ ip bs, bs.length ≤ bytes.length → d₁ ip bs = d₂ ip bs) →
      decodeLoop d₁ fuel ip bytes = decodeLoop d₂ fuel ip bytes
  | 0, _, _, _ => rfl
  | _ + 1, _, [], _ => rfl
  | fuel + 1, ip, byte :: bytes, h => by
    have hd := h ip (byte :: bytes) le_rfl
    simp only [decodeLoop, hd]
    refine congrArg _ (decodeLoop_congr fun ip' bs hbs => h ip' bs (hbs.trans ?_))
    rw [List.length_drop]
    omega

theorem decodeLoop_decodeOf {insns : List Instruction} : ∀ {fuel ip : ℕ} {bytes : List UInt8},
    (∀ i ∈ insns, 1 ≤ i.len) → totalLen insns = bytes.length → bytes.length ≤ fuel →
      decodeLoop (decodeOf insns) fuel ip bytes = insns := by
  induction insns with
  | nil =>
    intro fuel ip bytes _ hlen _
    obtain rfl := List.length_eq_zero_iff.1 hlen.symm
    cases fuel <;> rfl
  | cons insn insns ih =>
    intro fuel ip bytes hpos hlen hfuel
    have hone := hpos insn (by simp)
    rw [totalLen_cons] at hlen
    obtain ⟨byte, bytes, rfl⟩ : ∃ b bs, bytes = b :: bs := by
      cases bytes with
      | nil => simp at hlen; omega
      | cons b bs => exact ⟨b, bs, rfl⟩
    obtain ⟨fuel, rfl⟩ : ∃ n, fuel = n + 1 := ⟨fuel - 1, by simp at hfuel; omega⟩
    have hfirst : decodeOf (insn :: insns) ip (byte :: bytes) = insn := by
      simp only [decodeOf, totalLen_cons, hlen, if_true]
    have hdrop : ((byte :: bytes).drop insn.len).length = totalLen insns := by
      rw [List.length_drop]
      omega
    -- the rest is shorter, so it is read off the rest of the instructions
    have hrest : ∀ ip' bs, bs.length ≤ ((byte :: bytes).drop insn.len).length →
        decodeOf (insn :: insns) ip' bs = decodeOf insns ip' bs := by
      intro ip' bs hbs
      rw [decodeOf, if_neg (by rw [totalLen_cons]; omega)]
    rw [decodeLoop, hfirst, decodeLoop_congr hrest,
      ih (fun i hi => hpos i (by simp [hi])) hdrop.symm (by rw [List.length_drop]; omega)]

/-- Any instructions that fill a window are what some decoder makes of it. -/
theorem exists_decodeWindow {insns : List Instruction} {bytes : List UInt8} (addr : ℕ)
    (hpos : ∀ i ∈ insns, 1 ≤ i.len) (hlen : totalLen insns = bytes.length) :
    ∃ decode, decodeWindow decode addr bytes = insns :=
  ⟨decodeOf insns, decodeLoop_decodeOf hpos hlen le_rfl⟩

/-- A decoder that reads instructions off the bytes it is given : they start at the given
address and take at least one of the bytes. -/
structure LawfulDecode (decode : Decode) : Prop where
  ip : ∀ ip bytes, bytes ≠ [] → (decode ip bytes).ip = ip
  one_le_len : ∀ ip bytes, bytes ≠ [] → 1 ≤ (decode ip bytes).len
  len_le : ∀ ip bytes, bytes ≠ [] → (decode ip bytes).len ≤ bytes.length

section Lawful

variable {decode : Decode}

theorem LawfulDecode.totalLen_le (h : LawfulDecode decode) : ∀ {fuel ip : ℕ} {bytes : List UInt8},
    totalLen (decodeLoop decode fuel ip bytes) ≤ bytes.length
  | 0, _, _ => Nat.zero_le _
  | _ + 1, _, [] => Nat.zero_le _
  | fuel + 1, ip, byte :: bytes => by
    have hlen := h.len_le ip (byte :: bytes) (by simp)
    rw [decodeLoop, totalLen_cons]
    calc (decode ip (byte :: bytes)).len + _
        ≤ (decode ip (byte :: bytes)).len +
          ((byte :: bytes).drop (decode ip (byte :: bytes)).len).length :=
        Nat.add_le_add_left h.totalLen_le _
      _ = (byte :: bytes).length := by
        rw [List.length_drop]
        omega

/-- Each instruction starts where the ones before it end, and has a byte at least. -/
theorem LawfulDecode.getElem? (h : LawfulDecode decode) : ∀ {fuel ip : ℕ} {bytes : List UInt8}
    {i : ℕ} {insn : Instruction}, (decodeLoop decode fuel ip bytes)[i]? = some insn →
      insn.ip % wordSize = (ip + totalLen ((decodeLoop decode fuel ip bytes).take i)) % wordSize ∧
        1 ≤ insn.len
  | 0, _, _, _, _, hget => by simp [decodeLoop] at hget
  | _ + 1, _, [], _, _, hget => by simp [decodeLoop] at hget
  | fuel + 1, ip, byte :: bytes, 0, insn, hget => by
    rw [decodeLoop, List.getElem?_cons_zero] at hget
    obtain rfl := Option.some.inj hget
    rw [h.ip ip _ (by simp), List.take_zero, totalLen_nil, Nat.add_zero]
    exact ⟨rfl, h.one_le_len ip _ (by simp)⟩
  | fuel + 1, ip, byte :: bytes, i + 1, insn, hget => by
    rw [decodeLoop, List.getElem?_cons_succ] at hget
    obtain ⟨hip, hlen⟩ := h.getElem? hget
    rw [decodeLoop, List.take_succ_cons, totalLen_cons, hip, wrappingAdd, Nat.mod_add_mod,
      Nat.add_assoc]
    exact ⟨rfl, hlen⟩

theorem totalLen_take_lt {insns : List Instruction} (hpos : ∀ i ∈ insns, 1 ≤ i.len) {i j : ℕ}
    (hij : i < j) (hj : j ≤ insns.length) : totalLen (insns.take i) < totalLen (insns.take j) := by
  have hi : i < insns.length := by omega
  have hone := hpos insns[i] (List.getElem_mem hi)
  calc totalLen (insns.take i)
      < totalLen (insns.take (i + 1)) := by
        rw [List.take_succ_eq_append_getElem hi, totalLen_append, totalLen_cons]
        omega
    _ ≤ totalLen (insns.take j) := totalLen_le_of_isPrefix (List.take_prefix_take_left (by omega))

/-- The decoded instructions start at different addresses. -/
theorem LawfulDecode.nodup_ip (h : LawfulDecode decode) {addr : ℕ} {bytes : List UInt8}
    (hbytes : bytes.length < wordSize) :
    ((decodeWindow decode addr bytes).map Instruction.ip).Nodup := by
  rw [List.nodup_iff_getElem?_ne_getElem?]
  intro i j hij hj heq
  rw [List.length_map] at hj
  have hi : i < (decodeWindow decode addr bytes).length := by omega
  rw [List.getElem?_map, List.getElem?_map, List.getElem?_eq_getElem hi,
    List.getElem?_eq_getElem hj] at heq
  have heq : (decodeWindow decode addr bytes)[i].ip = (decodeWindow decode addr bytes)[j].ip :=
    Option.some.inj heq
  have hmodi := (h.getElem? (List.getElem?_eq_getElem hi)).1
  have hmodj := (h.getElem? (List.getElem?_eq_getElem hj)).1
  rw [show decodeLoop decode bytes.length addr bytes = decodeWindow decode addr bytes from rfl]
    at hmodi hmodj
  have hlt := totalLen_take_lt (show ∀ insn ∈ decodeWindow decode addr bytes, 1 ≤ insn.len by
    intro insn hmem
    obtain ⟨k, hk⟩ := List.getElem?_of_mem hmem
    exact (h.getElem? hk).2) hij hj.le
  have hle : totalLen ((decodeWindow decode addr bytes).take j) ≤ bytes.length :=
    (totalLen_le_of_isPrefix (List.take_prefix _ _)).trans h.totalLen_le
  rw [heq, hmodj] at hmodi
  unfold wordSize at *
  omega

end Lawful

/-! ## A sample decoder -/

/-- The code, length and flow control of `ret`, `sub rsp, 0x30`, `push rbp`, `call rel32`,
`jmp rel32`, the indirect `call` and `jmp` through a pointer, short `je` and `jne`, and
`int3`, by their first byte. -/
def opcodeSample (opcode : UInt8) : Code × ℕ × FlowControl :=
  match opcode with
  | 0xc3 => (.other 0, 1, .return)
  | 0x48 => (.other 1, 4, .next)
  | 0x55 => (.other 2, 1, .next)
  | 0xe8 => (.call 0, 5, .call)
  | 0xe9 => (.jmpRel32_64, 5, .unconditionalBranch)
  | 0xff => (.other 4, 6, .indirectCall)
  | 0x74 => (.other 5, 2, .conditionalBranch)
  | 0x75 => (.other 6, 2, .conditionalBranch)
  | 0xcc => (.int3, 1, .interrupt)
  | _ => (.invalid, 1, .exception)

/-- A decoder of these. An instruction that is cut off is invalid. -/
def decodeSample : Decode := fun ip bytes =>
  let (code, len, flowControl) := opcodeSample (bytes.headD 0)
  if len ≤ bytes.length then ⟨code, ip, len, flowControl, none, none⟩
  else ⟨.invalid, ip, bytes.length, .exception, none, none⟩

theorem one_le_opcodeSample (opcode : UInt8) : 1 ≤ (opcodeSample opcode).2.1 := by
  unfold opcodeSample
  split <;> simp

theorem lawfulDecode_decodeSample : LawfulDecode decodeSample where
  ip := by
    intro ip bytes _
    simp only [decodeSample]
    split_ifs <;> rfl
  one_le_len := by
    intro ip bytes hne
    simp only [decodeSample]
    split_ifs
    · exact one_le_opcodeSample _
    · exact List.length_pos_iff.2 hne
  len_le := by
    intro ip bytes _
    simp only [decodeSample]
    split_ifs with hlen
    · exact hlen
    · exact le_rfl

end Diversion
