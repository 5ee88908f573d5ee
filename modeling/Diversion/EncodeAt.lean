import Diversion.HookSite

/-!
# Re-encoding a hook site

`HookSite::encode_at` re-encodes the instructions of a site for a buffer at `ip` and
returns, for every kept instruction but the first, where a thread that stands at it has to
go (`IpReloc`). The encoder is the iced crate's. It reports at which offset each
re-encoding starts, but for an instruction it had to rewrite it reports `u32::MAX`, and
`encode_at` decodes the instruction before it to find out where it ended.

`Lays` says what the encoder does : it lays the re-encodings out one behind the other, a
rewritten one being any number of machine instructions. The decoder pass starts at
instruction pointer 0 and `set_position` does not move the instruction pointer, so what it
finds is not an address in the buffer but the number of bytes it has decoded so far
(`strayIp`), and within a run of rewritten instructions it finds nothing new. `encodeAt_eq`
is the table `encode_at` returns, and `relocsCorrect_iff` says when that is the right one :
if no instruction behind the first was rewritten.
-/

namespace Diversion

/-! ## The encoder and the decoder -/

/-- `BlockEncoderResult` of the iced crate. -/
structure Encoded where
  rip : ℕ
  codeBuffer : List UInt8
  newInstructionOffsets : List ℕ

/-- `BlockEncoder::encode` of the iced crate with `RETURN_NEW_INSTRUCTION_OFFSETS`, as a
function of the instructions and the address of the buffer. -/
abbrev Encode := List Instruction → ℕ → Except IcedError Encoded

/-- `Decoder` of the iced crate over a buffer. -/
structure Decoder where
  bytes : List UInt8
  position : ℕ
  ip : ℕ

namespace Decoder

/-- `Decoder::new` : the instruction pointer starts at 0. -/
def new (bytes : List UInt8) : Decoder :=
  ⟨bytes, 0, 0⟩

/-- `Decoder::set_position` moves the read position only. -/
def setPosition (d : Decoder) (position : ℕ) : Option Decoder :=
  if position ≤ d.bytes.length then some { d with position := position } else none

/-- `Decoder::decode_out` advances the position and the instruction pointer. -/
def decodeOut (decode : Decode) (d : Decoder) : Instruction × Decoder :=
  let insn := decode d.ip (d.bytes.drop d.position)
  (insn, { d with position := d.position + insn.len, ip := wrappingAdd d.ip insn.len })

end Decoder

/-! ## The table -/

/-- `IpReloc` : a thread at `fromIp` is moved to `toIp`. -/
structure IpReloc where
  fromIp : ℕ
  toIp : ℕ
deriving DecidableEq, Repr

/-- The offset of the instruction before instruction `i`. The first one starts the buffer,
rewritten or not. -/
def prevOffset (offsets : List ℕ) (i : ℕ) : Option ℕ :=
  if i = 1 then some 0 else offsets[i - 2]?

/-- One round of the loop of `encode_at` : the new address of instruction `i`, the decoder
and `last_ip`. -/
def newIp (decode : Decode) (rip : ℕ) (offsets : List ℕ) (i : ℕ) (decoder : Decoder)
    (lastIp : ℕ) : Option (ℕ × Decoder × ℕ) := do
  let offset ← offsets[i - 1]?
  if offset = u32Max then
    let prev ← prevOffset offsets i
    if prev ≠ u32Max then
      let decoder ← decoder.setPosition prev
      let (instruction, decoder) := decoder.decodeOut decode
      some (instruction.nextIp, decoder, instruction.nextIp)
    else some (lastIp, decoder, lastIp)
  else some (wrappingAdd rip offset, decoder, lastIp)

/-- The loop of `encode_at` from instruction `i` on. -/
def relocLoop (decode : Decode) (rip : ℕ) (offsets : List ℕ) :
    ℕ → List Instruction → Decoder → ℕ → Option (List IpReloc)
  | _, [], _, _ => some []
  | i, insn :: insns, decoder, lastIp => do
    let (toIp, decoder, lastIp) ← newIp decode rip offsets i decoder lastIp
    let relocs ← relocLoop decode rip offsets (i + 1) insns decoder lastIp
    some (⟨insn.ip, toIp⟩ :: relocs)

namespace HookSite

/-- `encode_at`. Slicing, indexing and `set_position` panic out of bounds. -/
def encodeAt (encode : Encode) (decode : Decode) (site : HookSite) (ip : ℕ) :
    Result (List UInt8 × List IpReloc) :=
  match encode site.insns ip with
  | .error err => .error (.err (.encode site.targetAddr err))
  | .ok encoded =>
    if site.willBranch = false ∧ site.insns = [] then .error (.panicked "has >= 1 instructions")
    else
      -- without the jump we appended
      let insns := site.kept
      if encoded.newInstructionOffsets.length < max insns.length 1 then
        .error (.panicked "range end index out of range")
      else
        let offsets := (encoded.newInstructionOffsets.take (max insns.length 1)).drop 1
        let decoder := Decoder.new encoded.codeBuffer
        let count := min insns.length (offsets.length + 1)
        match relocLoop decode encoded.rip offsets 1 ((insns.take count).drop 1) decoder
            encoded.rip with
        | some relocs => .ok (encoded.codeBuffer, relocs)
        | none => .error (.panicked "called `Option::unwrap()` on a `None` value")

end HookSite

/-! ## The encoder's layout -/

/-- The re-encoding of one instruction : one machine instruction, or any number of them if
the encoder rewrote it. -/
structure Reencoding where
  machineInsns : List (List UInt8)
  rewritten : Bool

/-- The code for the instruction. -/
def Reencoding.bytes (r : Reencoding) : List UInt8 :=
  r.machineInsns.flatten

/-- The code of a block, by instruction. -/
abbrev BlockLayout := List Reencoding

namespace BlockLayout

/-- Instruction `i` was rewritten. -/
def rewritten (layout : BlockLayout) (i : ℕ) : Bool :=
  (layout[i]?.map Reencoding.rewritten).getD false

/-- The offset at which the re-encoding of instruction `i` starts. -/
def startOf (layout : BlockLayout) (i : ℕ) : ℕ :=
  ((layout.take i).map Reencoding.bytes).flatten.length

/-- The length of the first machine instruction of the re-encoding of instruction `i`. -/
def firstLen (layout : BlockLayout) (i : ℕ) : ℕ :=
  (((layout[i]?).bind fun r => r.machineInsns.head?).map List.length).getD 0

/-- Instruction `i` starts a run of rewritten instructions. What happened to the first
instruction of the site does not matter for the second. -/
def startsRun (layout : BlockLayout) (i : ℕ) : Bool :=
  layout.rewritten i && (i = 1 || !layout.rewritten (i - 1))

/-- What the decoder pass takes for the address of the rewritten instruction `i` : the bytes
decoded so far, one machine instruction in front of each run. -/
def strayIp (layout : BlockLayout) : ℕ → ℕ
  | 0 => 0
  | i + 1 => layout.strayIp i + if layout.startsRun (i + 1) then layout.firstLen i else 0

/-- The address the table gives for instruction `i`. -/
def relocTarget (layout : BlockLayout) (ip i : ℕ) : ℕ :=
  if layout.rewritten i then layout.strayIp i else ip + layout.startOf i

end BlockLayout

/-- The encoder laid the instructions out at `ip` : one behind the other, in order, with the
offsets of those it did not rewrite, and pointers it may need behind the code. Each machine
instruction decodes to its length. -/
structure Lays (decode : Decode) (insns : List Instruction) (ip : ℕ) (encoded : Encoded)
    (layout : BlockLayout) : Prop where
  rip : encoded.rip = ip
  length : layout.length = insns.length
  code : ∃ pointers, encoded.codeBuffer = (layout.map Reencoding.bytes).flatten ++ pointers
  offsets : encoded.newInstructionOffsets = (List.range layout.length).map fun i =>
    if layout.rewritten i then u32Max else layout.startOf i
  short : encoded.codeBuffer.length < u32Max
  machine : ∀ r ∈ layout, r.machineInsns ≠ [] ∧ ∀ m ∈ r.machineInsns, m ≠ []
  single : ∀ r ∈ layout, r.rewritten = false → r.machineInsns.length = 1
  decodes : ∀ r ∈ layout, ∀ m ∈ r.machineInsns, ∀ ip rest,
    (decode ip (m ++ rest)).ip = ip ∧ (decode ip (m ++ rest)).len = m.length

/-- The table `encode_at` returns : an entry for every kept instruction but the first. -/
def relocTable (layout : BlockLayout) (ip : ℕ) (kept : List Instruction) : List IpReloc :=
  (kept.drop 1).mapIdx fun j insn => ⟨insn.ip, layout.relocTarget ip (1 + j)⟩

/-! ## Offsets -/

namespace BlockLayout

variable {layout : BlockLayout} {i j : ℕ} {r : Reencoding}

/-- The code of an instruction begins where that of the one before it ends. -/
theorem startOf_succ (h : layout[i]? = some r) :
    layout.startOf (i + 1) = layout.startOf i + r.bytes.length := by
  obtain ⟨hi, rfl⟩ := List.getElem?_eq_some_iff.1 h
  rw [startOf, List.take_succ_eq_append_getElem hi, List.map_append, List.flatten_append,
    List.length_append, List.map_singleton, List.flatten_singleton, startOf]

theorem firstLen_eq {m : List UInt8} {ms : List (List UInt8)} (h : layout[i]? = some r)
    (hr : r.machineInsns = m :: ms) : layout.firstLen i = m.length := by
  simp [firstLen, h, hr]

/-- The first machine instruction is within the code. -/
theorem startOf_add_firstLen_le :
    layout.startOf i + layout.firstLen i ≤ layout.startOf (i + 1) := by
  cases h : layout[i]? with
  | none =>
    have hi : layout.length ≤ i := by simpa using h
    simp [startOf, firstLen, h, List.take_of_length_le hi,
      List.take_of_length_le (show layout.length ≤ i + 1 by omega)]
  | some r =>
    rw [startOf_succ h]
    cases hr : r.machineInsns with
    | nil => simp [firstLen, h, hr]
    | cons m ms => simp [firstLen_eq h hr, Reencoding.bytes, hr]

/-- The decoder pass decodes at most what comes before an instruction. -/
theorem strayIp_le_startOf : layout.strayIp i ≤ layout.startOf i := by
  induction i with
  | zero => exact Nat.zero_le _
  | succ i ih =>
    have := layout.startOf_add_firstLen_le (i := i)
    simp only [strayIp]
    split_ifs <;> omega

/-- Within a run of rewritten instructions the stray ip stays. -/
theorem strayIp_succ_of_not_startsRun (h : layout.startsRun (i + 1) = false) :
    layout.strayIp (i + 1) = layout.strayIp i := by
  simp [strayIp, h]

/-- The first of a run moves it over one machine instruction. -/
theorem strayIp_succ_of_startsRun (h : layout.startsRun (i + 1) = true) :
    layout.strayIp (i + 1) = layout.strayIp i + layout.firstLen i := by
  simp [strayIp, h]

/-- In a layout without rewritten instructions. -/
theorem rewritten_eq_false (h : ∀ r ∈ layout, r.rewritten = false) :
    layout.rewritten i = false := by
  unfold rewritten
  cases hget : layout[i]? with
  | none => rfl
  | some r => exact h r (List.mem_of_getElem? hget)

theorem rewritten_of_startsRun (h : layout.startsRun i = true) : layout.rewritten i = true := by
  simp only [startsRun, Bool.and_eq_true] at h
  exact h.1

end BlockLayout

namespace Lays

variable {decode : Decode} {insns : List Instruction} {ip i : ℕ} {encoded : Encoded}
  {layout : BlockLayout}

/-- The code of every instruction is within the buffer. -/
theorem startOf_le (h : Lays decode insns ip encoded layout) :
    layout.startOf i ≤ encoded.codeBuffer.length := by
  obtain ⟨pointers, hcode⟩ := h.code
  have hle : layout.startOf i ≤ ((layout.map Reencoding.bytes).flatten).length := by
    conv_rhs => rw [← List.take_append_drop i layout, List.map_append, List.flatten_append,
      List.length_append]
    exact Nat.le_add_right _ _
  rw [hcode, List.length_append]
  omega

/-- Behind the start of an instruction the buffer holds its first machine instruction. -/
theorem drop_startOf (h : Lays decode insns ip encoded layout) (hi : i < layout.length) :
    ∃ m rest, encoded.codeBuffer.drop (layout.startOf i) = m ++ rest ∧
      m.length = layout.firstLen i ∧ m ≠ [] ∧ ∀ ip rest, (decode ip (m ++ rest)).ip = ip ∧
        (decode ip (m ++ rest)).len = m.length := by
  obtain ⟨pointers, hcode⟩ := h.code
  have hget : layout[i]? = some layout[i] := List.getElem?_eq_getElem hi
  have hmem : layout[i] ∈ layout := List.getElem_mem hi
  obtain ⟨hne, hmne⟩ := h.machine _ hmem
  cases hr : layout[i].machineInsns with
  | nil => exact absurd hr hne
  | cons m ms =>
    have hm : m ∈ layout[i].machineInsns := by simp [hr]
    refine ⟨m, ms.flatten ++ ((layout.drop (i + 1)).map Reencoding.bytes).flatten ++ pointers, ?_,
      (BlockLayout.firstLen_eq hget hr).symm, hmne m hm, h.decodes _ hmem m hm⟩
    have hsplit : layout = layout.take i ++ layout[i] :: layout.drop (i + 1) := by
      rw [← List.drop_eq_getElem_cons hi, List.take_append_drop]
    have hbuf : (layout.map Reencoding.bytes).flatten =
        ((layout.take i).map Reencoding.bytes).flatten ++ (layout[i].bytes ++
          ((layout.drop (i + 1)).map Reencoding.bytes).flatten) := by
      conv_lhs =>
        rw [hsplit, List.map_append, List.flatten_append, List.map_cons, List.flatten_cons]
    rw [hcode, hbuf, List.append_assoc, BlockLayout.startOf, List.drop_left]
    simp [Reencoding.bytes, hr]

theorem firstLen_pos (h : Lays decode insns ip encoded layout) (hi : i < layout.length) :
    0 < layout.firstLen i := by
  obtain ⟨m, -, -, hlen, hne, -⟩ := h.drop_startOf hi
  rw [← hlen]
  exact List.length_pos_iff.2 hne

/-- No instruction has empty code. -/
theorem startOf_lt_succ (h : Lays decode insns ip encoded layout) (hi : i < layout.length) :
    layout.startOf i < layout.startOf (i + 1) := by
  have := layout.startOf_add_firstLen_le (i := i)
  have := h.firstLen_pos hi
  omega

/-- The encoder returns no offset for what it has rewritten. -/
theorem getElem?_offsets (h : Lays decode insns ip encoded layout) (hi : i < layout.length) :
    encoded.newInstructionOffsets[i]? =
      some (if layout.rewritten i then u32Max else layout.startOf i) := by
  simp [h.offsets, hi]

theorem lt_wordSize (h : Lays decode insns ip encoded layout) :
    encoded.codeBuffer.length < wordSize :=
  h.short.trans (by decide)

/-- An offset is never taken for a missing one. -/
theorem startOf_ne_u32Max (h : Lays decode insns ip encoded layout) :
    layout.startOf i ≠ u32Max := by
  have := h.startOf_le (i := i)
  have := h.short
  omega

end Lays

/-! ## The loop -/

section NewIp

variable {decode : Decode} {rip i offset lastIp : ℕ} {offsets : List ℕ} {decoder : Decoder}

/-- With an offset the new address is exact. -/
theorem newIp_of_offset (hoff : offsets[i - 1]? = some offset) (h : offset ≠ u32Max) :
    newIp decode rip offsets i decoder lastIp = some (wrappingAdd rip offset, decoder, lastIp) := by
  simp [newIp, hoff, h]

/-- After one with an offset, the code of the last instruction is decoded. -/
theorem newIp_of_prevOffset {d : Decoder} (hoff : offsets[i - 1]? = some u32Max)
    (hprev : prevOffset offsets i = some offset) (h : offset ≠ u32Max)
    (hpos : decoder.setPosition offset = some d) :
    newIp decode rip offsets i decoder lastIp = some ((d.decodeOut decode).1.nextIp,
      (d.decodeOut decode).2, (d.decodeOut decode).1.nextIp) := by
  simp [newIp, hoff, hprev, h, hpos]

/-- After one without an offset, the last address is taken again. -/
theorem newIp_of_run (hoff : offsets[i - 1]? = some u32Max)
    (hprev : prevOffset offsets i = some u32Max) :
    newIp decode rip offsets i decoder lastIp = some (lastIp, decoder, lastIp) := by
  simp [newIp, hoff, hprev]

end NewIp

/-- What the loop carries after instruction `i` : the decoder has decoded one machine
instruction in front of each run so far, and within a run `last_ip` is what it found. -/
structure Tracks (encoded : Encoded) (layout : BlockLayout) (i : ℕ) (decoder : Decoder)
    (lastIp : ℕ) : Prop where
  bytes : decoder.bytes = encoded.codeBuffer
  ip : decoder.ip = layout.strayIp i
  lastIp : 1 ≤ i → layout.rewritten i = true → lastIp = layout.strayIp i

section Loop

variable {decode : Decode} {insns : List Instruction} {ip i n lastIp : ℕ} {encoded : Encoded}
  {layout : BlockLayout} {decoder : Decoder}

/-- `offsets` starts at the second instruction. -/
theorem getElem?_drop_take (offsets : List ℕ) (h : i + 1 < n) :
    ((offsets.take n).drop 1)[i]? = offsets[i + 1]? := by
  rw [List.getElem?_drop, List.getElem?_take_of_lt (by omega), Nat.add_comm]

/-- The decoder pass in front of a run : it finds the bytes decoded so far. -/
theorem newIp_of_startsRun (hL : Lays decode insns ip encoded layout)
    (hn : n ≤ layout.length) (hi : i + 1 < n)
    (ht : Tracks encoded layout i decoder lastIp) (hrun : layout.startsRun (i + 1) = true) :
    ∃ decoder', newIp decode encoded.rip ((encoded.newInstructionOffsets.take n).drop 1) (i + 1)
        decoder lastIp = some (layout.strayIp (i + 1), decoder', layout.strayIp (i + 1)) ∧
      decoder'.bytes = encoded.codeBuffer ∧ decoder'.ip = layout.strayIp (i + 1) := by
  obtain ⟨m, rest, hdrop, hlen, -, hdec⟩ := hL.drop_startOf (i := i) (by omega)
  obtain ⟨hdip, hdlen⟩ := hdec decoder.ip rest
  have hrw := BlockLayout.rewritten_of_startsRun hrun
  have hoff : ((encoded.newInstructionOffsets.take n).drop 1)[i + 1 - 1]? = some u32Max := by
    rw [Nat.add_sub_cancel, getElem?_drop_take _ hi, hL.getElem?_offsets (by omega), hrw]
    rfl
  -- the position of the instruction before, rewritten or not if it is the first
  have hprev : prevOffset ((encoded.newInstructionOffsets.take n).drop 1) (i + 1) =
      some (layout.startOf i) := by
    cases i with
    | zero => rfl
    | succ i =>
      have hnot : layout.rewritten (i + 1) = false := by
        simpa [BlockLayout.startsRun, hrw] using hrun
      rw [prevOffset, if_neg (by omega), show i + 1 + 1 - 2 = i by omega,
        getElem?_drop_take _ (by omega), hL.getElem?_offsets (by omega), hnot]
      rfl
  have hpos : decoder.setPosition (layout.startOf i) =
      some { decoder with position := layout.startOf i } := by
    rw [Decoder.setPosition, ht.bytes, if_pos hL.startOf_le]
  have hnext : wrappingAdd decoder.ip m.length = layout.strayIp (i + 1) := by
    have hle := hL.startOf_le (i := i + 1)
    have hlt := hL.lt_wordSize
    have := layout.strayIp_le_startOf (i := i + 1)
    rw [BlockLayout.strayIp_succ_of_startsRun hrun] at this ⊢
    rw [ht.ip, hlen, wrappingAdd_eq (by omega)]
  refine ⟨{ decoder with
    position := layout.startOf i + m.length
    ip := layout.strayIp (i + 1) }, ?_, ht.bytes, rfl⟩
  rw [newIp_of_prevOffset hoff hprev hL.startOf_ne_u32Max hpos]
  simp [Decoder.decodeOut, ht.bytes, hdrop, hdlen, hnext, Instruction.nextIp, hdip]

/-- One round of the loop finds what the table gives for the instruction. -/
theorem newIp_eq (hL : Lays decode insns ip encoded layout)
    (hfit : ip + encoded.codeBuffer.length ≤ wordSize) (hn : n ≤ layout.length) (hi : i + 1 < n)
    (ht : Tracks encoded layout i decoder lastIp) :
    ∃ decoder' lastIp', newIp decode encoded.rip ((encoded.newInstructionOffsets.take n).drop 1)
        (i + 1) decoder lastIp = some (layout.relocTarget ip (i + 1), decoder', lastIp') ∧
      Tracks encoded layout (i + 1) decoder' lastIp' := by
  have hget : ((encoded.newInstructionOffsets.take n).drop 1)[i + 1 - 1]? =
      some (if layout.rewritten (i + 1) then u32Max else layout.startOf (i + 1)) := by
    rw [Nat.add_sub_cancel, getElem?_drop_take _ hi, hL.getElem?_offsets (by omega)]
  have hlt := (hL.startOf_lt_succ (i := i + 1) (by omega)).trans_le hL.startOf_le
  by_cases hrun : layout.startsRun (i + 1) = true
  · -- the decoder pass
    have hrw := BlockLayout.rewritten_of_startsRun hrun
    obtain ⟨decoder', hnew, hbytes, hip⟩ := newIp_of_startsRun hL hn hi ht hrun
    refine ⟨decoder', layout.strayIp (i + 1), ?_, hbytes, hip, fun _ _ => rfl⟩
    rw [hnew, BlockLayout.relocTarget, if_pos hrw]
  · rw [Bool.not_eq_true] at hrun
    have hstray := BlockLayout.strayIp_succ_of_not_startsRun hrun
    cases hrw : layout.rewritten (i + 1) with
    | false =>
      rw [hrw] at hget
      refine ⟨decoder, lastIp, ?_, ht.bytes, ht.ip.trans hstray.symm, fun _ h => ?_⟩
      · rw [if_neg Bool.false_ne_true] at hget
        rw [newIp_of_offset hget hL.startOf_ne_u32Max, hL.rip, wrappingAdd_eq (by omega),
          BlockLayout.relocTarget, hrw, if_neg Bool.false_ne_true]
      · rw [hrw] at h
        cases h
    | true =>
      -- within a run nothing new is found
      rw [hrw] at hget
      obtain ⟨i, rfl⟩ : ∃ j, i = j + 1 := by
        refine ⟨i - 1, (Nat.sub_add_cancel ?_).symm⟩
        by_contra hzero
        obtain rfl : i = 0 := by omega
        simp [BlockLayout.startsRun, hrw] at hrun
      have hbefore : layout.rewritten (i + 1) = true := by
        simpa [BlockLayout.startsRun, hrw] using hrun
      have hprev : prevOffset ((encoded.newInstructionOffsets.take n).drop 1) (i + 1 + 1) =
          some u32Max := by
        rw [prevOffset, if_neg (by omega), show i + 1 + 1 - 2 = i by omega,
          getElem?_drop_take _ (by omega), hL.getElem?_offsets (by omega), hbefore]
        rfl
      have hlast : lastIp = layout.strayIp (i + 1 + 1) :=
        (ht.lastIp (by omega) hbefore).trans hstray.symm
      refine ⟨decoder, lastIp, ?_, ht.bytes, ht.ip.trans hstray.symm, fun _ _ => hlast⟩
      rw [newIp_of_run hget hprev, BlockLayout.relocTarget, if_pos hrw, hlast]

/-- The loop builds the table, from any instruction on. -/
theorem relocLoop_eq (hL : Lays decode insns ip encoded layout)
    (hfit : ip + encoded.codeBuffer.length ≤ wordSize) (hn : n ≤ layout.length)
    {rest : List Instruction} (hrest : i + 1 + rest.length ≤ n)
    (ht : Tracks encoded layout i decoder lastIp) :
    relocLoop decode encoded.rip ((encoded.newInstructionOffsets.take n).drop 1) (i + 1) rest
        decoder lastIp =
      some (rest.mapIdx fun j insn => ⟨insn.ip, layout.relocTarget ip (i + 1 + j)⟩) := by
  induction rest generalizing i decoder lastIp with
  | nil => rfl
  | cons insn rest ih =>
    rw [List.length_cons] at hrest
    obtain ⟨decoder', lastIp', hnew, ht'⟩ := newIp_eq hL hfit hn (by omega) ht
    simp only [relocLoop, hnew, Option.bind_eq_bind, Option.bind_some]
    rw [ih (by omega) ht', Option.bind_some, List.mapIdx_cons]
    simp only [Nat.add_zero, Nat.add_assoc, Nat.add_comm 1]

end Loop

namespace HookSite

variable {encode : Encode} {decode : Decode} {site : HookSite} {ip : ℕ} {encoded : Encoded}
  {layout : BlockLayout}

/-- The jump back is not kept. -/
theorem kept_length_le : site.kept.length ≤ site.insns.length := by
  unfold kept
  split_ifs <;> simp

/-- What `encode_at` returns for a site that keeps an instruction. -/
theorem encodeAt_eq (hkept : site.kept ≠ []) (henc : encode site.insns ip = .ok encoded)
    (hL : Lays decode site.insns ip encoded layout)
    (hfit : ip + encoded.codeBuffer.length ≤ wordSize) :
    site.encodeAt encode decode ip =
      .ok (encoded.codeBuffer, relocTable layout ip site.kept) := by
  have hpos : 0 < site.kept.length := List.length_pos_iff.2 hkept
  have hle := site.kept_length_le
  have hlen := hL.length
  have hoffsets : encoded.newInstructionOffsets.length = layout.length := by simp [hL.offsets]
  have hmax : max site.kept.length 1 = site.kept.length := by omega
  have hinsns : site.insns ≠ [] := List.length_pos_iff.1 (by omega)
  have hcount : min site.kept.length
      (((encoded.newInstructionOffsets.take site.kept.length).drop 1).length + 1) =
      site.kept.length := by
    rw [List.length_drop, List.length_take]
    omega
  have hstart : Tracks encoded layout 0 (.new encoded.codeBuffer) encoded.rip :=
    ⟨rfl, rfl, fun h => absurd h (by omega)⟩
  have hloop := relocLoop_eq hL hfit (show site.kept.length ≤ layout.length by omega)
    (show 0 + 1 + (site.kept.drop 1).length ≤ _ by rw [List.length_drop]; omega) hstart
  simp only [encodeAt, henc, hinsns, and_false, if_false, hmax, hcount, List.take_length]
  rw [if_neg (by omega), hloop]
  simp only [relocTable, Nat.zero_add]

end HookSite

/-! ## When the table is right -/

/-- The table has an entry for every kept instruction but the first, in order, from its
original address to the address of its re-encoding. -/
structure RelocsCorrect (kept : List Instruction) (layout : BlockLayout) (ip : ℕ)
    (relocs : List IpReloc) : Prop where
  length : relocs.length = kept.length - 1
  entry : ∀ i insn, 1 ≤ i → kept[i]? = some insn →
    relocs[i - 1]? = some ⟨insn.ip, ip + layout.startOf i⟩

section Table

variable {kept : List Instruction} {layout : BlockLayout} {ip i : ℕ} {insn : Instruction}

/-- There is an entry for each kept instruction but the first. -/
theorem relocTable_length : (relocTable layout ip kept).length = kept.length - 1 := by
  simp [relocTable]

/-- The entry of an instruction. -/
theorem getElem?_relocTable (hi : 1 ≤ i) (h : kept[i]? = some insn) :
    (relocTable layout ip kept)[i - 1]? = some ⟨insn.ip, layout.relocTarget ip i⟩ := by
  have hadd : 1 + (i - 1) = i := by omega
  rw [relocTable, List.getElem?_mapIdx, List.getElem?_drop, hadd, h, Option.map_some]

/-- A stray address is below the buffer. -/
theorem relocTarget_eq_iff (hip : 0 < ip) :
    layout.relocTarget ip i = ip + layout.startOf i ↔ layout.rewritten i = false := by
  have := layout.strayIp_le_startOf (i := i)
  unfold BlockLayout.relocTarget
  cases layout.rewritten i with
  | true =>
    refine iff_of_false ?_ (by simp)
    rw [if_pos rfl]
    omega
  | false => simp

/-- The table is right exactly if no instruction behind the first was rewritten. -/
theorem relocsCorrect_iff (hip : 0 < ip) :
    RelocsCorrect kept layout ip (relocTable layout ip kept) ↔
      ∀ i, 1 ≤ i → i < kept.length → layout.rewritten i = false := by
  constructor
  · intro h i hi hlt
    have hentry := h.entry i kept[i] hi (List.getElem?_eq_getElem hlt)
    rw [getElem?_relocTable hi (List.getElem?_eq_getElem hlt)] at hentry
    exact (relocTarget_eq_iff hip).1 (IpReloc.mk.inj (Option.some.inj hentry)).2
  · refine fun h => ⟨relocTable_length, fun i insn hi hget => ?_⟩
    obtain ⟨hlt, -⟩ := List.getElem?_eq_some_iff.1 hget
    rw [getElem?_relocTable hi hget, (relocTarget_eq_iff hip).2 (h i hi hlt)]

end Table

/-- The table of an accepted site is right exactly if the encoder rewrote none of the
instructions behind the first. -/
theorem encodeAt_correct_iff {encode : Encode} {decode decode' : Decode} {addr ip : ℕ}
    {bytes : Vector UInt8 disasmLen} {site : HookSite} {encoded : Encoded} {layout : BlockLayout}
    (hsite : HookSite.analyze decode' addr bytes = .ok site) (hip : 0 < ip)
    (henc : encode site.insns ip = .ok encoded) (hL : Lays decode site.insns ip encoded layout)
    (hfit : ip + encoded.codeBuffer.length ≤ wordSize) :
    (∃ relocs, site.encodeAt encode decode ip = .ok (encoded.codeBuffer, relocs) ∧
        RelocsCorrect site.kept layout ip relocs) ↔
      ∀ i, 1 ≤ i → i < site.kept.length → layout.rewritten i = false := by
  have hkept := (HookSite.of_ofInsns (HookSite.ofInsns_of_analyze hsite)).2.2.2
  rw [HookSite.encodeAt_eq hkept henc hL hfit, ← relocsCorrect_iff hip]
  constructor
  · rintro ⟨relocs, heq, hcorrect⟩
    rw [← (Prod.mk.inj (Except.ok.inj heq)).2] at hcorrect
    exact hcorrect
  · exact fun hcorrect => ⟨_, rfl, hcorrect⟩

/-! ## Two sites -/

/-- An encoder's result with a given layout, and pointers behind it. -/
def BlockLayout.encoded (layout : BlockLayout) (pointers : List UInt8) (ip : ℕ) : Encoded where
  rip := ip
  codeBuffer := (layout.map Reencoding.bytes).flatten ++ pointers
  newInstructionOffsets := (List.range layout.length).map fun i =>
    if layout.rewritten i then u32Max else layout.startOf i

/-- `push rbp; sub rsp, 0x30`, behind it `int3`. -/
def pushSubSample : Vector UInt8 disasmLen :=
  ⟨#[0x55, 0x48, 0x83, 0xec, 0x30, 0xcc, 0xcc, 0xcc, 0xcc, 0xcc, 0xcc, 0xcc, 0xcc, 0xcc, 0xcc,
    0xcc, 0xcc, 0xcc, 0xcc], rfl⟩

/-- The site of `pushSubSample`, with the jump back. -/
def pushSubSite : HookSite where
  bytes := pushSubSample
  insns := [⟨.other 2, 0x1000, 1, .next, none, none⟩, ⟨.other 1, 0x1001, 4, .next, none, none⟩,
    .jmpRel32 0x1005]
  minRelAddr := 0x1005
  maxRelAddr := 0x1005
  targetAddr := 0x1000
  trampolineTargetAddr := 0x1005
  willBranch := false

/-- Nothing is rewritten in a buffer close to the target. -/
def pushSubLayout : BlockLayout :=
  [⟨[[0x55]], false⟩, ⟨[[0x48, 0x83, 0xec, 0x30]], false⟩, ⟨[[0xe9, 0, 0xf0, 0xff, 0xff]], false⟩]

/-- An encoder for it. -/
def pushSubEncode : Encode := fun _ ip =>
  .ok (pushSubLayout.encoded [] ip)

/-- `push rbp; call 0x2000`, behind it `int3`. -/
def pushCallSample : Vector UInt8 disasmLen :=
  ⟨#[0x55, 0xe8, 0xfa, 0x0f, 0, 0, 0xcc, 0xcc, 0xcc, 0xcc, 0xcc, 0xcc, 0xcc, 0xcc, 0xcc, 0xcc,
    0xcc, 0xcc, 0xcc], rfl⟩

/-- The site of `pushCallSample`, with the jump back. -/
def pushCallSite : HookSite where
  bytes := pushCallSample
  insns := [⟨.other 2, 0x1000, 1, .next, none, none⟩, ⟨.call 0, 0x1001, 5, .call, none, none⟩,
    .jmpRel32 0x1006]
  minRelAddr := 0x1006
  maxRelAddr := 0x1006
  targetAddr := 0x1000
  trampolineTargetAddr := 0x1006
  willBranch := false

/-- Far from the target the call and the jump back go through pointers behind the code. -/
def pushCallLayout : BlockLayout :=
  [⟨[[0x55]], false⟩, ⟨[[0xff, 0x15, 9, 0, 0, 0]], true⟩, ⟨[[0xff, 0x25, 11, 0, 0, 0]], true⟩]

/-- The two pointers, aligned. -/
def pushCallPointers : List UInt8 :=
  [0xcc, 0xcc, 0xcc, 0, 0x20, 0, 0, 0, 0, 0, 0, 0x06, 0x10, 0, 0, 0, 0, 0, 0]

/-- An encoder for it, with the target of the call behind the code. -/
def pushCallEncode : Encode := fun _ ip =>
  .ok (pushCallLayout.encoded pushCallPointers ip)

theorem analyze_pushSubSample :
    HookSite.analyze decodeSample 0x1000 pushSubSample = .ok pushSubSite :=
  rfl

/-- The layout of the example is one that the encoder may choose. -/
theorem lays_pushSub : Lays decodeSample pushSubSite.insns 0x2000 (pushSubLayout.encoded [] 0x2000)
    pushSubLayout where
  rip := rfl
  length := rfl
  code := ⟨_, rfl⟩
  offsets := rfl
  short := by decide
  machine := by simp [pushSubLayout]
  single := by simp [pushSubLayout]
  decodes := by simp [pushSubLayout, decodeSample, opcodeSample]

/-- So is that of a call far away. -/
theorem lays_pushCall : Lays decodeSample pushCallSite.insns 0x7f0000000000
    (pushCallLayout.encoded pushCallPointers 0x7f0000000000) pushCallLayout where
  rip := rfl
  length := rfl
  code := ⟨_, rfl⟩
  offsets := rfl
  short := by decide
  machine := by simp [pushCallLayout]
  single := by simp [pushCallLayout]
  decodes := by simp [pushCallLayout, decodeSample, opcodeSample]

theorem encodeAt_correct_pushSub :
    ∃ relocs, pushSubSite.encodeAt pushSubEncode decodeSample 0x2000 =
        .ok ((pushSubLayout.encoded [] 0x2000).codeBuffer, relocs) ∧
      RelocsCorrect pushSubSite.kept pushSubLayout 0x2000 relocs :=
  (encodeAt_correct_iff analyze_pushSubSample (by decide) rfl lays_pushSub (by decide)).2
    (by decide)

/-- The entry of the call sends a thread to address 1. -/
theorem encodeAt_pushCall_not_correct :
    HookSite.analyze decodeSample 0x1000 pushCallSample = .ok pushCallSite ∧
      Lays decodeSample pushCallSite.insns 0x7f0000000000
        (pushCallLayout.encoded pushCallPointers 0x7f0000000000) pushCallLayout ∧
      pushCallSite.encodeAt pushCallEncode decodeSample 0x7f0000000000 =
        .ok ((pushCallLayout.encoded pushCallPointers 0x7f0000000000).codeBuffer,
          [⟨0x1001, 1⟩]) ∧
      ¬RelocsCorrect pushCallSite.kept pushCallLayout 0x7f0000000000 [⟨0x1001, 1⟩] := by
  refine ⟨rfl, lays_pushCall, rfl, fun h => ?_⟩
  have hentry := h.entry 1 ⟨.call 0, 0x1001, 5, .call, none, none⟩ le_rfl rfl
  exact absurd hentry (by decide)

end Diversion
