import Diversion.HookSite

/-!
# The size of the window

`analyze` decodes `DISASM_LEN` bytes and no more (src/installer/arch/x86_64.rs) : a 4-byte
instruction followed by a 15-byte one, as the jump can overlap both. The last instruction of
the window may be cut off, and then it decodes as an invalid one. The loop never looks at it :
an instruction that starts within the jump ends within the window (`exists_common_prefix`), and
once the jump is covered the loop stops at whatever comes next (`scan_append_of_covered`). So
the analysis is the one of the whole stream of instructions (`analyze_eq_ofInsns_stream`).
-/

namespace Diversion

/-! ## What the loop looks at -/

section Covered

variable {s : Scan} {insns l : List Instruction}

/-- With the jump covered, the loop does not look at what follows. -/
theorem scan_of_covered (h : jmpRelLen ≤ s.minLen) : scan s l = s := by
  cases l with
  | nil => rfl
  | cons insn l => simp [scan, h]

/-- The loop looks at no more instructions than it takes to cover the jump. -/
theorem scan_append_of_covered (h : jmpRelLen ≤ s.minLen + totalLen insns) :
    scan s (insns ++ l) = scan s insns := by
  induction insns generalizing s with
  | nil => exact scan_of_covered (by simpa using h)
  | cons insn insns ih =>
    rw [totalLen_cons] at h
    have hkeep := ih (s := s.keep insn) (by simp only [Scan.keep]; omega)
    have hskip := ih (s := s.skip insn) (by simp only [Scan.skip]; omega)
    simp only [List.cons_append, scan, hkeep, hskip]

/-- The loop counts instructions that it looked at. -/
theorem scan_minCount_le (s : Scan) (insns : List Instruction) :
    (scan s insns).minCount ≤ s.minCount + insns.length := by
  induction insns generalizing s with
  | nil => exact le_rfl
  | cons insn insns ih =>
    have hkeep : (scan (s.keep insn) insns).minCount ≤ s.minCount + 1 + insns.length := ih _
    have hskip : (scan (s.skip insn) insns).minCount ≤ s.minCount + insns.length := ih _
    have hstop : (s.skip insn).minCount = s.minCount := rfl
    rw [scan, List.length_cons]
    split_ifs <;> omega

/-- What follows the instructions that cover the jump has no part in the analysis. -/
theorem HookSite.ofInsns_append {addr : ℕ} {bytes : Vector UInt8 disasmLen}
    (h : jmpRelLen ≤ totalLen insns) :
    ofInsns addr bytes (insns ++ l) = ofInsns addr bytes insns := by
  have hscan : scan .start (insns ++ l) = scan .start insns :=
    scan_append_of_covered (by simpa using h)
  have hcount := scan_minCount_le .start insns
  rw [Scan.start_minCount, Nat.zero_add] at hcount
  simp only [ofInsns, hscan, List.take_append_of_le_length hcount]

end Covered

/-! ## What the window holds -/

/-- A decoder that reads the bytes of a valid instruction and no others. What an instruction
that is cut off decodes to is left open. -/
structure ReadsOwnBytes (decode : Decode) : Prop extends LawfulDecode decode where
  take : ∀ ip bytes n, bytes ≠ [] → (decode ip bytes).isInvalid = false →
    (decode ip bytes).len ≤ n → decode ip (bytes.take n) = decode ip bytes

/-- A stream of valid instructions. -/
def ValidStream (insns : List Instruction) : Prop :=
  ∀ insn ∈ insns, insn.isInvalid = false ∧ insn.len ≤ maxInsnLen

section Stream

variable {decode : Decode}

/-- Behind `c` bytes of instructions, the stream and the window begin with instructions that
cover the jump. -/
theorem exists_common_prefix (hdecode : ReadsOwnBytes decode) :
    ∀ {fuel fuel' ip c m : ℕ} {bytes : List UInt8}, bytes.length ≤ fuel → m ≤ fuel' →
      ValidStream (decodeLoop decode fuel ip bytes) → disasmLen ≤ c + m → m ≤ bytes.length →
        ∃ common l l', decodeLoop decode fuel ip bytes = common ++ l ∧
          decodeLoop decode fuel' ip (bytes.take m) = common ++ l' ∧
          jmpRelLen ≤ c + totalLen common := by
  intro fuel
  induction fuel with
  | zero =>
    intro fuel' ip c m bytes hlen _ _ hm hle
    refine ⟨[], [], decodeLoop decode fuel' ip (bytes.take m), rfl, rfl, ?_⟩
    have hc : disasmLen ≤ c := by omega
    exact le_trans (by decide) hc
  | succ fuel ih =>
    intro fuel' ip c m bytes hlen hfuel hvalid hm hle
    rcases Nat.lt_or_ge c jmpRelLen with hlt | hge
    · -- the next instruction starts within the jump, so the window holds all of it
      have hroom : maxInsnLen ≤ m := by
        unfold disasmLen at hm
        omega
      have hpos : 0 < maxInsnLen := by decide
      obtain ⟨byte, bytes, rfl⟩ : ∃ b bs, bytes = b :: bs :=
        List.exists_cons_of_length_pos (by omega)
      obtain ⟨fuel', rfl⟩ : ∃ n, fuel' = n + 1 := ⟨fuel' - 1, by omega⟩
      obtain ⟨m, rfl⟩ : ∃ n, m = n + 1 := ⟨m - 1, by omega⟩
      rw [decodeLoop] at hvalid
      obtain ⟨⟨hinv, hmax⟩, hvalid⟩ := List.forall_mem_cons.1 hvalid
      have hone := hdecode.one_le_len ip (byte :: bytes) (by simp)
      have hread : decode ip (byte :: bytes.take m) = decode ip (byte :: bytes) :=
        hdecode.take ip _ (m + 1) (by simp) hinv (hmax.trans hroom)
      obtain ⟨common, l, l', hwhole, hwindow, hcover⟩ :=
        @ih fuel' _ (c + (decode ip (byte :: bytes)).len)
          (m + 1 - (decode ip (byte :: bytes)).len) _
          (by rw [List.length_drop]; omega) (by omega) hvalid (by omega)
          (by rw [List.length_drop]; omega)
      rw [← List.drop_take, List.take_succ_cons] at hwindow
      refine ⟨decode ip (byte :: bytes) :: common, l, l', ?_, ?_, ?_⟩
      · rw [decodeLoop, hwhole, List.cons_append]
      · rw [List.take_succ_cons, decodeLoop, hread, hwindow, List.cons_append]
      · rw [totalLen_cons]
        omega
    · exact ⟨[], _, _, rfl, rfl, by simpa using hge⟩

/-- The analysis of the window is the one of the whole stream. -/
theorem analyze_eq_ofInsns_stream (hdecode : ReadsOwnBytes decode) {addr : ℕ}
    (window : Vector UInt8 disasmLen) (rest : List UInt8)
    (hvalid : ValidStream (decodeWindow decode addr (window.toList ++ rest))) :
    HookSite.analyze decode addr window =
      HookSite.ofInsns addr window (decodeWindow decode addr (window.toList ++ rest)) := by
  have hlen : window.toList.length = disasmLen := by simp
  obtain ⟨common, l, l', hwhole, hwindow, hcover⟩ :=
    exists_common_prefix hdecode (c := 0) (m := disasmLen) le_rfl hlen.ge hvalid (by omega)
      (by rw [List.length_append]; omega)
  rw [Nat.zero_add] at hcover
  rw [List.take_left' hlen] at hwindow
  -- the first instruction is one of the common ones
  have hfirst : ∃ first rest, common = first :: rest := by
    cases common with
    | nil => exact absurd hcover (by decide)
    | cons first rest => exact ⟨first, rest, rfl⟩
  obtain ⟨first, tail, rfl⟩ := hfirst
  have hinv : first.isInvalid = false := by
    refine (hvalid first ?_).1
    rw [decodeWindow, hwhole]
    simp
  have hok : decodeInstructions decode addr window =
      .ok (decodeWindow decode addr window.toList) := by
    refine (decodeInstructions_cases decode addr window).resolve_right fun ⟨hall, _⟩ => ?_
    have hbad := hall first (by rw [decodeWindow, hwindow]; rfl)
    rw [hinv] at hbad
    cases hbad
  calc HookSite.analyze decode addr window
      = HookSite.ofInsns addr window (decodeWindow decode addr window.toList) := by
        simp [HookSite.analyze, hok, bind, Except.bind]
    _ = HookSite.ofInsns addr window (first :: tail) := by
        rw [decodeWindow, hwindow, HookSite.ofInsns_append hcover]
    _ = HookSite.ofInsns addr window (decodeWindow decode addr (window.toList ++ rest)) := by
        rw [decodeWindow, hwhole, HookSite.ofInsns_append hcover]

end Stream

theorem decodeSample_cons (ip : ℕ) (byte : UInt8) (bytes : List UInt8) :
    decodeSample ip (byte :: bytes) =
      if (opcodeSample byte).2.1 ≤ bytes.length + 1 then
        ⟨(opcodeSample byte).1, ip, (opcodeSample byte).2.1, (opcodeSample byte).2.2, none, none⟩
      else ⟨.invalid, ip, bytes.length + 1, .exception, none, none⟩ :=
  rfl

theorem readsOwnBytes_decodeSample : ReadsOwnBytes decodeSample where
  toLawfulDecode := lawfulDecode_decodeSample
  take := by
    intro ip bytes n hne hinv hlen
    obtain ⟨byte, bytes, rfl⟩ := List.exists_cons_of_ne_nil hne
    have hone := lawfulDecode_decodeSample.one_le_len ip _ hne
    obtain ⟨n, rfl⟩ : ∃ k, n = k + 1 := ⟨n - 1, by omega⟩
    rw [List.take_succ_cons, decodeSample_cons, decodeSample_cons, List.length_take]
    rw [decodeSample_cons] at hinv hlen
    by_cases hfits : (opcodeSample byte).2.1 ≤ bytes.length + 1
    · rw [if_pos hfits] at hlen ⊢
      rw [if_pos (by simp only at hlen; omega)]
    · rw [if_neg hfits] at hinv
      cases hinv

/-- Single `push`es, and the first two bytes of an indirect call. -/
def pushesSample : Vector UInt8 disasmLen :=
  ⟨#[0x55, 0x55, 0x55, 0x55, 0x55, 0x55, 0x55, 0x55, 0x55, 0x55, 0x55, 0x55, 0x55, 0x55, 0x55,
    0x55, 0x55, 0xff, 0x15], rfl⟩

theorem analyze_eq_ofInsns_stream_pushesSample :
    HookSite.analyze decodeSample 0x1000 pushesSample =
      HookSite.ofInsns 0x1000 pushesSample
        (decodeWindow decodeSample 0x1000 (pushesSample.toList ++ [0, 1, 0, 0])) :=
  analyze_eq_ofInsns_stream readsOwnBytes_decodeSample pushesSample [0, 1, 0, 0]
    (by unfold ValidStream; decide)

end Diversion
