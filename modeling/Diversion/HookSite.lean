import Diversion.Decode

/-!
# The analysis of a hook site

`HookSite::analyze` (src/installer/arch/x86_64/hook_site.rs) decodes the first
`DISASM_LEN` bytes of a function and decides how many of its instructions a 5-byte jump
replaces. They are kept, to be copied to the trampoline; after an unconditional branch the
function is assumed to end and only padding may follow. The decoder is the iced crate's :
the model takes it as a function of the instruction pointer and the bytes left.

`scan` is the loop of `analyze`. `scan_cases` says how it splits a window : instructions
that were kept, then padding, and if it gave up, the instruction it stopped at. The loop
counts the bytes of that last instruction before it looks at it, so an instruction that
starts right behind an assumed end and reaches past the jump counts as room for the jump
(`PassesJump`). `safe_ofInsns_iff` : short of that, what the jump overwrites was kept or is
padding.
-/

namespace Diversion

/-! ## Analysis -/

/-- `HookSite`, the instructions that are included and the addresses they refer to. -/
structure HookSite where
  bytes : Vector UInt8 disasmLen
  insns : List Instruction
  minRelAddr : ℕ
  maxRelAddr : ℕ
  targetAddr : ℕ
  trampolineTargetAddr : ℕ
  willBranch : Bool

/-- What the loop of `analyze` carries. -/
structure Scan where
  minLen : ℕ
  minCount : ℕ
  willBranch : Bool
  minRelAddr : ℕ
  maxRelAddr : ℕ

namespace Scan

/-- Before the first instruction. -/
def start : Scan where
  minLen := 0
  minCount := 0
  willBranch := false
  minRelAddr := usizeMax
  maxRelAddr := 0

/-- Include an instruction : count it, and record its relative address. -/
def keep (s : Scan) (insn : Instruction) : Scan where
  minLen := s.minLen + insn.len
  minCount := s.minCount + 1
  willBranch := insn.isUnconditionalBranch
  minRelAddr := match insn.ipRelMemoryAddress with
    | some relAddr => min s.minRelAddr relAddr
    | none => s.minRelAddr
  maxRelAddr := match insn.ipRelMemoryAddress with
    | some relAddr => max s.maxRelAddr relAddr
    | none => s.maxRelAddr

/-- Count the bytes of an instruction that is not included. -/
def skip (s : Scan) (insn : Instruction) : Scan :=
  { s with minLen := s.minLen + insn.len }

end Scan

/-- The loop of `analyze` over the decoded instructions. -/
def scan : Scan → List Instruction → Scan
  | s, [] => s
  | s, insn :: insns =>
    if insn.isInvalid then s
    else if jmpRelLen ≤ s.minLen then s
    else if s.willBranch then
      -- the bytes are counted before the code is looked at
      if insn.isPadding then scan (s.skip insn) insns else s.skip insn
    else scan (s.keep insn) insns

namespace HookSite

/-- `analyze` after the instructions were decoded. -/
def ofInsns (targetAddr : ℕ) (bytes : Vector UInt8 disasmLen) (insns : List Instruction) :
    Result HookSite :=
  let s := scan .start insns
  if s.minLen < jmpRelLen then .error (.err (.tooShort targetAddr (bytes.toList.take 16)))
  else
    let insns := insns.take s.minCount
    match insns.getLast? with
    | none => .error (.panicked "has >= 1 instructions")
    | some last =>
      if s.willBranch then
        .ok {
          bytes, insns, targetAddr
          minRelAddr := s.minRelAddr
          maxRelAddr := s.maxRelAddr
          trampolineTargetAddr := targetAddr
          willBranch := true }
      else
        -- append a jump back
        .ok {
          bytes, targetAddr
          insns := insns ++ [.jmpRel32 last.nextIp]
          minRelAddr := min s.minRelAddr last.nextIp
          maxRelAddr := max s.maxRelAddr last.nextIp
          trampolineTargetAddr := last.nextIp
          willBranch := false }

/-- `HookSite::analyze`. -/
def analyze (decode : Decode) (targetAddr : ℕ) (bytes : Vector UInt8 disasmLen) :
    Result HookSite := do
  let insns ← decodeInstructions decode targetAddr bytes
  ofInsns targetAddr bytes insns

/-- The original instructions of the site, without the appended jump back. -/
def kept (site : HookSite) : List Instruction :=
  if site.willBranch then site.insns else site.insns.dropLast

end HookSite

/-! ## How the loop splits a window -/

namespace Scan

variable {s : Scan} {insns l : List Instruction}

/-- The scan over instructions that are included. -/
def keepAll (s : Scan) (l : List Instruction) : Scan :=
  l.foldl keep s

/-- The scan over instructions that are not included. -/
def skipAll (s : Scan) (l : List Instruction) : Scan :=
  l.foldl skip s

@[simp] theorem start_minLen : start.minLen = 0 :=
  rfl

@[simp] theorem start_minCount : start.minCount = 0 :=
  rfl

@[simp] theorem skip_minLen (insn : Instruction) : (s.skip insn).minLen = s.minLen + insn.len :=
  rfl

@[simp] theorem skip_minCount (insn : Instruction) : (s.skip insn).minCount = s.minCount :=
  rfl

@[simp] theorem keepAll_minLen : (s.keepAll l).minLen = s.minLen + totalLen l := by
  induction l generalizing s with
  | nil => simp [keepAll]
  | cons insn l ih =>
    have := ih (s := s.keep insn)
    simp only [keepAll, List.foldl_cons, totalLen_cons, keep] at this ⊢
    omega

@[simp] theorem keepAll_minCount : (s.keepAll l).minCount = s.minCount + l.length := by
  induction l generalizing s with
  | nil => simp [keepAll]
  | cons insn l ih =>
    have := ih (s := s.keep insn)
    simp only [keepAll, List.foldl_cons, List.length_cons, keep] at this ⊢
    omega

theorem keepAll_append_willBranch (insn : Instruction) :
    (s.keepAll (l ++ [insn])).willBranch = insn.isUnconditionalBranch := by
  simp [keepAll, keep]

@[simp] theorem skipAll_minLen : (s.skipAll l).minLen = s.minLen + totalLen l := by
  induction l generalizing s with
  | nil => simp [skipAll]
  | cons insn l ih =>
    have := ih (s := s.skip insn)
    simp only [skipAll, List.foldl_cons, totalLen_cons, skip] at this ⊢
    omega

@[simp] theorem skipAll_minCount : (s.skipAll l).minCount = s.minCount := by
  induction l generalizing s with
  | nil => rfl
  | cons insn l ih => exact ih (s := s.skip insn)

@[simp] theorem skipAll_willBranch : (s.skipAll l).willBranch = s.willBranch := by
  induction l generalizing s with
  | nil => rfl
  | cons insn l ih => exact ih (s := s.skip insn)

theorem keepAll_willBranch (hs : s.willBranch = false)
    (hl : ∀ i ∈ l, i.isUnconditionalBranch = false) : (s.keepAll l).willBranch = false := by
  rcases List.eq_nil_or_concat l with rfl | ⟨l, insn, rfl⟩
  · exact hs
  · rw [List.concat_eq_append] at hl ⊢
    rw [keepAll_append_willBranch]
    exact hl insn (by simp)

end Scan

section Loop

variable {s : Scan} {insn : Instruction} {insns rest l : List Instruction}

theorem scan_cons_keep (hinv : insn.isInvalid = false) (hlen : s.minLen < jmpRelLen)
    (hs : s.willBranch = false) : scan s (insn :: rest) = scan (s.keep insn) rest := by
  simp [scan, hinv, hs, Nat.not_le.2 hlen]

theorem scan_cons_skip (hpad : insn.isPadding = true) (hlen : s.minLen < jmpRelLen)
    (hs : s.willBranch = true) : scan s (insn :: rest) = scan (s.skip insn) rest := by
  simp [scan, Instruction.not_isInvalid_of_isPadding hpad, hs, hpad, Nat.not_le.2 hlen]

theorem scan_cons_stop (hinv : insn.isInvalid = false) (hpad : insn.isPadding = false)
    (hlen : s.minLen < jmpRelLen) (hs : s.willBranch = true) :
    scan s (insn :: rest) = s.skip insn := by
  simp [scan, hinv, hs, hpad, Nat.not_le.2 hlen]

/-- Short of the jump's length, instructions that do not end the function are kept. -/
theorem scan_append_of_keep (hs : s.willBranch = false)
    (hl : ∀ i ∈ l, i.isInvalid = false ∧ i.isUnconditionalBranch = false)
    (hlen : s.minLen + totalLen l < jmpRelLen) :
    scan s (l ++ rest) = scan (s.keepAll l) rest := by
  induction l generalizing s with
  | nil => rfl
  | cons insn l ih =>
    obtain ⟨hinv, hunc⟩ := hl insn (by simp)
    rw [totalLen_cons] at hlen
    rw [List.cons_append, scan_cons_keep hinv (by omega) hs,
      ih (s := s.keep insn) hunc (fun i hi => hl i (by simp [hi]))
        (by simp only [Scan.keep]; omega)]
    rfl

/-- Short of the jump's length, padding behind an assumed end is counted. -/
theorem scan_append_of_skip (hs : s.willBranch = true) (hl : ∀ i ∈ l, i.isPadding = true)
    (hlen : s.minLen + totalLen l < jmpRelLen) :
    scan s (l ++ rest) = scan (s.skipAll l) rest := by
  induction l generalizing s with
  | nil => rfl
  | cons insn l ih =>
    have hpad := hl insn (by simp)
    rw [totalLen_cons] at hlen
    rw [List.cons_append, scan_cons_skip hpad (by omega) hs,
      ih (s := s.skip insn) hs (fun i hi => hl i (by simp [hi]))
        (by simp only [Scan.skip]; omega)]
    rfl

/-- Behind an assumed end the loop counts padding, and if another instruction stops it
short of the jump's length, that one as well. -/
theorem scan_of_willBranch (insns : List Instruction) (hs : s.willBranch = true) :
    ∃ pad rest, insns = pad ++ rest ∧
    (∀ i ∈ pad, i.isPadding = true) ∧ (scan s insns = s.skipAll pad ∨
      ∃ insn post, rest = insn :: post ∧ insn.isInvalid = false ∧ insn.isPadding = false ∧
        s.minLen + totalLen pad < jmpRelLen ∧ scan s insns = (s.skipAll pad).skip insn) := by
  induction insns generalizing s with
  | nil => exact ⟨[], [], rfl, by simp, Or.inl rfl⟩
  | cons insn insns ih =>
    by_cases hinv : insn.isInvalid = true
    · exact ⟨[], insn :: insns, rfl, by simp, Or.inl (by simp [scan, hinv, Scan.skipAll])⟩
    by_cases hlen : jmpRelLen ≤ s.minLen
    · exact ⟨[], insn :: insns, rfl, by simp, Or.inl (by simp [scan, hinv, hlen, Scan.skipAll])⟩
    by_cases hpad : insn.isPadding = true
    · have hstep : scan s (insn :: insns) = scan (s.skip insn) insns :=
        scan_cons_skip hpad (by omega) hs
      obtain ⟨pad, rest, rfl, hall, hend⟩ := ih (s := s.skip insn) hs
      refine ⟨insn :: pad, rest, rfl, by simpa [hpad] using hall, ?_⟩
      rw [hstep]
      rcases hend with hend | ⟨i, post, hrest, hi, hip, hlt, hend⟩
      · exact Or.inl hend
      · refine Or.inr ⟨i, post, hrest, hi, hip, ?_, hend⟩
        simp only [Scan.skip] at hlt
        rw [totalLen_cons]
        omega
    · exact ⟨[], insn :: insns, rfl, by simp, Or.inr ⟨insn, insns, rfl, by simpa using hinv,
        by simpa using hpad, by simpa using hlen,
        scan_cons_stop (by simpa using hinv) (by simpa using hpad) (by omega) hs⟩⟩

/-- Until a function is assumed to end, the loop keeps instructions; the one that ends it
is kept too. -/
theorem scan_of_not_willBranch (insns : List Instruction) (hs : s.willBranch = false) : ∃ kept rest,
    insns = kept ++ rest ∧ (∀ i ∈ kept, i.isInvalid = false) ∧
      ((∀ i ∈ kept, i.isUnconditionalBranch = false) ∧ scan s insns = s.keepAll kept ∨
        ∃ pre branch, kept = pre ++ [branch] ∧ (∀ i ∈ pre, i.isUnconditionalBranch = false) ∧
          branch.isUnconditionalBranch = true ∧ scan s insns = scan (s.keepAll kept) rest) := by
  induction insns generalizing s with
  | nil => exact ⟨[], [], rfl, by simp, Or.inl ⟨by simp, rfl⟩⟩
  | cons insn insns ih =>
    by_cases hinv : insn.isInvalid = true
    · exact ⟨[], insn :: insns, rfl, by simp, Or.inl ⟨by simp, by simp [scan, hinv,
        Scan.keepAll]⟩⟩
    by_cases hlen : jmpRelLen ≤ s.minLen
    · exact ⟨[], insn :: insns, rfl, by simp, Or.inl ⟨by simp, by simp [scan, hinv, hlen,
        Scan.keepAll]⟩⟩
    have hstep : scan s (insn :: insns) = scan (s.keep insn) insns :=
      scan_cons_keep (by simpa using hinv) (by omega) hs
    cases hunc : insn.isUnconditionalBranch with
    | true =>
      exact ⟨[insn], insns, rfl, by simpa using hinv,
        Or.inr ⟨[], insn, rfl, by simp, hunc, hstep⟩⟩
    | false =>
      obtain ⟨kept, rest, rfl, hall, hend⟩ := ih (s := s.keep insn) hunc
      refine ⟨insn :: kept, rest, rfl, ?_, ?_⟩
      · simpa [hinv] using hall
      · rw [hstep]
        rcases hend with ⟨hno, hend⟩ | ⟨pre, branch, rfl, hno, hbr, hend⟩
        · exact Or.inl ⟨by simpa [hunc] using hno, hend⟩
        · exact Or.inr ⟨insn :: pre, branch, rfl, by simpa [hunc] using hno, hbr, hend⟩

end Loop

section Window

variable (insns : List Instruction)

/-- The loop splits a window into kept instructions and, behind an unconditional branch,
padding. If it gave up on the next instruction, it counted that one as well. -/
theorem scan_cases : ∃ kept pad rest, insns = kept ++ (pad ++ rest) ∧
    (∀ i ∈ kept, i.isInvalid = false) ∧ (∀ i ∈ pad, i.isPadding = true) ∧
    ((pad = [] ∧ (∀ i ∈ kept, i.isUnconditionalBranch = false) ∧
        scan .start insns = Scan.start.keepAll kept) ∨
      ∃ pre branch, kept = pre ++ [branch] ∧ (∀ i ∈ pre, i.isUnconditionalBranch = false) ∧
        branch.isUnconditionalBranch = true ∧
        (scan .start insns = (Scan.start.keepAll kept).skipAll pad ∨
          ∃ insn post, rest = insn :: post ∧ insn.isInvalid = false ∧ insn.isPadding = false ∧
            totalLen kept + totalLen pad < jmpRelLen ∧
            scan .start insns = ((Scan.start.keepAll kept).skipAll pad).skip insn)) := by
  obtain ⟨kept, rest, rfl, hval, hend⟩ :=
    scan_of_not_willBranch insns (show Scan.start.willBranch = false from rfl)
  rcases hend with ⟨hno, hend⟩ | ⟨pre, branch, rfl, hno, hbr, hend⟩
  · exact ⟨kept, [], rest, rfl, hval, by simp, Or.inl ⟨rfl, hno, hend⟩⟩
  · obtain ⟨pad, rest, rfl, hpad, hend'⟩ :=
      scan_of_willBranch rest
        (((Scan.keepAll_append_willBranch branch).trans hbr :
          (Scan.start.keepAll (pre ++ [branch])).willBranch = true))
    refine ⟨pre ++ [branch], pad, rest, rfl, hval, hpad, Or.inr ⟨pre, branch, rfl, hno, hbr, ?_⟩⟩
    rw [hend]
    simpa [Scan.start] using hend'

/-- The instruction `insn`, number `i` of the window, overlaps the bytes of the jump. -/
def Overlaps (i : ℕ) (insn : Instruction) : Prop :=
  insns[i]? = some insn ∧ totalLen (insns.take i) < jmpRelLen

/-- Number `i` of the window comes after an unconditional branch. -/
def FollowsBranch (i : ℕ) : Prop :=
  ∃ j branch, j < i ∧ insns[j]? = some branch ∧ branch.isUnconditionalBranch = true

/-- What `analyze` is for : an accepted site keeps a prefix of the window, and what the jump
overwrites was kept or is padding after a kept unconditional branch. A window where the
jump would overwrite anything else is refused with an error. -/
structure SafeToOverwrite (result : Result HookSite) : Prop where
  ok : ∀ site, result = .ok site → site.kept <+: insns ∧ ∀ i insn, Overlaps insns i insn →
    site.kept[i]? = some insn ∨ insn.isPadding = true ∧ FollowsBranch site.kept i
  err : (∃ i insn, Overlaps insns i insn ∧
      (insn.isInvalid = true ∨ insn.isPadding = false ∧ FollowsBranch insns i)) →
    ∃ e, result = .error (.err e)

/-- Behind an unconditional branch and padding, all within the jump, an instruction that is
not padding reaches at least to the end of the jump. -/
def PassesJump : Prop :=
  ∃ pre branch pad insn post, insns = (pre ++ [branch]) ++ (pad ++ insn :: post) ∧
    (∀ i ∈ pre ++ [branch], i.isInvalid = false) ∧
    (∀ i ∈ pre, i.isUnconditionalBranch = false) ∧ branch.isUnconditionalBranch = true ∧
    (∀ i ∈ pad, i.isPadding = true) ∧ insn.isInvalid = false ∧ insn.isPadding = false ∧
    totalLen (pre ++ [branch]) + totalLen pad < jmpRelLen ∧
    jmpRelLen ≤ totalLen (pre ++ [branch]) + totalLen pad + insn.len

end Window

/-! ## What the analysis accepts -/

namespace HookSite

variable {addr : ℕ} {bytes : Vector UInt8 disasmLen} {insns kept pad rest : List Instruction}
  {site : HookSite}

/-- The analysis fails with an error if the loop did not find room for the jump. -/
theorem ofInsns_of_lt (h : (scan .start insns).minLen < jmpRelLen) :
    ofInsns addr bytes insns = .error (.err (.tooShort addr (bytes.toList.take 16))) := by
  simp [ofInsns, h]

/-- If the loop found room, it kept an instruction, and the site keeps what it kept. -/
theorem exists_ofInsns (addr : ℕ) (bytes : Vector UInt8 disasmLen)
    (h : jmpRelLen ≤ (scan .start insns).minLen) : ∃ site, ofInsns addr bytes insns = .ok site ∧
      site.kept = insns.take (scan .start insns).minCount ∧
      site.willBranch = (scan .start insns).willBranch ∧ site.kept ≠ [] := by
  have hlast : ∃ last, (insns.take (scan .start insns).minCount).getLast? = some last := by
    obtain ⟨kept, pad, rest, rfl, -, -, hend⟩ := scan_cases insns
    have hcount : ∃ e l, kept = e :: l ∧
        (scan .start (kept ++ (pad ++ rest))).minCount = kept.length := by
      cases kept with
      | nil =>
        rcases hend with ⟨rfl, -, hend⟩ | ⟨pre, branch, hkept, -⟩
        · rw [hend] at h
          simp [jmpRelLen] at h
        · simp at hkept
      | cons e l =>
        refine ⟨e, l, rfl, ?_⟩
        rcases hend with ⟨-, -, hend⟩ | ⟨_, _, -, -, -, hend | ⟨_, _, -, -, -, -, hend⟩⟩ <;>
          rw [hend] <;> simp
    obtain ⟨e, l, rfl, hcount⟩ := hcount
    rw [hcount, List.take_left]
    exact ⟨_, List.getLast?_cons⟩
  obtain ⟨last, hlast⟩ := hlast
  have hne : insns.take (scan .start insns).minCount ≠ [] := by
    intro hnil
    rw [hnil] at hlast
    cases hlast
  simp only [ofInsns, Nat.not_lt.2 h, if_false, hlast]
  cases (scan .start insns).willBranch <;> simpa [HookSite.kept] using hne

theorem ofInsns_ne_panicked (msg : String) : ofInsns addr bytes insns ≠ .error (.panicked msg) := by
  by_cases h : (scan .start insns).minLen < jmpRelLen
  · simp [ofInsns_of_lt h]
  · obtain ⟨site, hsite, -⟩ := exists_ofInsns addr bytes (Nat.not_lt.1 h)
    simp [hsite]

/-- An accepted site : the loop found room, and the site keeps what the loop kept. -/
theorem of_ofInsns (h : ofInsns addr bytes insns = .ok site) :
    jmpRelLen ≤ (scan .start insns).minLen ∧
      site.kept = insns.take (scan .start insns).minCount ∧
      site.willBranch = (scan .start insns).willBranch ∧ site.kept ≠ [] := by
  by_cases hlt : (scan .start insns).minLen < jmpRelLen
  · rw [ofInsns_of_lt hlt] at h
    cases h
  · obtain ⟨site', hsite', hkept, hbranch, hne⟩ :=
      exists_ofInsns addr bytes (Nat.not_lt.1 hlt)
    obtain rfl : site' = site := by
      rw [h] at hsite'
      exact (Except.ok.inj hsite').symm
    exact ⟨Nat.not_lt.1 hlt, hkept, hbranch, hne⟩

end HookSite

section Window

variable {insns : List Instruction} {addr : ℕ} {bytes : Vector UInt8 disasmLen}

/-- On a window where an instruction behind an assumed end passes the jump, the loop counts
that instruction. -/
theorem scan_of_passesJump {pre pad : List Instruction} {branch insn : Instruction}
    (post : List Instruction)
    (hval : ∀ i ∈ pre ++ [branch], i.isInvalid = false)
    (hno : ∀ i ∈ pre, i.isUnconditionalBranch = false)
    (hbr : branch.isUnconditionalBranch = true) (hpad : ∀ i ∈ pad, i.isPadding = true)
    (hinv : insn.isInvalid = false) (hinsn : insn.isPadding = false)
    (hlt : totalLen (pre ++ [branch]) + totalLen pad < jmpRelLen) :
    scan .start ((pre ++ [branch]) ++ (pad ++ insn :: post)) =
      ((Scan.start.keepAll (pre ++ [branch])).skipAll pad).skip insn := by
  have hlen : totalLen (pre ++ [branch]) = totalLen pre + branch.len := by simp
  have hkeep : scan .start ((pre ++ [branch]) ++ (pad ++ insn :: post)) =
      scan (Scan.start.keepAll (pre ++ [branch])) (pad ++ insn :: post) := by
    rw [List.append_assoc, List.singleton_append, scan_append_of_keep rfl
      (fun i hi => ⟨hval i (by simp [hi]), hno i hi⟩) (by rw [Scan.start_minLen]; omega),
      scan_cons_keep (hval branch (by simp)) (by simp; omega)
        (Scan.keepAll_willBranch rfl hno)]
    simp [Scan.keepAll]
  have hs : (Scan.start.keepAll (pre ++ [branch])).willBranch = true :=
    (Scan.keepAll_append_willBranch branch).trans hbr
  have hroom : (Scan.start.keepAll (pre ++ [branch])).minLen + totalLen pad < jmpRelLen := by
    simpa using hlt
  rw [hkeep, scan_append_of_skip hs hpad hroom,
    scan_cons_stop hinv hinsn (by rwa [Scan.skipAll_minLen]) (by rwa [Scan.skipAll_willBranch])]

/-- Such a window is accepted, and the instruction the loop stopped at is overwritten. -/
theorem PassesJump.not_safe (h : PassesJump insns) :
    ¬SafeToOverwrite insns (HookSite.ofInsns addr bytes insns) := by
  obtain ⟨pre, branch, pad, insn, post, rfl, hval, hno, hbr, hpad, hinv, hinsn, hlt, hle⟩ := h
  have hscan := scan_of_passesJump post hval hno hbr hpad hinv hinsn hlt
  have hroom : jmpRelLen ≤ (scan .start ((pre ++ [branch]) ++ (pad ++ insn :: post))).minLen := by
    rw [hscan]
    simpa using hle
  obtain ⟨site, hsite, hkept, -⟩ := HookSite.exists_ofInsns addr bytes hroom
  have hkept : site.kept = pre ++ [branch] := by
    rw [hkept, hscan]
    simp only [Scan.skip_minCount, Scan.skipAll_minCount, Scan.keepAll_minCount,
      Scan.start_minCount, zero_add]
    exact List.take_left
  intro hsafe
  -- the instruction the loop stopped at
  have hover : Overlaps ((pre ++ [branch]) ++ (pad ++ insn :: post))
      ((pre ++ [branch]) ++ pad).length insn := by
    rw [← List.append_assoc]
    refine ⟨by simp, ?_⟩
    rw [List.take_left, totalLen_append]
    exact hlt
  rcases (hsafe.ok site hsite).2 _ insn hover with hmem | ⟨hmem, -⟩
  · rw [hkept, List.getElem?_eq_none (by simp)] at hmem
    cases hmem
  · rw [hinsn] at hmem
    cases hmem

/-- An accepted window where no instruction passes the jump : the kept instructions and the
padding behind them cover the jump. -/
theorem covered_of_not_passesJump {site : HookSite}
    (h : HookSite.ofInsns addr bytes insns = .ok site) (hp : ¬PassesJump insns) :
    ∃ pad rest, insns = site.kept ++ (pad ++ rest) ∧ (∀ i ∈ site.kept, i.isInvalid = false) ∧
      (∀ i ∈ pad, i.isPadding = true) ∧ jmpRelLen ≤ totalLen (site.kept ++ pad) ∧
      (∀ i ∈ site.kept.dropLast, i.isUnconditionalBranch = false) ∧
      (pad ≠ [] → ∃ branch, site.kept.getLast? = some branch ∧
        branch.isUnconditionalBranch = true) := by
  obtain ⟨hroom, hkept, -⟩ := HookSite.of_ofInsns h
  obtain ⟨kept, pad, rest, rfl, hval, hpad, hend⟩ := scan_cases insns
  have hcount : (scan .start (kept ++ (pad ++ rest))).minCount = kept.length := by
    rcases hend with ⟨-, -, hend⟩ | ⟨_, _, -, -, -, hend | ⟨_, _, -, -, -, -, hend⟩⟩ <;>
      rw [hend] <;> simp
  rw [hcount, List.take_left] at hkept
  rw [hkept]
  refine ⟨pad, rest, rfl, hval, hpad, ?_⟩
  rw [totalLen_append]
  rcases hend with ⟨rfl, hno, hend⟩ | ⟨pre, branch, rfl, hno, hbr, hend⟩
  · refine ⟨?_, fun i hi => hno i (List.dropLast_subset _ hi), fun h => absurd rfl h⟩
    rw [hend] at hroom
    simpa using hroom
  · refine ⟨?_, by simpa using hno, fun _ => ⟨branch, by simp, hbr⟩⟩
    rcases hend with hend | ⟨insn, post, rfl, hinv, hinsn, hlt, hend⟩
    · rw [hend] at hroom
      simpa using hroom
    · -- the loop stopped at `insn` : short of the jump it would pass it
      by_contra hshort
      refine hp ⟨pre, branch, pad, insn, post, rfl, hval, hno, hbr, hpad, hinv, hinsn, hlt, ?_⟩
      rw [hend] at hroom
      simpa using hroom

/-- What overlaps the jump is within any prefix that covers it. -/
theorem Overlaps.lt_length {cover rest : List Instruction} {i : ℕ} {insn : Instruction}
    (h : Overlaps (cover ++ rest) i insn) (hcover : jmpRelLen ≤ totalLen cover) :
    i < cover.length := by
  by_contra hge
  have hle : totalLen cover ≤ totalLen ((cover ++ rest).take i) := by
    refine totalLen_le_of_isPrefix ?_
    rw [List.take_append, List.take_of_length_le (by omega)]
    exact List.prefix_append _ _
  have := h.2
  omega

/-- What overlaps the jump on an accepted site, when no instruction passes the jump. -/
theorem overlaps_cases {site : HookSite} (h : HookSite.ofInsns addr bytes insns = .ok site)
    (hp : ¬PassesJump insns) {i : ℕ} {insn : Instruction} (hover : Overlaps insns i insn) :
    (site.kept[i]? = some insn ∧ insn.isInvalid = false ∧ ¬FollowsBranch insns i) ∨
      (insn.isPadding = true ∧ FollowsBranch site.kept i) := by
  obtain ⟨pad, rest, hsplit, hval, hpad, hcover, hno, hlast⟩ := covered_of_not_passesJump h hp
  rw [hsplit, ← List.append_assoc] at hover
  have hi := hover.lt_length hcover
  have hget : (site.kept ++ pad)[i]? = some insn := by
    have := hover.1
    rwa [List.getElem?_append_left hi] at this
  by_cases hik : i < site.kept.length
  · rw [List.getElem?_append_left hik] at hget
    refine Or.inl ⟨hget, hval insn (List.mem_of_getElem? hget), ?_⟩
    rintro ⟨j, branch, hji, hj, hbr⟩
    rw [hsplit, List.getElem?_append_left (by omega)] at hj
    have hmem : branch ∈ site.kept.dropLast := by
      refine List.mem_of_getElem? (i := j) ?_
      rw [List.getElem?_dropLast, if_pos (by omega)]
      exact hj
    rw [hno branch hmem] at hbr
    cases hbr
  · rw [List.length_append] at hi
    rw [List.getElem?_append_right (by omega)] at hget
    obtain ⟨branch, hbranch, hbr⟩ := hlast (List.ne_nil_of_mem (List.mem_of_getElem? hget))
    have hpos : 0 < site.kept.length :=
      List.length_pos_of_mem (List.mem_of_getLast? hbranch)
    refine Or.inr ⟨hpad insn (List.mem_of_getElem? hget), site.kept.length - 1, branch,
      by omega, ?_, hbr⟩
    rw [← List.getLast?_eq_getElem?]
    exact hbranch

/-- The analysis of a window is safe exactly if no instruction behind an assumed end passes
the jump. -/
theorem safe_ofInsns_iff :
    SafeToOverwrite insns (HookSite.ofInsns addr bytes insns) ↔ ¬PassesJump insns := by
  refine ⟨fun hsafe hp => hp.not_safe hsafe, fun hp => ⟨fun site h => ⟨?_, ?_⟩, ?_⟩⟩
  · obtain ⟨-, hkept, -⟩ := HookSite.of_ofInsns h
    rw [hkept]
    exact List.take_prefix _ _
  · intro i insn hover
    exact (overlaps_cases h hp hover).imp And.left id
  · rintro ⟨i, insn, hover, hbad⟩
    cases hres : HookSite.ofInsns addr bytes insns with
    | error e =>
      cases e with
      | err e => exact ⟨e, rfl⟩
      | panicked msg => exact absurd hres (HookSite.ofInsns_ne_panicked msg)
    | ok site =>
      rcases overlaps_cases hres hp hover with ⟨-, hval, hno⟩ | ⟨hpad, -⟩
      · rcases hbad with hinv | ⟨-, hfollows⟩
        · rw [hval] at hinv
          cases hinv
        · exact absurd hfollows hno
      · rcases hbad with hinv | ⟨hnopad, -⟩
        · rw [Instruction.not_isInvalid_of_isPadding hpad] at hinv
          cases hinv
        · rw [hpad] at hnopad
          cases hnopad

end Window

/-! ## Windows of bytes -/

/-- An accepted site is what the analysis makes of the decoded window. -/
theorem HookSite.ofInsns_of_analyze {decode : Decode} {addr : ℕ} {bytes : Vector UInt8 disasmLen}
    {site : HookSite} (h : HookSite.analyze decode addr bytes = .ok site) :
    HookSite.ofInsns addr bytes (decodeWindow decode addr bytes.toList) = .ok site := by
  rcases decodeInstructions_cases decode addr bytes with hok | ⟨-, herr⟩
  · simpa [HookSite.analyze, hok, bind, Except.bind] using h
  · simp [HookSite.analyze, herr, bind, Except.bind] at h

theorem PassesJump.head_valid {insns : List Instruction} (h : PassesJump insns) :
    ∃ first, insns.head? = some first ∧ first.isInvalid = false := by
  obtain ⟨pre, branch, pad, insn, post, rfl, hval, -⟩ := h
  cases pre with
  | nil => exact ⟨branch, rfl, hval branch (by simp)⟩
  | cons first pre => exact ⟨first, rfl, hval first (by simp)⟩

/-- Whatever the decoder makes of the window, the analysis is safe exactly if no
instruction behind an assumed end of the function passes the jump. -/
theorem analyze_safe_iff (decode : Decode) (addr : ℕ) (bytes : Vector UInt8 disasmLen) :
    SafeToOverwrite (decodeWindow decode addr bytes.toList)
        (HookSite.analyze decode addr bytes) ↔
      ¬PassesJump (decodeWindow decode addr bytes.toList) := by
  rcases decodeInstructions_cases decode addr bytes with hok | ⟨hinv, herr⟩
  · simp only [HookSite.analyze, hok, bind, Except.bind]
    exact safe_ofInsns_iff
  · simp only [HookSite.analyze, herr, bind, Except.bind]
    refine iff_of_true ⟨fun site h => absurd h (by simp), fun _ => ⟨_, rfl⟩⟩ fun hp => ?_
    obtain ⟨first, hfirst, hval⟩ := hp.head_valid
    rw [hinv first hfirst] at hval
    cases hval

/-- A one-byte function, followed at once by the next one. -/
def retSample : Vector UInt8 disasmLen :=
  ⟨#[0xc3, 0x48, 0x83, 0xec, 0x30, 0xcc, 0xcc, 0xcc, 0xcc, 0xcc, 0xcc, 0xcc, 0xcc, 0xcc, 0xcc,
    0xcc, 0xcc, 0xcc, 0xcc], rfl⟩

/-- The jump over `ret` overwrites the `sub` of the next function. -/
theorem not_safe_retSample :
    ¬SafeToOverwrite (decodeWindow decodeSample 0x1000 retSample.toList)
      (HookSite.analyze decodeSample 0x1000 retSample) := by
  intro h
  obtain ⟨-, hsafe⟩ := h.ok _ rfl
  rcases hsafe 1 ⟨.other 1, 0x1001, 4, .next, none, none⟩ ⟨rfl, by decide⟩ with hkept | ⟨hpad, -⟩
  · cases hkept
  · cases hpad

end Diversion
