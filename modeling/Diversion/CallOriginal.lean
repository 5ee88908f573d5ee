import Diversion.Lib.Simulation
import Diversion.PatchedCode
import Diversion.PatchedThreads

/-!
# Calling the original function

The trampoline is what `call_original` calls in place of the function whose beginning the jump
has replaced. A program that was at the target, or anywhere outside of what was written, is
followed through the patched code : the kept instructions run in the trampoline, all others where
they are (`Detour.Corresponds`). `Detour.Goes` says what the program must not do for that. It does
not read what was written, enters the replaced bytes only at the target, never goes to address 0,
and runs no kept instruction that leaves the address of the next one behind, as that would be one
of the trampoline. From outside it comes back to the target only while the thunk leads to the
trampoline : a function that calls itself calls the hook. What the encoder promises is
`Processor.Reencodes` : the code for an instruction does what the instruction does, and goes on
where it would.

`Detour.Intercepts` : a thread that arrives at the target goes on at the thunk's pointer, and the
trampoline is the function as it was. It holds after any successful round of `install` whose thunk
and trampoline are apart from each other and from the bytes of the target (`JmpChain.Apart`).
-/

namespace Diversion

open ByteMemory StateTransition Relation

/-! ## The encoder -/

/-- Where the code for instruction `i` of a block goes on if the instruction goes to `a` : there,
or if that is an instruction of the block, at the code for it. -/
inductive BlockLayout.Leads (layout : BlockLayout) (insns : List Instruction) (ip i a : ℕ) :
    ℕ → Prop
  | outside (h : ∀ insn ∈ insns, insn.ip ≠ a) : Leads layout insns ip i a a
  | inside {j : ℕ} {insn : Instruction} (hget : insns[j]? = some insn) (hip : insn.ip = a) :
    Leads layout insns ip i a (ip + layout.startOf j)
  | next {insn : Instruction} (hget : insns[i]? = some insn) (hnext : insn.nextIp = a)
    (hlt : i + 1 < insns.length) : Leads layout insns ip i a (ip + layout.startOf (i + 1))

/-- The instruction leaves the address of the next one behind, as calls do on the stack and
`SYSCALL` in a register. -/
def Instruction.leavesNextIp (insn : Instruction) : Bool :=
  match insn.flowControl with
  | .call | .indirectCall => true
  | _ => false

/-- The code at `ip` does what the instructions do, but for those that leave the address of the
next one, which is another in the code. -/
def Processor.Reencodes {σ : Type*} (P : Processor σ) (insns : List Instruction) (ip : ℕ)
    (code : List UInt8) (layout : BlockLayout) : Prop :=
  ∀ i insn, insns[i]? = some insn → insn.leavesNextIp = false →
    ∀ (memory : CodeMemory) rest a rest', memory.Holds ip code →
      P.exec memory insn rest = some (a, rest') →
        ∃ b, layout.Leads insns ip i a b ∧
          Reaches₁ (P.step memory) ⟨ip + layout.startOf i, rest⟩ ⟨b, rest'⟩

/-! ## The kept instructions -/

section Kept

variable {decode : Decode} {target : ℕ} {bytes : Vector UInt8 disasmLen} {site : HookSite}
  {insns : List Instruction}

/-- An instruction of a window is decoded from the bytes that the ones before it leave. -/
theorem LawfulDecode.getElem?_eq_decode (h : LawfulDecode decode) :
    ∀ {fuel ip : ℕ} {bytes : List UInt8} {i : ℕ} {insn : Instruction},
      ip + bytes.length < wordSize → (decodeLoop decode fuel ip bytes)[i]? = some insn →
        ∃ off, off = totalLen ((decodeLoop decode fuel ip bytes).take i) ∧ off < bytes.length ∧
          insn = decode (ip + off) (bytes.drop off)
  | 0, _, _, _, _, _, hget => by simp [decodeLoop] at hget
  | _ + 1, _, [], _, _, _, hget => by simp [decodeLoop] at hget
  | fuel + 1, ip, byte :: bytes, 0, insn, _, hget => by
    rw [decodeLoop, List.getElem?_cons_zero] at hget
    exact ⟨0, rfl, Nat.succ_pos _, (Option.some.inj hget).symm⟩
  | fuel + 1, ip, byte :: bytes, i + 1, insn, hfit, hget => by
    have hlen := h.len_le ip (byte :: bytes) (by simp)
    rw [decodeLoop, List.getElem?_cons_succ, wrappingAdd_eq (by omega)] at hget
    obtain ⟨off, hoff, hlt, hinsn⟩ :=
      h.getElem?_eq_decode (by rw [List.length_drop]; omega) hget
    rw [List.length_drop] at hlt
    refine ⟨(decode ip (byte :: bytes)).len + off, ?_, by omega, ?_⟩
    · rw [decodeLoop, List.take_succ_cons, totalLen_cons, wrappingAdd_eq (by omega), hoff]
    · rw [hinsn, List.drop_drop, Nat.add_assoc]

/-- What an accepted site keeps, and what it appends. -/
theorem HookSite.kept_of_ofInsns (h : HookSite.ofInsns target bytes insns = .ok site) :
    site.kept <+: insns ∧ (∀ insn ∈ site.kept, insn.isInvalid = false) ∧ site.kept ≠ [] ∧
      (site.willBranch = true ∧ site.insns = site.kept ∧ site.trampolineTargetAddr = target ∨
        jmpRelLen ≤ totalLen site.kept ∧
          site.insns = site.kept ++ [.jmpRel32 site.trampolineTargetAddr] ∧
          ∀ last, site.kept.getLast? = some last → site.trampolineTargetAddr = last.nextIp) := by
  obtain ⟨hroom, hkept, hbranch, hne⟩ := HookSite.of_ofInsns h
  obtain ⟨kept, pad, rest, hinsns, hval, -, hend⟩ := scan_cases insns
  have hcount : (scan .start insns).minCount = kept.length := by
    rcases hend with ⟨-, -, hend⟩ | ⟨_, _, -, -, -, hend | ⟨_, _, -, -, -, -, hend⟩⟩ <;>
      rw [hend] <;> simp
  have hkept' : site.kept = kept := by
    rw [hkept, hcount, hinsns, List.take_left]
  refine ⟨hkept ▸ List.take_prefix _ _, hkept' ▸ hval, hne, ?_⟩
  unfold HookSite.ofInsns at h
  simp only [Nat.not_lt.2 hroom, if_false, ← hkept] at h
  cases hlast : site.kept.getLast? with
  | none =>
    simp only [hlast, reduceCtorEq] at h
  | some last =>
    simp only [hlast] at h
    cases hwill : (scan .start insns).willBranch with
    | true =>
      simp only [hwill, if_true] at h
      have hsite := (Except.ok.inj h).symm
      exact Or.inl ⟨congrArg HookSite.willBranch hsite, congrArg HookSite.insns hsite,
        congrArg HookSite.trampolineTargetAddr hsite⟩
    | false =>
      simp only [hwill, Bool.false_eq_true, if_false] at h
      have hlen : (scan .start insns).minLen = totalLen kept := by
        rcases hend with ⟨-, -, hend⟩ | ⟨pre, branch, rfl, -, hbr, hend⟩
        · simp [hend]
        · have hends : (scan .start insns).willBranch = true := by
            rcases hend with hend | ⟨_, _, -, -, -, -, hend⟩ <;>
              simp [hend, Scan.skip, Scan.keepAll_append_willBranch, hbr]
          rw [hwill] at hends
          cases hends
      have hsite := (Except.ok.inj h).symm
      have hend' : site.trampolineTargetAddr = last.nextIp :=
        congrArg HookSite.trampolineTargetAddr hsite
      refine Or.inr ⟨by rw [hkept', ← hlen]; exact hroom, ?_, fun _ heq => ?_⟩
      · rw [hend']
        exact congrArg HookSite.insns hsite
      · rw [← Option.some.inj heq, hend']

end Kept

/-! ## A detour -/

/-- A program and the chain that was installed in it, where the jump changes `changed` bytes. -/
structure Detour (σ : Type*) where
  processor : Processor σ
  memory : CodeMemory
  target : ℕ
  site : HookSite
  chain : JmpChain
  code : List UInt8
  layout : BlockLayout
  changed : ℕ

namespace Detour

variable {σ : Type*} (D : Detour σ)

/-- The code while the thunk holds `ptr`. -/
def patched (ptr : ℕ) : CodeMemory :=
  D.chain.memory D.target D.site D.code ptr D.memory

/-- The instruction at an address before the patch. -/
def insnAt (ip : ℕ) : Instruction :=
  D.processor.insnAt D.memory ip

/-- No byte of the instruction at `ip` was written. -/
def Intact (ip : ℕ) : Prop :=
  ∀ k < (D.insnAt ip).len, ip + k ∉ D.chain.Written D.target D.changed D.code

/-- The program's thread `s` is at `t` in the patched code : where it was, or in the trampoline at
the code for a kept instruction. -/
structure Corresponds (s t : ThreadState σ) : Prop where
  rest : t.rest = s.rest
  ip : t.ip = s.ip ∧ s.ip ≠ D.target ∧ D.Intact s.ip ∨
    ∃ (i : ℕ) (insn : Instruction), D.site.kept[i]? = some insn ∧ s.ip = insn.ip ∧
      t.ip = D.chain.thunkPtr + D.layout.startOf i

/-- A step of the program that does not depend on what was written : it reads none of it, is none
of a kept instruction that leaves the address of the next one behind, and goes to the target, to an
instruction that is intact, behind the kept ones, or from a replaced instruction to a kept one, but
not to address 0. An intact instruction goes to the target only while the thunk leads to the
trampoline; a replaced one that goes there stays in the trampoline. -/
structure Goes (ptr : ℕ) (s s' : ThreadState σ) : Prop where
  step : D.processor.step D.memory s = some s'
  reads : D.processor.exec (D.patched ptr) (D.insnAt s.ip) s.rest =
    D.processor.exec D.memory (D.insnAt s.ip) s.rest
  call : ∀ insn ∈ D.site.kept, s.ip = insn.ip → insn.leavesNextIp = false
  lands : s'.ip = D.target ∨ D.Intact s'.ip ∨ s'.ip = D.site.trampolineTargetAddr ∨
    ¬D.Intact s.ip ∧ ∃ insn ∈ D.site.kept, s'.ip = insn.ip
  ne_zero : s'.ip ≠ 0
  hooked : D.Intact s.ip → s'.ip = D.target → ptr = D.chain.thunkPtr

/-- The chain was built for the site, and the parts promise what they should. -/
structure Installed : Prop where
  lawful : D.processor.Lawful
  analyze : HookSite.analyze D.processor.decode D.target D.site.bytes = .ok D.site
  holds : D.memory.Holds D.target D.site.bytes.toList
  jmpRel : JmpRel.encode D.target D.chain.thunk.start = some D.chain.jmpRel
  keeps : D.chain.jmpRel.Keeps D.site.bytes D.changed
  changed_le : D.changed ≤ jmpRelLen
  apart : D.chain.Apart D.target D.code
  reencodes : D.processor.Reencodes D.site.insns D.chain.thunkPtr D.code D.layout

/-- Kept instruction `i` is at its place in the program, behind those before it. -/
structure IsKept (i : ℕ) (insn : Instruction) : Prop where
  insnAt : D.insnAt insn.ip = insn
  one_le_len : 1 ≤ insn.len
  ip : insn.ip = D.target + totalLen (D.site.kept.take i)
  nextIp : insn.nextIp = D.target + totalLen (D.site.kept.take (i + 1))
  le : totalLen (D.site.kept.take (i + 1)) ≤ disasmLen

variable {D} {ptr i : ℕ} {insn : Instruction} {s s' t : ThreadState σ}

namespace Installed

/-- A thread at the target goes on at the thunk's pointer. -/
theorem reaches_ptr (h : D.Installed) (hptr : ptr < wordSize) (rest : σ) :
    Reaches₁ (D.processor.step (D.patched ptr)) ⟨D.target, rest⟩ ⟨ptr, rest⟩ := by
  have htarget := h.apart.target_le
  obtain ⟨hdisp, hmin, hmax⟩ := (JmpRel.encode_eq_some_iff (by
    unfold JmpChain.windowEnd at htarget; omega) h.apart.thunk_le).1 h.jmpRel
  have hthunk : D.processor.step (D.patched ptr) ⟨D.target, rest⟩ =
      some ⟨D.chain.thunk.start, rest⟩ :=
    h.lawful.step_jmpRel _ D.target _ D.chain.jmpRel.disp rest JmpChain.holds_jmpRel hmin hmax
      (by omega)
  have hbytes : (D.patched ptr).Holds D.chain.thunk.start (Thunk.asBytes ptr) :=
    JmpChain.holds_thunk h.apart
  have hjmp : (D.patched ptr).Holds D.chain.thunk.start
      (JmpAbs.asBytes ⟨Thunk.ptrOffset - JmpAbs.len⟩) := by
    intro i byte hbyte
    refine hbytes i byte ?_
    have hi := (List.getElem?_eq_some_iff.1 hbyte).1
    rw [Thunk.asBytes, List.append_assoc, List.getElem?_append_left hi, hbyte]
  have hptr' : D.processor.step (D.patched ptr) ⟨D.chain.thunk.start, rest⟩ = some ⟨ptr, rest⟩ := by
    have hload : load (D.patched ptr) (D.chain.thunk.start + Thunk.ptrOffset) 8 = leBytes 8 ptr :=
      JmpChain.load_ptr h.apart
    rw [h.lawful.step_jmpAbs _ _ (D.chain.thunk.start + Thunk.ptrOffset) _ rest hjmp (by decide)
      (by decide) (by push_cast; omega), hload, leValue_leBytes,
      show ptr % 256 ^ 8 = ptr from Nat.mod_eq_of_lt hptr]
  exact TransGen.head (Option.mem_def.2 hthunk) (TransGen.single (Option.mem_def.2 hptr'))

theorem isKept (h : D.Installed) (hi : D.site.kept[i]? = some insn) : D.IsKept i insn := by
  have htarget := h.apart.target_le
  obtain ⟨hahead, hval, -, -⟩ := HookSite.kept_of_ofInsns (HookSite.ofInsns_of_analyze h.analyze)
  have hlen := JmpRel.length_bytes D.site.bytes
  have hwindow :
      (decodeWindow D.processor.decode D.target D.site.bytes.toList)[i]? = some insn := by
    obtain ⟨rest, hrest⟩ := hahead
    rw [← hrest, List.getElem?_append_left (List.getElem?_eq_some_iff.1 hi).1, hi]
  have hinv := hval insn (List.mem_of_getElem? hi)
  have hfit : D.target + D.site.bytes.toList.length < wordSize := by
    unfold JmpChain.windowEnd disasmLen jmpRelLen maxInsnLen isizeMax at htarget
    unfold wordSize
    omega
  obtain ⟨off, hoff, hlt, hinsn⟩ := h.lawful.getElem?_eq_decode hfit hwindow
  have htake : (decodeWindow D.processor.decode D.target D.site.bytes.toList).take i =
      D.site.kept.take i := by
    obtain ⟨rest, hrest⟩ := hahead
    rw [← hrest, List.take_append_of_le_length (List.getElem?_eq_some_iff.1 hi).1.le]
  rw [show decodeLoop D.processor.decode _ D.target D.site.bytes.toList =
    decodeWindow D.processor.decode D.target D.site.bytes.toList from rfl, htake] at hoff
  have hne : D.site.bytes.toList.drop off ≠ [] := by
    rw [Ne, List.drop_eq_nil_iff]
    omega
  have hip : insn.ip = D.target + off := by
    rw [hinsn, h.lawful.ip _ _ hne]
  have hle : insn.len ≤ (D.site.bytes.toList.drop off).length := by
    conv_lhs => rw [hinsn]
    exact h.lawful.len_le _ _ hne
  have hmax : insn.len ≤ maxInsnLen := by
    conv_lhs => rw [hinsn]
    exact h.lawful.len_le_max _ _ hne (hinsn ▸ hinv)
  have hone : 1 ≤ insn.len := by
    conv_rhs => rw [hinsn]
    exact h.lawful.one_le_len _ _ hne
  rw [List.length_drop] at hle
  have hsucc : totalLen (D.site.kept.take (i + 1)) = off + insn.len := by
    obtain ⟨hik, rfl⟩ := List.getElem?_eq_some_iff.1 hi
    rw [List.take_succ_eq_append_getElem hik, totalLen_append, hoff, totalLen_cons, totalLen_nil]
    rfl
  refine ⟨?_, hone, by rw [hip, hoff], ?_, ?_⟩
  · -- the bytes at the instruction are those of the window
    rw [hip]
    conv_rhs => rw [hinsn]
    refine h.lawful.congr _ _ _ hne (hinsn ▸ hinv) ?_
    rw [← hinsn]
    refine List.ext_getElem? fun j => ?_
    rw [List.getElem?_take, List.getElem?_take]
    split_ifs with hj
    · have hget : D.site.bytes.toList[off + j]? = some D.site.bytes.toList[off + j] :=
        List.getElem?_eq_getElem (by omega)
      rw [getElem?_load, if_pos (by omega), List.getElem?_drop, hget, ← h.holds _ _ hget,
        Nat.add_assoc]
    · rfl
  · rw [Instruction.nextIp, hip, wrappingAdd_eq (by omega), hsucc, Nat.add_assoc]
  · rw [hsucc]
    exact le_trans (by omega) hlen.le

/-- The first kept instruction is the one at the target, and the code for it starts the
trampoline. -/
theorem corresponds_target (h : D.Installed) (hs : s.ip = D.target) :
    D.Corresponds s ⟨D.chain.thunkPtr, s.rest⟩ := by
  obtain ⟨-, -, hne, -⟩ := HookSite.kept_of_ofInsns (HookSite.ofInsns_of_analyze h.analyze)
  obtain ⟨first, hfirst⟩ : ∃ first, D.site.kept[0]? = some first :=
    ⟨_, List.getElem?_eq_getElem (List.length_pos_iff.2 hne)⟩
  exact ⟨rfl, Or.inr ⟨0, first, hfirst, hs.trans (h.isKept hfirst).ip.symm, rfl⟩⟩

/-- An intact instruction is the same in the patched code. -/
theorem insnAt_patched (h : D.Installed) {ip : ℕ} (hip : D.Intact ip)
    (hinv : (D.insnAt ip).isInvalid = false) :
    D.processor.insnAt (D.patched ptr) ip = D.insnAt ip := by
  have hne : load D.memory ip maxInsnLen ≠ [] :=
    List.ne_nil_of_length_pos (by rw [length_load]; decide)
  have hmax := h.lawful.len_le_max ip _ hne hinv
  refine h.lawful.congr ip _ _ hne hinv (List.ext_getElem? fun j => ?_)
  rw [List.getElem?_take, List.getElem?_take]
  split_ifs with hj
  · rw [getElem?_load, getElem?_load, if_pos (by omega), if_pos (by omega), patched,
      JmpChain.memory_of_not_written h.holds h.keeps h.changed_le (hip j hj)]
  · rfl

theorem totalLen_kept (h : D.Installed) : totalLen D.site.kept ≤ disasmLen ∧
    ∀ last, D.site.kept.getLast? = some last →
      last.nextIp = D.target + totalLen D.site.kept := by
  obtain ⟨-, -, hne, -⟩ := HookSite.kept_of_ofInsns (HookSite.ofInsns_of_analyze h.analyze)
  have hpos := List.length_pos_iff.2 hne
  have hlast : D.site.kept[D.site.kept.length - 1]? = some D.site.kept[D.site.kept.length - 1] :=
    List.getElem?_eq_getElem (by omega)
  have hnext := (h.isKept hlast).nextIp
  have hle := (h.isKept hlast).le
  rw [Nat.sub_add_cancel hpos, List.take_length] at hnext hle
  refine ⟨hle, fun last heq => ?_⟩
  rw [List.getLast?_eq_getElem?, hlast] at heq
  rw [← Option.some.inj heq, hnext]

theorem totalLen_take_lt (h : D.Installed) (hi : i < D.site.kept.length) :
    totalLen (D.site.kept.take i) < totalLen D.site.kept := by
  have hpos : ∀ insn ∈ D.site.kept, 1 ≤ insn.len := by
    intro insn hinsn
    obtain ⟨j, hj⟩ := List.getElem?_of_mem hinsn
    exact (h.isKept hj).one_le_len
  have hlt := Diversion.totalLen_take_lt hpos hi le_rfl
  rwa [List.take_length] at hlt

/-- The site goes on nowhere, or behind the kept instructions, where nothing was written. -/
theorem trampolineTargetAddr_cases (h : D.Installed) :
    D.site.insns = D.site.kept ∧ D.site.trampolineTargetAddr = D.target ∨
      D.site.insns = D.site.kept ++ [.jmpRel32 D.site.trampolineTargetAddr] ∧
        D.site.trampolineTargetAddr = D.target + totalLen D.site.kept ∧
        D.Intact D.site.trampolineTargetAddr := by
  obtain ⟨hkept, hlast⟩ := h.totalLen_kept
  obtain ⟨-, -, hne, ⟨-, hinsns, htarget⟩ | ⟨hlen, hinsns, hend⟩⟩ :=
    HookSite.kept_of_ofInsns (HookSite.ofInsns_of_analyze h.analyze)
  · exact Or.inl ⟨hinsns, htarget⟩
  obtain ⟨last, hget⟩ : ∃ last, D.site.kept.getLast? = some last :=
    ⟨_, List.getLast?_eq_some_getLast hne⟩
  have haddr := (hend last hget).trans (hlast last hget)
  refine Or.inr ⟨hinsns, haddr, fun k hk => ?_⟩
  have hload : load D.memory D.site.trampolineTargetAddr maxInsnLen ≠ [] :=
    List.ne_nil_of_length_pos (by rw [length_load]; decide)
  have hmax : (D.insnAt D.site.trampolineTargetAddr).len ≤ maxInsnLen :=
    (h.lawful.len_le _ _ hload).trans length_load.le
  have hthunk := h.apart.thunk
  have htrampoline := h.apart.trampoline
  have hchanged := h.changed_le
  unfold JmpChain.windowEnd at hthunk htrampoline
  simp only [JmpChain.Written, Set.mem_union, Set.mem_Ico, not_or, not_and, not_lt]
  omega

/-- A thread that arrives at the target, or at an intact instruction, is followed there, and from
the target through the thunk. -/
theorem reaches_of_lands (h : D.Installed) (hptr : ptr < wordSize)
    (hlands : s.ip = D.target ∨ D.Intact s.ip)
    (hhooked : s.ip = D.target → ptr = D.chain.thunkPtr) :
    ∃ t, Reaches (D.processor.step (D.patched ptr)) s t ∧ D.Corresponds s t := by
  obtain ⟨ip, rest⟩ := s
  by_cases hip : ip = D.target
  · subst hip
    obtain rfl := hhooked rfl
    exact ⟨_, (h.reaches_ptr hptr rest).to_reflTransGen, h.corresponds_target rfl⟩
  · exact ⟨_, ReflTransGen.refl, rfl, Or.inl ⟨rfl, hip, hlands.resolve_left hip⟩⟩

/-- A step of an intact instruction. -/
theorem reaches₁_of_intact (h : D.Installed) (hptr : ptr < wordSize) (hgoes : D.Goes ptr s s')
    (hip : D.Intact s.ip) :
    ∃ t, Reaches₁ (D.processor.step (D.patched ptr)) s t ∧ D.Corresponds s' t := by
  have hexec := Processor.step_eq_some.1 hgoes.step
  have hinv : (D.insnAt s.ip).isInvalid = false := by
    rw [← Bool.not_eq_true]
    intro hinv
    rw [show D.processor.insnAt D.memory s.ip = D.insnAt s.ip from rfl,
      h.lawful.exec_invalid _ _ _ hinv] at hexec
    cases hexec
  have hstep : D.processor.step (D.patched ptr) s = some s' := by
    rw [Processor.step_eq_some, h.insnAt_patched hip hinv, hgoes.reads]
    exact hexec
  have hlands : s'.ip = D.target ∨ D.Intact s'.ip := by
    rcases hgoes.lands with htarget | hintact | hend | ⟨hnot, -⟩
    · exact Or.inl htarget
    · exact Or.inr hintact
    · rw [hend]
      exact h.trampolineTargetAddr_cases.imp And.right fun hcase => hcase.2.2
    · exact absurd hip hnot
  obtain ⟨t, hreaches, ht⟩ := h.reaches_of_lands hptr hlands (hgoes.hooked hip)
  exact ⟨t, TransGen.head' (Option.mem_def.2 hstep) hreaches, ht⟩

/-- The jump back goes behind the kept instructions. -/
theorem reaches₁_of_jmpBack (h : D.Installed) (ptr : ℕ) (rest : σ)
    (hinsns : D.site.insns = D.site.kept ++ [.jmpRel32 D.site.trampolineTargetAddr])
    (hend : D.site.trampolineTargetAddr = D.target + totalLen D.site.kept) :
    Reaches₁ (D.processor.step (D.patched ptr))
      ⟨D.chain.thunkPtr + D.layout.startOf D.site.kept.length, rest⟩
      ⟨D.site.trampolineTargetAddr, rest⟩ := by
  have hpos := h.apart.target_pos
  have hget : D.site.insns[D.site.kept.length]? = some (.jmpRel32 D.site.trampolineTargetAddr) := by
    rw [hinsns, List.getElem?_append_right le_rfl, Nat.sub_self, List.getElem?_cons_zero]
  obtain ⟨b, hleads, hreaches⟩ := h.reencodes _ _ hget rfl (D.patched ptr) rest _ rest
    (JmpChain.holds_code h.apart) (h.lawful.exec_jmpRel32 _ _ rest)
  cases hleads with
  | outside => exact hreaches
  | @inside j insn hj hip =>
    -- the instructions of the block are before that address, and the jump itself has none
    rw [hinsns] at hj
    rcases Nat.lt_trichotomy j D.site.kept.length with hlt | rfl | hgt
    · rw [List.getElem?_append_left hlt] at hj
      have hbefore := h.totalLen_take_lt hlt
      have := (h.isKept hj).ip
      omega
    · rw [List.getElem?_append_right le_rfl, Nat.sub_self, List.getElem?_cons_zero] at hj
      obtain rfl := Option.some.inj hj
      have hzero : 0 = D.site.trampolineTargetAddr := hip
      omega
    · rw [List.getElem?_eq_none (by rw [List.length_append, List.length_singleton]; omega)] at hj
      cases hj
  | next _ _ hlt =>
    rw [hinsns, List.length_append, List.length_singleton] at hlt
    omega

/-- A step of a kept instruction, in the trampoline. -/
theorem reaches₁_of_kept (h : D.Installed) (hgoes : D.Goes ptr s s')
    (hget : D.site.kept[i]? = some insn) (hip : s.ip = insn.ip) :
    ∃ t, Reaches₁ (D.processor.step (D.patched ptr))
      ⟨D.chain.thunkPtr + D.layout.startOf i, s.rest⟩ t ∧ D.Corresponds s' t := by
  have hkept := h.isKept hget
  have hi : i < D.site.kept.length := (List.getElem?_eq_some_iff.1 hget).1
  have hexec := Processor.step_eq_some.1 hgoes.step
  have hreads := hgoes.reads
  have hinsn : D.processor.insnAt D.memory s.ip = insn := hip ▸ hkept.insnAt
  rw [hinsn] at hexec
  rw [show D.insnAt s.ip = insn from hinsn, hexec] at hreads
  have hblock : ∀ {j : ℕ} {insn : Instruction}, D.site.kept[j]? = some insn →
      D.site.insns[j]? = some insn := by
    intro j insn hj
    rcases h.trampolineTargetAddr_cases with ⟨hinsns, -⟩ | ⟨hinsns, -⟩
    · rw [hinsns, hj]
    · rw [hinsns, List.getElem?_append_left (List.getElem?_eq_some_iff.1 hj).1, hj]
  obtain ⟨b, hleads, hreaches⟩ := h.reencodes _ _ (hblock hget)
    (hgoes.call insn (List.mem_of_getElem? hget) hip) (D.patched ptr) _ _ _
    (JmpChain.holds_code h.apart) hreads
  have harrives : ∀ {j : ℕ} {insn : Instruction}, D.site.kept[j]? = some insn → s'.ip = insn.ip →
      D.Corresponds s' ⟨D.chain.thunkPtr + D.layout.startOf j, s'.rest⟩ :=
    fun hj hip => ⟨rfl, Or.inr ⟨_, _, hj, hip, rfl⟩⟩
  cases hleads with
  | outside hout =>
    have hnot : ∀ kept ∈ D.site.kept, s'.ip ≠ kept.ip := by
      intro kept hmem heq
      obtain ⟨j, hj⟩ := List.getElem?_of_mem hmem
      exact hout kept (List.mem_of_getElem? (hblock hj)) heq.symm
    have htarget : s'.ip ≠ D.target := by
      obtain ⟨first, hfirst⟩ : ∃ first, D.site.kept[0]? = some first :=
        ⟨_, List.getElem?_eq_getElem (Nat.zero_lt_of_lt hi)⟩
      exact fun heq => hnot first (List.mem_of_getElem? hfirst)
        (heq.trans (h.isKept hfirst).ip.symm)
    refine ⟨_, hreaches, rfl, Or.inl ⟨rfl, htarget, ?_⟩⟩
    rcases hgoes.lands with heq | hintact | hend | ⟨-, kept, hmem, heq⟩
    · exact absurd heq htarget
    · exact hintact
    · rcases h.trampolineTargetAddr_cases with ⟨-, heq⟩ | ⟨-, -, hintact⟩
      · exact absurd (hend.trans heq) htarget
      · exact hend ▸ hintact
    · exact absurd heq (hnot kept hmem)
  | @inside j other hj hother =>
    have hj' : D.site.kept[j]? = some other := by
      rcases h.trampolineTargetAddr_cases with ⟨hinsns, -⟩ | ⟨hinsns, -⟩
      · rw [← hinsns, hj]
      · -- nothing goes to the jump back, which has no address
        rw [hinsns, List.getElem?_append] at hj
        split_ifs at hj with hlt
        · exact hj
        · obtain rfl := List.mem_singleton.1 (List.mem_of_getElem? hj)
          exact absurd hother.symm hgoes.ne_zero
    exact ⟨_, hreaches, harrives hj' hother.symm⟩
  | @next other hother hnext hlt =>
    obtain rfl := Option.some.inj (hother.symm.trans (hblock hget))
    rw [hkept.nextIp] at hnext
    by_cases hlast : i + 1 < D.site.kept.length
    · have hget' := List.getElem?_eq_getElem hlast
      exact ⟨_, hreaches, harrives hget' (hnext.symm.trans (h.isKept hget').ip.symm)⟩
    · rcases h.trampolineTargetAddr_cases with ⟨hinsns, -⟩ | ⟨hinsns, hend, hintact⟩
      · rw [hinsns] at hlt
        exact absurd hlt hlast
      · obtain hlen : i + 1 = D.site.kept.length := by omega
        rw [hlen, List.take_length, ← hend] at hnext
        rw [hlen] at hreaches
        have hback := h.reaches₁_of_jmpBack ptr s'.rest hinsns hend
        have hpos := h.totalLen_take_lt (Nat.zero_lt_of_lt hi)
        rw [List.take_zero, totalLen_nil] at hpos
        exact ⟨_, hreaches.trans hback, rfl, Or.inl ⟨hnext, by omega, hnext ▸ hintact⟩⟩

/-- The patched code follows the program. -/
theorem simulates (h : D.Installed) (hptr : ptr < wordSize) :
    Simulates (D.Goes ptr) (D.processor.step (D.patched ptr)) D.Corresponds := by
  intro s s' t hst hgoes
  obtain ⟨hrest, ⟨hip, -, hintact⟩ | ⟨i, insn, hget, hip, hip'⟩⟩ := hst
  · obtain rfl : t = s := by
      cases t
      cases s
      simp only [ThreadState.mk.injEq]
      exact ⟨hip, hrest⟩
    exact h.reaches₁_of_intact hptr hgoes hintact
  · obtain rfl : t = ⟨D.chain.thunkPtr + D.layout.startOf i, s.rest⟩ := by
      cases t
      simp only [ThreadState.mk.injEq]
      exact ⟨hip', hrest⟩
    exact h.reaches₁_of_kept hgoes hget hip

end Installed

/-- What a hook relies on while the thunk holds `ptr` : another pointer can be stored there, a
thread that arrives at the target goes on at `ptr`, the trampoline is the function as it was, and
the patched code follows the program and does nothing else until the program stops or no longer
goes on as it should. -/
structure Intercepts (D : Detour σ) (ptr : ℕ) : Prop where
  updates : ∀ ptr', store (D.patched ptr) (D.chain.installer D.target).thunk (leBytes 8 ptr') =
    D.patched ptr'
  hook : ∀ rest, Reaches₁ (D.processor.step (D.patched ptr)) ⟨D.target, rest⟩ ⟨ptr, rest⟩
  original : ∀ rest, D.Corresponds ⟨D.target, rest⟩ ⟨D.chain.thunkPtr, rest⟩
  follows : ∀ s s' t, D.Corresponds s t → ReflTransGen (D.Goes ptr) s s' →
    ∃ t', Reaches (D.processor.step (D.patched ptr)) t t' ∧ D.Corresponds s' t'
  leads : ∀ s t u, D.Corresponds s t → Reaches (D.processor.step (D.patched ptr)) t u →
    (∃ s' t', ReflTransGen (D.Goes ptr) s s' ∧
        Reaches (D.processor.step (D.patched ptr)) u t' ∧ D.Corresponds s' t') ∨
      ∃ s', ReflTransGen (D.Goes ptr) s s' ∧ ∀ s'', ¬D.Goes ptr s' s''

theorem Installed.intercepts (h : D.Installed) (hptr : ptr < wordSize) : D.Intercepts ptr where
  updates := JmpChain.memory_updateThunk h.apart ptr
  hook := h.reaches_ptr hptr
  original _ := h.corresponds_target rfl
  follows _ _ _ hst hrun := (h.simulates hptr).reaches hst hrun
  leads _ _ _ hst hrun := (h.simulates hptr).reaches_back hst hrun

end Detour

/-! ## After an installation -/

/-- The trampoline holds what the encoder made of the site. -/
theorem HookSite.encode_of_encodeAt {encode : Encode} {decode : Decode} {site : HookSite} {ip : ℕ}
    {code : List UInt8} {relocs : List IpReloc}
    (h : site.encodeAt encode decode ip = .ok (code, relocs)) :
    ∃ encoded, encode site.insns ip = .ok encoded ∧ encoded.codeBuffer = code := by
  unfold HookSite.encodeAt at h
  cases hencode : encode site.insns ip with
  | error err =>
    rw [hencode] at h
    cases h
  | ok encoded =>
    refine ⟨encoded, rfl, ?_⟩
    simp only [hencode] at h
    split_ifs at h
    split at h
    · exact (Prod.mk.inj (Except.ok.inj h)).1
    · cases h

/-- After a round that installed a hook, the thunk's pointer gets every call of the target, and the
trampoline is the original function, whatever `n` bytes in front the jump changes. -/
theorem intercepts_of_installRound {σ : Type*} {P : Processor σ} {encode : Encode} {target : ℕ}
    {round : Round} {s s' : Session} {installer : ErasedInstaller} (hP : P.Lawful)
    (hencode : ∀ site ip encoded, HookSite.analyze P.decode target round.siteBytes = .ok site →
      encode site.insns ip = .ok encoded →
        ∃ layout, P.Reencodes site.insns ip encoded.codeBuffer layout)
    (h : installRound encode P.decode target round s = (.done installer, s'))
    {memory : CodeMemory} (hmemory : memory.Holds target round.siteBytes.toList) :
    ∃ site chain code layout, HookSite.analyze P.decode target round.siteBytes = .ok site ∧
      installer = chain.installer target ∧
      (∃ t : Session, s' = t.write target (site.patched chain.jmpRel)) ∧
      site.encodeAt encode P.decode chain.thunkPtr = .ok (code, chain.relocs) ∧
      ∀ n ptr, n ≤ jmpRelLen → chain.jmpRel.Keeps site.bytes n → chain.Apart target code →
        ptr < wordSize →
          Detour.Intercepts ⟨P, memory, target, site, chain, code, layout, n⟩ ptr := by
  obtain ⟨site, hsite, chain, t, hbuilt, hinstaller, -, hwrite⟩ := settles_installRound h
  obtain ⟨code, hencodeAt, -⟩ := hbuilt.trampoline
  obtain ⟨encoded, hencoded, rfl⟩ := HookSite.encode_of_encodeAt hencodeAt
  obtain ⟨layout, hlayout⟩ := hencode site _ encoded hsite hencoded
  have hbytes := HookSite.bytes_of_analyze hsite
  refine ⟨site, chain, _, layout, hsite, hinstaller, ⟨t, hwrite⟩, hencodeAt,
    fun n ptr hn hkeeps hapart hptr => Detour.Installed.intercepts ?_ hptr⟩
  exact {
    lawful := hP
    analyze := by rw [hbytes]; exact hsite
    holds := by rw [hbytes]; exact hmemory
    jmpRel := hbuilt.jmpRel
    keeps := hkeeps
    changed_le := hn
    apart := hapart
    reencodes := hlayout }

/-! ## A sample processor -/

/-- The displacement that ends at `ip`. -/
def dispSample (memory : CodeMemory) (ip : ℕ) : ℤ :=
  i32FromLeBytes (load memory (ip - 4) 4)

/-- `push`, `sub rsp, 0x30` and the two jumps on a stack pointer. -/
def execSample (memory : CodeMemory) (insn : Instruction) (rsp : ℕ) : Option (ℕ × ℕ) :=
  match insn.code with
  | .other 1 => some (insn.nextIp, rsp - 0x30)
  | .other 2 => some (insn.nextIp, rsp - 8)
  | .other 4 =>
    if memory (insn.ip + 1) = 0x25 then
      let ptr := ((insn.ip + 6 : ℕ) + dispSample memory (insn.ip + 6)).toNat
      some (leValue (load memory ptr 8), rsp)
    else none
  | .jmpRel32_64 =>
    match insn.nearBranchTarget with
    | some target => some (target, rsp)
    | none => some (((insn.ip + 5 : ℕ) + dispSample memory (insn.ip + 5)).toNat, rsp)
  | _ => none

/-- A processor that knows these instructions. -/
def processorSample : Processor ℕ where
  decode := decodeSample
  exec := execSample

theorem opcodeSample_len_le (opcode : UInt8) : (opcodeSample opcode).2.1 ≤ 6 := by
  unfold opcodeSample
  split <;> decide

theorem insnAt_processorSample (memory : CodeMemory) (ip : ℕ) :
    processorSample.insnAt memory ip =
      ⟨(opcodeSample (memory ip)).1, ip, (opcodeSample (memory ip)).2.1,
        (opcodeSample (memory ip)).2.2, none, none⟩ := by
  have hload : load memory ip maxInsnLen = memory ip :: (load memory ip maxInsnLen).tail := rfl
  have hlen := opcodeSample_len_le (memory ip)
  have htail : (load memory ip maxInsnLen).tail.length = 14 := by
    rw [List.length_tail, length_load]
    rfl
  rw [Processor.insnAt, hload]
  exact (decodeSample_cons ..).trans (if_pos (by omega))

theorem dispSample_of_holds {memory : CodeMemory} {ip : ℕ} (bytes : List UInt8) {disp : ℤ}
    (h : memory.Holds ip (bytes ++ i32ToLeBytes disp)) (hmin : i32Min ≤ disp)
    (hmax : disp ≤ i32Max) : dispSample memory (ip + bytes.length + 4) = disp := by
  have hload : load memory (ip + bytes.length) 4 = i32ToLeBytes disp := by
    refine List.ext_getElem? fun i => ?_
    have hlen := length_i32ToLeBytes disp
    rw [getElem?_load]
    split_ifs with hi
    · have hi' : i < (i32ToLeBytes disp).length := by omega
      have hget :
          (bytes ++ i32ToLeBytes disp)[bytes.length + i]? = some (i32ToLeBytes disp)[i] := by
        rw [List.getElem?_append_right (by omega), Nat.add_sub_cancel_left,
          List.getElem?_eq_getElem hi']
      rw [Nat.add_assoc, h _ _ hget, List.getElem?_eq_getElem hi']
    · rw [List.getElem?_eq_none (by omega)]
  rw [dispSample, Nat.add_sub_cancel, hload, i32FromLeBytes_eq, leValue_i32ToLeBytes, signed32]
  unfold i32Min i32Max at *
  split_ifs <;> omega

theorem lawful_processorSample : processorSample.Lawful where
  toLawfulDecode := lawfulDecode_decodeSample
  congr := by
    intro ip bytes bytes' hne hinv htake
    obtain ⟨byte, bytes, rfl⟩ := List.exists_cons_of_ne_nil hne
    change (decodeSample ip (byte :: bytes)).isInvalid = false at hinv
    change decodeSample ip bytes' = decodeSample ip (byte :: bytes)
    change bytes'.take (decodeSample ip (byte :: bytes)).len =
      (byte :: bytes).take (decodeSample ip (byte :: bytes)).len at htake
    rw [decodeSample_cons] at hinv htake ⊢
    have hone := one_le_opcodeSample byte
    split_ifs at hinv htake ⊢ with hfits
    · obtain ⟨len, hlen⟩ := Nat.exists_eq_add_of_le' hone
      have hlength := congrArg List.length htake
      simp only [hlen, List.take_succ_cons, List.length_take, List.length_cons] at htake hlength
      obtain ⟨bytes', rfl⟩ : ∃ l, bytes' = byte :: l := by
        cases bytes' with
        | nil => cases htake
        | cons byte' l => exact ⟨l, by rw [(List.cons.inj htake).1]⟩
      rw [List.length_cons] at hlength
      rw [decodeSample_cons, if_pos (by omega)]
    · cases hinv
  len_le_max := by
    intro ip bytes hne hinv
    obtain ⟨byte, bytes, rfl⟩ := List.exists_cons_of_ne_nil hne
    have hlen := opcodeSample_len_le byte
    change (decodeSample ip (byte :: bytes)).isInvalid = false at hinv
    change (decodeSample ip (byte :: bytes)).len ≤ maxInsnLen
    rw [decodeSample_cons] at hinv ⊢
    split_ifs at hinv ⊢ with hfits
    · exact hlen.trans (by decide)
    · cases hinv
  exec_invalid := by
    intro memory insn rest hinv
    have hcode : insn.code = .invalid := of_decide_eq_true hinv
    simp [processorSample, execSample, hcode]
  exec_jmpRel32 _ _ _ := rfl
  step_jmpRel := by
    intro memory ip t disp rest hholds hmin hmax ht
    have hopcode : memory ip = 0xe9 := hholds 0 _ rfl
    have hdisp : dispSample memory (ip + 5) = disp :=
      dispSample_of_holds [0xe9] hholds hmin hmax
    rw [Processor.step_eq_some, insnAt_processorSample, hopcode]
    simp only [processorSample, execSample, opcodeSample, hdisp]
    unfold jmpRelLen at ht
    rw [show ((ip + 5 : ℕ) + disp).toNat = t by omega]
  step_jmpAbs := by
    intro memory ip p disp rest hholds hmin hmax hp
    have hopcode : memory ip = 0xff := hholds 0 _ rfl
    have hmodrm : memory (ip + 1) = 0x25 := hholds 1 _ rfl
    have hdisp : dispSample memory (ip + 6) = disp :=
      dispSample_of_holds [0xff, 0x25] hholds hmin hmax
    rw [Processor.step_eq_some, insnAt_processorSample, hopcode]
    simp only [processorSample, execSample, opcodeSample, hdisp, hmodrm, if_true]
    unfold JmpAbs.len at hp
    rw [show ((ip + 6 : ℕ) + disp).toNat = p by omega]

/-- `push rbp; sub rsp, 0x30` and the jump back from a buffer at `0x10000`. -/
def trampolineSample : List UInt8 :=
  [0x55, 0x48, 0x83, 0xec, 0x30] ++ JmpRel.asBytes ⟨-0xf005⟩

/-- An encoder for the block of the example at one address. -/
def encodeSample : Encode := fun insns ip =>
  if insns = pushSubSite.insns ∧ ip = 0x10000 then .ok ⟨ip, trampolineSample, [0, 1, 5]⟩
  else .error ⟨"out of range"⟩

theorem reencodes_sample :
    processorSample.Reencodes pushSubSite.insns 0x10000 trampolineSample pushSubLayout := by
  intro i insn hget hcall memory rest a rest' hholds hexec
  match i, hget with
  | 0, hget =>
    obtain rfl := Option.some.inj hget
    obtain ⟨rfl, rfl⟩ := Prod.mk.inj (Option.some.inj hexec)
    refine ⟨_, .inside (show pushSubSite.insns[1]? = some _ from rfl) rfl, .single ?_⟩
    have hbyte : memory 0x10000 = 0x55 := hholds 0 _ rfl
    rw [Option.mem_def, Processor.step_eq_some, insnAt_processorSample]
    simp only [show 0x10000 + pushSubLayout.startOf 0 = 0x10000 from rfl, hbyte]
    rfl
  | 1, hget =>
    obtain rfl := Option.some.inj hget
    obtain ⟨rfl, rfl⟩ := Prod.mk.inj (Option.some.inj hexec)
    refine ⟨_, .next (show pushSubSite.insns[1]? = some _ from rfl) rfl (by decide), .single ?_⟩
    have hbyte : memory 0x10001 = 0x48 := hholds 1 _ rfl
    rw [Option.mem_def, Processor.step_eq_some, insnAt_processorSample]
    simp only [show 0x10000 + pushSubLayout.startOf 1 = 0x10001 from rfl, hbyte]
    rfl
  | 2, hget =>
    obtain rfl := Option.some.inj hget
    obtain ⟨rfl, rfl⟩ := Prod.mk.inj (Option.some.inj hexec)
    refine ⟨_, .outside (by decide), .single ?_⟩
    have hjmp : memory.Holds 0x10005 (JmpRel.asBytes ⟨-0xf005⟩) := by
      intro j byte hbyte
      rw [show 0x10005 + j = 0x10000 + (5 + j) by omega]
      refine hholds (5 + j) byte ?_
      rw [trampolineSample, List.getElem?_append_right (by simp)]
      simpa using hbyte
    exact lawful_processorSample.step_jmpRel memory 0x10005 0x1005 _ _ hjmp (by decide) (by decide)
      (by decide)
  | i + 3, hget => cases hget

/-- A memory with the example's function. -/
def memorySample : CodeMemory :=
  store (fun _ => 0) 0x1000 pushSubSample.toList

section Sample

variable (chain : JmpChain) (code : List UInt8) (layout : BlockLayout)

/-- A detour of the sample site. -/
def detourSample : Detour ℕ :=
  ⟨processorSample, memorySample, 0x1000, pushSubSite, chain, code, layout, 5⟩

theorem leavesNextIp_pushSubSite : ∀ insn ∈ pushSubSite.kept, insn.leavesNextIp = false := by
  decide

theorem goes_push :
    (detourSample chain code layout).Goes 0x5000 ⟨0x1000, 0x8000⟩ ⟨0x1001, 0x7ff8⟩ := by
  have hinsn : processorSample.insnAt memorySample 0x1000 =
      ⟨.other 2, 0x1000, 1, .next, none, none⟩ := insnAt_processorSample memorySample 0x1000
  have hexec : ∀ memory, execSample memory ⟨.other 2, 0x1000, 1, .next, none, none⟩ 0x8000 =
      some (0x1001, 0x7ff8) := fun _ => rfl
  refine ⟨Processor.step_eq_some.2 ?_, ?_, fun insn h _ => leavesNextIp_pushSubSite insn h, ?_,
    Nat.succ_ne_zero _, fun _ h => absurd h (show 0x1001 ≠ 0x1000 by decide)⟩
  · change execSample memorySample (processorSample.insnAt memorySample 0x1000) 0x8000 = _
    rw [hinsn, hexec]
  · change execSample ((detourSample chain code layout).patched 0x5000)
        (processorSample.insnAt memorySample 0x1000) 0x8000 =
      execSample memorySample (processorSample.insnAt memorySample 0x1000) 0x8000
    rw [hinsn, hexec, hexec]
  · refine Or.inr (Or.inr (Or.inr ⟨fun hintact => ?_, ?_⟩))
    · have hlen : 0 < (processorSample.insnAt memorySample 0x1000).len := by
        rw [hinsn]
        exact Nat.one_pos
      exact hintact 0 hlen (Or.inl (Or.inl (show 0x1000 ≤ 0x1000 ∧ 0x1000 < 0x1000 + 5 by decide)))
    · exact ⟨_, List.mem_of_getElem? (show pushSubSite.kept[1]? = some _ from rfl), rfl⟩

theorem goes_sub :
    (detourSample chain code layout).Goes 0x5000 ⟨0x1001, 0x7ff8⟩ ⟨0x1005, 0x7fc8⟩ := by
  have hinsn : processorSample.insnAt memorySample 0x1001 =
      ⟨.other 1, 0x1001, 4, .next, none, none⟩ := insnAt_processorSample memorySample 0x1001
  have hexec : ∀ memory, execSample memory ⟨.other 1, 0x1001, 4, .next, none, none⟩ 0x7ff8 =
      some (0x1005, 0x7fc8) := fun _ => rfl
  refine ⟨Processor.step_eq_some.2 ?_, ?_, fun insn h _ => leavesNextIp_pushSubSite insn h,
    Or.inr (Or.inr (Or.inl rfl)), Nat.succ_ne_zero _,
    fun _ h => absurd h (show 0x1005 ≠ 0x1000 by decide)⟩
  · change execSample memorySample (processorSample.insnAt memorySample 0x1001) 0x7ff8 = _
    rw [hinsn, hexec]
  · change execSample ((detourSample chain code layout).patched 0x5000)
        (processorSample.insnAt memorySample 0x1001) 0x7ff8 =
      execSample memorySample (processorSample.insnAt memorySample 0x1001) 0x7ff8
    rw [hinsn, hexec, hexec]

end Sample

theorem installRound_sample : ∃ s, installRound encodeSample decodeSample 0x1000
    (sampleRound (pushSubSample.toList.take 8)) (.ofContext .zeroed) =
      (.done ⟨0x1000, 0x10ff8⟩, s) := by
  have hdone : (match (installRound encodeSample decodeSample 0x1000
      (sampleRound (pushSubSample.toList.take 8)) (.ofContext .zeroed)).1 with
    | .done installer => some installer
    | _ => none) = some ⟨0x1000, 0x10ff8⟩ := by decide +kernel
  generalize installRound encodeSample decodeSample 0x1000
    (sampleRound (pushSubSample.toList.take 8)) (.ofContext .zeroed) = result at hdone
  obtain ⟨attempt, s⟩ := result
  cases attempt with
  | done installer => exact ⟨s, by rw [Option.some.inj hdone]⟩
  | _ => cases hdone

/-- At `push rbp; sub rsp, 0x30` a hook at `0x5000` gets the calls, and its call of the original
function pushes, makes room and goes on behind. -/
theorem intercepts_of_installRound_pushSub :
    ∃ D : Detour ℕ, D.processor = processorSample ∧ D.target = 0x1000 ∧ D.Intercepts 0x5000 ∧
      Reaches (D.processor.step (D.patched 0x5000)) ⟨D.chain.thunkPtr, 0x8000⟩
        ⟨0x1005, 0x7fc8⟩ := by
  obtain ⟨s, hround⟩ := installRound_sample
  have hencode : ∀ site ip encoded,
      HookSite.analyze processorSample.decode 0x1000
          (sampleRound (pushSubSample.toList.take 8)).siteBytes = .ok site →
        encodeSample site.insns ip = .ok encoded →
          ∃ layout, processorSample.Reencodes site.insns ip encoded.codeBuffer layout := by
    intro site ip encoded _ hencoded
    unfold encodeSample at hencoded
    split_ifs at hencoded with hsite
    obtain rfl := Except.ok.inj hencoded
    obtain ⟨hinsns, rfl⟩ := hsite
    exact ⟨pushSubLayout, hinsns ▸ reencodes_sample⟩
  obtain ⟨site, chain, code, layout, hsite, hinstaller, -, hcode, hintercepts⟩ :=
    intercepts_of_installRound (P := processorSample) lawful_processorSample hencode hround
      (CodeMemory.holds_store (fun _ => 0) 0x1000 pushSubSample.toList)
  obtain rfl : site = pushSubSite := Except.ok.inj (hsite.symm.trans analyze_pushSubSample)
  obtain ⟨encoded, hencoded, rfl⟩ := HookSite.encode_of_encodeAt hcode
  unfold encodeSample at hencoded
  split_ifs at hencoded with hip
  obtain rfl := Except.ok.inj hencoded
  have hthunk : chain.thunk.start = 0x10ff0 := by
    have heq := congrArg ErasedInstaller.thunk hinstaller
    simp only [JmpChain.installer, Thunk.ptrOffset] at heq
    omega
  have hapart : chain.Apart 0x1000 trampolineSample := by
    have htramp : chain.thunkPtr = 0x10000 := hip.2
    exact {
      target_pos := by decide
      target_le := by decide
      thunk_le := by rw [hthunk]; decide
      thunk := by rw [hthunk]; decide
      trampoline := by rw [htramp]; decide
      blocks := by rw [hthunk, htramp]; decide }
  have hD := hintercepts 5 0x5000 le_rfl (fun i hi hi' => absurd hi' (Nat.not_lt.2 hi)) hapart
    (by decide)
  refine ⟨detourSample chain trampolineSample layout, rfl, rfl, hD, ?_⟩
  obtain ⟨⟨ip, rest⟩, hreaches, hrest, ht⟩ := hD.follows _ _ _ (hD.original 0x8000)
    (.tail (.single (goes_push chain trampolineSample layout))
      (goes_sub chain trampolineSample layout))
  have hip' : ip = 0x1005 := by
    rcases ht with ⟨heq, -⟩ | ⟨i, insn, hget, heq, -⟩
    · exact heq
    · have hmem := List.mem_of_getElem? hget
      have hne : ∀ insn ∈ pushSubSite.kept, insn.ip ≠ 0x1005 := by decide
      exact absurd heq.symm (hne insn hmem)
  have hrest' : rest = 0x7fc8 := hrest
  rw [hip', hrest'] at hreaches
  exact hreaches

end Diversion
