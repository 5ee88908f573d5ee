import Diversion.Install
import Diversion.Lib.ByteMemory
import Diversion.Lib.Transition

/-!
# Writers that race with a round

A round of `install` loads the window one byte at a time, analyses what it loaded, builds the
chain and exchanges the first 8 bytes of the code if they are still the analysed ones. Other
writers may change any byte of the code between any two of these accesses. `Race.step` has one
action for each access of the round and one for the others.

The exchange is the only validation of the window, and it compares 8 bytes. The instructions
copied to the trampoline reach up to byte 19. So a round that detours has copied instructions
that are still there exactly if they end within the first 8 bytes (`validates_iff`).
-/

namespace Diversion

open ByteMemory

/-- Code in memory, by its address. -/
abbrev CodeMemory := ℕ → UInt8

namespace CodeMemory

/-- What the exchange compares. -/
def word (memory : CodeMemory) (target : ℕ) : List UInt8 :=
  load memory target 8

/-- The memory holds the bytes from `target` on. -/
def Holds (memory : CodeMemory) (target : ℕ) (bytes : List UInt8) : Prop :=
  ∀ i byte, bytes[i]? = some byte → memory (target + i) = byte

theorem holds_store (memory : CodeMemory) (target : ℕ) (bytes : List UInt8) :
    Holds (store memory target bytes) target bytes :=
  fun _ _ h => store_of_getElem? h

theorem getElem?_word (memory : CodeMemory) (target : ℕ) {i : ℕ} (hi : i < 8) :
    (memory.word target)[i]? = some (memory (target + i)) := by
  rw [word, getElem?_load, if_pos hi]

theorem Holds.word {memory : CodeMemory} {target : ℕ} {bytes : List UInt8}
    (h : memory.Holds target bytes) (hlen : 8 ≤ bytes.length) :
    memory.word target = bytes.take 8 := by
  refine List.ext_getElem? fun i => ?_
  by_cases hi : i < 8
  · rw [getElem?_word memory target hi, List.getElem?_take, if_pos hi,
      List.getElem?_eq_getElem (by omega)]
    exact congrArg some (h i _ (List.getElem?_eq_getElem (by omega)))
  · rw [List.getElem?_eq_none (by simpa [CodeMemory.word] using hi),
      List.getElem?_eq_none (by rw [List.length_take]; omega)]

end CodeMemory

/-! ## One round and the others -/

/-- How far the round is. -/
inductive Phase where
  /-- `atomic_copy_from_ptr` has loaded these bytes. -/
  | copying (bytes : List UInt8)
  | analyzed (site : HookSite)
  /-- The instructions were relocated and the thunk was made. -/
  | built (site : HookSite) (chain : JmpChain)
  /-- The exchange found the code as in `found`. -/
  | exchanged (site : HookSite) (found : CodeMemory) (attempt : Attempt ErasedInstaller)
  | failed (failure : Failure)

/-- The code, the allocator and how far the installer has come. -/
structure Race where
  memory : CodeMemory
  session : Session
  phase : Phase

/-- A step of the installer, or of another writer. -/
inductive RaceAction where
  /-- Another writer leaves the code as in `memory`. -/
  | other (memory : CodeMemory)
  | load
  | analyze
  /-- The allocator and the encoder decide on the chain. They do not look at the window. -/
  | build (chain : JmpChain) (session : Session)
  /-- The exchange of `install_fast`. -/
  | detour
  /-- The exchange of `install_slow`. -/
  | suspendAndDetour (others : Except IoError (List OtherThread))
  /-- The loop of `install` goes on. -/
  | retry

theorem HookSite.bytes_of_analyze {decode : Decode} {addr : ℕ} {bytes : Vector UInt8 disasmLen}
    {site : HookSite} (h : analyze decode addr bytes = .ok site) : site.bytes = bytes := by
  have hsite := ofInsns_of_analyze h
  simp only [ofInsns] at hsite
  split at hsite
  · cases hsite
  · split at hsite
    · cases hsite
    · split at hsite <;> obtain rfl := Except.ok.inj hsite <;> rfl

namespace Race

variable (decode : Decode) (target : ℕ)

/-- The installer has loaded nothing. -/
def start (memory : CodeMemory) (session : Session) : Race :=
  ⟨memory, session, .copying []⟩

/-- `none` where the step is not enabled. -/
def step : Race → RaceAction → Option Race
  | r, .other memory => some { r with memory }
  | ⟨memory, s, .copying bytes⟩, .load =>
    if bytes.length < disasmLen then
      some ⟨memory, s, .copying (bytes ++ [memory (target + bytes.length)])⟩
    else none
  | ⟨memory, s, .copying bytes⟩, .analyze =>
    if h : bytes.toArray.size = disasmLen then
      match HookSite.analyze decode target ⟨bytes.toArray, h⟩ with
      | .error e => some ⟨memory, s, .failed e⟩
      | .ok site => some ⟨memory, s, .analyzed site⟩
    else none
  | ⟨memory, _, .analyzed site⟩, .build chain s => some ⟨memory, s, .built site chain⟩
  | ⟨memory, s, .built site chain⟩, .detour =>
    match site.detour target chain.jmpRel (memory.word target) s with
    | (false, s) => some ⟨memory, chain.reclaim s, .exchanged site memory .tryAgain⟩
    | (true, s) => some ⟨store memory target (site.patched chain.jmpRel), s,
        .exchanged site memory (.done (chain.installer target))⟩
  | ⟨memory, s, .built site chain⟩, .suspendAndDetour others =>
    match site.suspendAndDetour target chain others (memory.word target) s with
    | (.failed e, s) => some ⟨memory, chain.reclaim s, .failed e⟩
    | (.tryAgain, s) => some ⟨memory, chain.reclaim s, .exchanged site memory .tryAgain⟩
    | (.done (), s) => some ⟨store memory target (site.patched chain.jmpRel), s,
        .exchanged site memory (.done (chain.installer target))⟩
  | ⟨memory, s, .exchanged _ _ .tryAgain⟩, .retry => some (start memory s)
  | _, _ => none

/-- The exchange of the round validates the window `bytes` : whatever the others write, if it
succeeds the bytes of the instructions that were copied are in memory as they were analysed, and
if one of them differs the round is tried again. -/
def Validates (bytes : Vector UInt8 disasmLen) : Prop :=
  ∀ memory session actions r site found attempt,
    Transition.run (step decode target) (start memory session) actions = some r →
    r.phase = .exchanged site found attempt → site.bytes = bytes →
    ((∃ installer, attempt = .done installer) →
      found.Holds target (bytes.toList.take (totalLen site.kept))) ∧
    (¬ found.Holds target (bytes.toList.take (totalLen site.kept)) → attempt = .tryAgain)

/-! ## What the exchange compares -/

variable {decode target} {r t : Race} {a : RaceAction}

/-- A site is the analysis of its bytes, and a round that installed found the first 8 of them. -/
def Inv (decode : Decode) (target : ℕ) (r : Race) : Prop :=
  match r.phase with
  | .copying _ | .failed _ => True
  | .analyzed site | .built site _ => HookSite.analyze decode target site.bytes = .ok site
  | .exchanged site found attempt => HookSite.analyze decode target site.bytes = .ok site ∧
      (attempt = .tryAgain ∨ (∃ installer, attempt = .done installer) ∧
        found.word target = site.bytes.toList.take 8)

theorem inv_start (memory : CodeMemory) (s : Session) : (start memory s).Inv decode target :=
  trivial

theorem step_inv (hr : r.Inv decode target) (h : step decode target r a = some t) :
    t.Inv decode target := by
  obtain ⟨memory, s, phase⟩ := r
  cases a with
  | other memory =>
    obtain rfl := Option.some.inj h
    exact hr
  | load =>
    cases phase <;> simp only [step, reduceCtorEq] at h
    case copying bytes =>
      split_ifs at h
      obtain rfl := Option.some.inj h
      trivial
  | analyze =>
    cases phase <;> simp only [step, reduceCtorEq] at h
    case copying bytes =>
      split_ifs at h with hlen
      cases hsite : HookSite.analyze decode target ⟨bytes.toArray, hlen⟩ with
      | error e =>
        rw [hsite] at h
        obtain rfl := Option.some.inj h
        trivial
      | ok site =>
        rw [hsite] at h
        obtain rfl := Option.some.inj h
        have hbytes := HookSite.bytes_of_analyze hsite
        rw [← hbytes] at hsite
        exact hsite
  | build chain s' =>
    cases phase <;> simp only [step, reduceCtorEq] at h
    case analyzed site =>
      obtain rfl := Option.some.inj h
      exact hr
  | detour =>
    cases phase <;> simp only [step, reduceCtorEq] at h
    case built site chain =>
      rcases detour_cases site target chain.jmpRel (memory.word target) s with
        ⟨hcode, hdetour⟩ | hdetour <;> rw [hdetour] at h <;> obtain rfl := Option.some.inj h
      · exact ⟨hr, Or.inr ⟨⟨_, rfl⟩, hcode⟩⟩
      · exact ⟨hr, Or.inl rfl⟩
  | suspendAndDetour others =>
    cases phase <;> simp only [step, reduceCtorEq] at h
    case built site chain =>
      rcases suspendAndDetour_cases site target chain others (memory.word target) s with
        ⟨hcode, hdetour⟩ | hdetour | ⟨e, hdetour⟩ <;> rw [hdetour] at h <;>
        obtain rfl := Option.some.inj h
      · exact ⟨hr, Or.inr ⟨⟨_, rfl⟩, hcode⟩⟩
      · exact ⟨hr, Or.inl rfl⟩
      · trivial
  | retry =>
    cases phase <;> simp only [step, reduceCtorEq] at h
    case exchanged site found attempt =>
      cases attempt <;> simp only [reduceCtorEq] at h
      obtain rfl := Option.some.inj h
      trivial

/-! ## Runs up to the exchange -/

variable {memory : CodeMemory} {bytes : Vector UInt8 disasmLen} {site : HookSite}

theorem run_load (h : memory.Holds target bytes.toList) (s : Session) : ∀ {n : ℕ}, n ≤ disasmLen →
    Transition.run (step decode target) (start memory s) (List.replicate n .load) =
      some ⟨memory, s, .copying (bytes.toList.take n)⟩
  | 0, _ => rfl
  | n + 1, hn => by
    have hlen : n < bytes.toList.length := by
      rw [Vector.length_toList]
      exact hn
    have htake : (bytes.toList.take n).length = n := by
      rw [List.length_take]
      omega
    rw [List.replicate_succ', Transition.run_append, run_load h s (by omega)]
    rw [Option.bind_some, Transition.run_cons_eq_some]
    refine ⟨_, ?_, rfl⟩
    rw [step, if_pos (by omega), htake, h n _ (List.getElem?_eq_getElem hlen),
      List.take_succ_eq_append_getElem hlen]

/-- The round loads the window undisturbed, and the others write before the exchange. -/
theorem run_build (h : memory.Holds target bytes.toList)
    (hsite : HookSite.analyze decode target bytes = .ok site) (s s' : Session) (chain : JmpChain)
    (found : CodeMemory) :
    Transition.run (step decode target) (start memory s)
        (List.replicate disasmLen .load ++ [.analyze, .build chain s', .other found]) =
      some ⟨found, s', .built site chain⟩ := by
  rw [Transition.run_append, run_load h s le_rfl, Option.bind_some]
  have htake : bytes.toList.take disasmLen = bytes.toList :=
    List.take_of_length_le (by rw [Vector.length_toList])
  have hanalyze : step decode target ⟨memory, s, .copying bytes.toList⟩ .analyze =
      some ⟨memory, s, .analyzed site⟩ := by
    have hsize : bytes.toList.toArray.size = disasmLen := by simp
    have hbytes : (⟨bytes.toList.toArray, hsize⟩ : Vector UInt8 disasmLen) = bytes :=
      Vector.toArray_inj.1 (Array.toArray_toList)
    rw [step, dif_pos hsize, hbytes, hsite]
  rw [htake, Transition.run_cons_eq_some]
  exact ⟨_, hanalyze, rfl⟩

/-- With the chain built, the round exchanges on the code `found`, and attempts `attempt`. -/
def Exchanges (decode : Decode) (target : ℕ) (site : HookSite) (found : CodeMemory)
    (attempt : Attempt ErasedInstaller) (s : Session) : Prop :=
  ∃ chain u a r, step decode target ⟨found, u, .built site chain⟩ a = some r ∧
    r.phase = .exchanged site found attempt ∧ r.session = s

section Round

variable {encode : Encode} {round : Round} {s s' : Session} {found : CodeMemory}

theorem exchanges_installFast {attempt : Attempt (Option ErasedInstaller)}
    (hcode : round.fastCode = found.word target)
    (h : installFast encode decode target site round s = (attempt, s')) :
    match attempt with
    | .failed _ => True
    | .tryAgain => Exchanges decode target site found .tryAgain s'
    | .done none => True
    | .done (some installer) => Exchanges decode target site found (.done installer) s' := by
  unfold installFast at h
  cases hfirst : site.insns.head? with
  | none =>
    obtain ⟨rfl, rfl⟩ := Prod.mk.inj (by simpa only [hfirst] using h)
    trivial
  | some first =>
    simp only [hfirst] at h
    cases hrange : JmpRel.shortEncodingRange site.bytes first.len with
    | none =>
      obtain ⟨rfl, rfl⟩ := Prod.mk.inj (by simpa only [hrange] using h)
      trivial
    | some range =>
      simp only [hrange] at h
      cases hbuild : JmpChain.build encode decode target site round.fast range s with
      | mk built t =>
      simp only [hbuild] at h
      rcases built with e | _ | chain
      · obtain ⟨rfl, rfl⟩ := Prod.mk.inj h
        trivial
      · simp only at h
        split_ifs at h <;> obtain ⟨rfl, rfl⟩ := Prod.mk.inj h <;> trivial
      · simp only [hcode] at h
        rcases detour_cases site target chain.jmpRel (found.word target) t with
          ⟨-, hdetour⟩ | hdetour <;>
          simp only [hdetour] at h <;> obtain ⟨rfl, rfl⟩ := Prod.mk.inj h <;>
          exact ⟨chain, t, .detour, _, by rw [step, hdetour], rfl, rfl⟩

theorem exchanges_installSlow {attempt : Attempt ErasedInstaller}
    (hcode : round.slowCode = found.word target)
    (h : installSlow encode decode target site round s = (attempt, s')) :
    (∃ failure, attempt = .failed failure) ∨ Exchanges decode target site found attempt s' := by
  unfold installSlow at h
  generalize JmpChain.build encode decode target site round.slow JmpRel.range s = built at h
  obtain ⟨built, t⟩ := built
  rcases built with e | _ | chain
  · obtain ⟨rfl, rfl⟩ := Prod.mk.inj h
    exact Or.inl ⟨_, rfl⟩
  · obtain ⟨rfl, rfl⟩ := Prod.mk.inj h
    exact Or.inl ⟨_, rfl⟩
  · simp only [patchSlow, hcode] at h
    rcases suspendAndDetour_cases site target chain round.others (found.word target) t with
      ⟨-, hdetour⟩ | hdetour | ⟨e, hdetour⟩ <;>
      simp only [hdetour] at h <;> obtain ⟨rfl, rfl⟩ := Prod.mk.inj h
    · exact Or.inr ⟨chain, t, .suspendAndDetour round.others, _, by rw [step, hdetour], rfl, rfl⟩
    · exact Or.inr ⟨chain, t, .suspendAndDetour round.others, _, by rw [step, hdetour], rfl, rfl⟩
    · exact Or.inl ⟨_, rfl⟩

/-- Every round of `install` that gets to its exchange is such a run. -/
theorem exists_run_of_installRound {attempt : Attempt ErasedInstaller}
    (hfast : round.fastCode = found.word target) (hslow : round.slowCode = found.word target)
    (h : installRound encode decode target round s = (attempt, s')) :
    (∃ failure, attempt = .failed failure) ∨ ∃ memory actions r site,
      Transition.run (step decode target) (start memory s) actions = some r ∧
        r.phase = .exchanged site found attempt ∧ r.session = s' ∧
        site.bytes = round.siteBytes := by
  unfold installRound at h
  cases hrwx : round.makeRwx with
  | error err =>
    obtain ⟨rfl, rfl⟩ := Prod.mk.inj (by simpa only [hrwx] using h)
    exact Or.inl ⟨_, rfl⟩
  | ok _ =>
  simp only [hrwx] at h
  cases hsite : HookSite.analyze decode target round.siteBytes with
  | error e =>
    obtain ⟨rfl, rfl⟩ := Prod.mk.inj (by simpa only [hsite] using h)
    exact Or.inl ⟨_, rfl⟩
  | ok site =>
  simp only [hsite] at h
  have hholds := CodeMemory.holds_store (fun _ => 0) target round.siteBytes.toList
  have hexchanges : (∃ failure, attempt = .failed failure) ∨
      Exchanges decode target site found attempt s' := by
    cases hfirst : installFast encode decode target site round s with
    | mk attempt' t =>
    have hex := exchanges_installFast hfast hfirst
    simp only [hfirst] at h
    rcases attempt' with (_ | installer) | _ | failure
    · exact exchanges_installSlow hslow h
    · obtain ⟨rfl, rfl⟩ := Prod.mk.inj h
      exact Or.inr hex
    · obtain ⟨rfl, rfl⟩ := Prod.mk.inj h
      exact Or.inr hex
    · obtain ⟨rfl, rfl⟩ := Prod.mk.inj h
      exact Or.inl ⟨_, rfl⟩
  refine hexchanges.imp id ?_
  rintro ⟨chain, u, a, r, hstep, hphase, hsession⟩
  refine ⟨_, _, r, site, Transition.run_snoc_eq_some.2 ⟨_, run_build hholds hsite s u chain found,
    hstep⟩, hphase, hsession, HookSite.bytes_of_analyze hsite⟩

/-- What validates in every run validates in `install`. -/
theorem Validates.installRound {installer : ErasedInstaller}
    (hval : Validates decode target round.siteBytes)
    (hfast : round.fastCode = found.word target) (hslow : round.slowCode = found.word target)
    (h : installRound encode decode target round s = (.done installer, s')) :
    ∃ site, HookSite.analyze decode target round.siteBytes = .ok site ∧
      found.Holds target (round.siteBytes.toList.take (totalLen site.kept)) := by
  rcases exists_run_of_installRound hfast hslow h with
    ⟨_, hfailed⟩ | ⟨memory, actions, r, site, hrun, hphase, -, hbytes⟩
  · cases hfailed
  · have hinv : r.Inv decode target :=
      Transition.run_invariant_of_step (fun _ _ _ => step_inv) (inv_start memory s) hrun
    rw [Inv, hphase] at hinv
    refine ⟨site, hbytes ▸ hinv.1, (hval _ _ _ _ _ _ _ hrun hphase hbytes).1 ⟨installer, rfl⟩⟩

end Round

/-- Otherwise another writer changes byte 8 just before the exchange. -/
theorem Validates.totalLen_kept_le (h : Validates decode target bytes)
    (hsite : HookSite.analyze decode target bytes = .ok site) : totalLen site.kept ≤ 8 := by
  by_contra hlen
  let memory : CodeMemory := store (fun _ => 0) target bytes.toList
  have hholds : memory.Holds target bytes.toList := CodeMemory.holds_store _ _ _
  let found : CodeMemory := fun addr =>
    if addr = target + 8 then memory addr + 1 else memory addr
  have hword : found.word target = site.bytes.toList.take 8 := by
    rw [HookSite.bytes_of_analyze hsite, ← hholds.word (by rw [Vector.length_toList]; decide)]
    refine List.map_congr_left fun i hi => if_neg ?_
    have := List.mem_range.1 hi
    omega
  let chain : JmpChain := ⟨⟨0, 0⟩, 0, ⟨0⟩, ⟨0, 0⟩, []⟩
  let session : Session := .ofContext .zeroed
  have hstep : ∃ r, step decode target ⟨found, session, .built site chain⟩ .detour = some r ∧
      r.phase = .exchanged site found (.done (chain.installer target)) := by
    simp [step, HookSite.detour, hword]
  obtain ⟨r, hstep, hphase⟩ := hstep
  have hrun := Transition.run_snoc_eq_some.2
    ⟨_, run_build hholds hsite session session chain found, hstep⟩
  have hfound := (h _ _ _ _ _ _ _ hrun hphase (HookSite.bytes_of_analyze hsite)).1 ⟨_, rfl⟩
  have hsize : 8 < bytes.toList.length := by
    rw [Vector.length_toList]
    decide
  have hbyte : bytes.toList[8]? = some bytes.toList[8] := List.getElem?_eq_getElem hsize
  have hkept : (bytes.toList.take (totalLen site.kept))[8]? = some bytes.toList[8] := by
    rw [List.getElem?_take, if_pos (by omega), hbyte]
  have hchanged : memory (target + 8) + (1 : UInt8) = bytes.toList[8] := by
    have hat := hfound 8 _ hkept
    simpa only [found, if_true] using hat
  rw [hholds 8 _ hbyte] at hchanged
  simp at hchanged

/-- The exchange validates a window exactly if the instructions to copy end within the 8 bytes it
compares. -/
theorem validates_iff (decode : Decode) (target : ℕ) (bytes : Vector UInt8 disasmLen) :
    Validates decode target bytes ↔
      ∀ site, HookSite.analyze decode target bytes = .ok site → totalLen site.kept ≤ 8 := by
  constructor
  · exact fun h site => h.totalLen_kept_le
  · intro h memory session actions r site found attempt hrun hphase hbytes
    have hinv : r.Inv decode target :=
      Transition.run_invariant_of_step (fun _ _ _ => step_inv) (inv_start memory session) hrun
    rw [Inv, hphase] at hinv
    obtain ⟨hsite, hattempt⟩ := hinv
    rw [hbytes] at hsite hattempt
    have hlen := h site hsite
    have hholds : found.word target = bytes.toList.take 8 →
        found.Holds target (bytes.toList.take (totalLen site.kept)) := by
      intro hword i byte hbyte
      rw [List.getElem?_take] at hbyte
      split_ifs at hbyte with hi
      have := CodeMemory.getElem?_word found target (show i < 8 by omega)
      rw [hword, List.getElem?_take, if_pos (by omega), hbyte] at this
      exact (Option.some.inj this).symm
    rcases hattempt with rfl | ⟨⟨installer, rfl⟩, hword⟩
    · exact ⟨fun hdone => by simp at hdone, fun _ => rfl⟩
    · exact ⟨fun _ => hholds hword, fun hne => absurd (hholds hword) hne⟩

/-- `sub rsp, 0x30` and `call rel32` : the call ends in byte 8. -/
def subCallSample : Vector UInt8 disasmLen :=
  ⟨#[0x48, 0x83, 0xec, 0x30, 0xe8, 0x00, 0x01, 0x00, 0x00, 0xcc, 0xcc, 0xcc, 0xcc, 0xcc, 0xcc,
    0xcc, 0xcc, 0xcc, 0xcc], rfl⟩

/-- The target of the call may change in its last byte without the exchange noticing. -/
theorem not_validates_subCall : ¬Validates decodeSample 0x1000 subCallSample := by
  intro h
  obtain ⟨site, hsite, hlen⟩ : ∃ site,
      HookSite.analyze decodeSample 0x1000 subCallSample = .ok site ∧ totalLen site.kept = 9 :=
    ⟨_, rfl, by decide⟩
  have := h.totalLen_kept_le hsite
  omega

end Race

end Diversion
