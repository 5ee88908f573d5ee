import Diversion.Lib.Ledger
import Diversion.ProcessContext
import Diversion.ThreadReloc

/-!
# Installing a hook

`install` (src/installer/arch/x86_64.rs) : look the target up in the table of thunks, and if
it is not there, try until the jump to a new thunk is written. An attempt reads the code,
analyses it, and first tries to fit the jump into the first instruction (`installFast`); if
there is no memory the short jump reaches, it takes five bytes, with the other threads
suspended (`installSlow`). Both build the same chain (`JmpChain.build`) : a thunk near the
target, and the trampoline the thunk leads to.

What the outside decides in one attempt is a `Round` : the bytes read, the regions the system
maps, whether the threads can be suspended, what the code is when it is exchanged. A
`Session` is the context with what has been done so far : the ledger of blocks taken from
the allocator and reclaimed, and the writes to the code. `install_settles` is that the ledger
comes out even.
-/

namespace Diversion

open Ledger

/-! ## Bounds -/

/-- `i32::MIN`. -/
def i32Min : ℤ :=
  -2 ^ 31

/-- `i32::MAX`. -/
def i32Max : ℤ :=
  2 ^ 31 - 1

/-- A conversion to `isize`, or an `isize` operation, which wraps as in a release build. -/
def wrapIsize (n : ℤ) : ℤ :=
  (2 ^ 63 + n) % 2 ^ 64 - 2 ^ 63

/-- The little-endian value of the bytes, as a signed integer of 32 bits. -/
def i32FromLeBytes (bytes : List UInt8) : ℤ :=
  let n : ℕ := bytes.foldr (fun byte n => byte.toNat + 256 * n) 0
  if n < 2 ^ 31 then n else (n : ℤ) - 2 ^ 32

/-- `i32::to_le_bytes`. -/
def i32ToLeBytes (n : ℤ) : List UInt8 :=
  let n := (n % 2 ^ 32).toNat
  (List.range 4).map fun i => .ofNat (n / 256 ^ i)

/-- `disp32_between`. It panics if the distance does not fit. -/
def disp32Between (ip target : ℕ) : Option ℤ :=
  let disp := wrapIsize (wrapIsize target - wrapIsize ip)
  if i32Min ≤ disp ∧ disp ≤ i32Max then some disp else none

/-- `JmpRel`, a jump with a displacement of 32 bits. -/
structure JmpRel where
  disp : ℤ
deriving DecidableEq, Repr

namespace JmpRel

/-- `JmpRel::encode`, `None` if the target is out of reach. -/
def encode (ip target : ℕ) : Option JmpRel :=
  (disp32Between (wrappingAdd ip jmpRelLen) target).map fun disp => { disp }

/-- The opcode and the displacement. -/
def asBytes (jmpRel : JmpRel) : List UInt8 :=
  0xe9 :: i32ToLeBytes jmpRel.disp

/-- `JmpRel::RANGE` : where a jump with any displacement leads. -/
def range : Bound × Bound :=
  (.included (i32Min + jmpRelLen), .included (i32Max + jmpRelLen))

/-- The displacements whose bytes from `len` on are those of the code. -/
def shortDisp (bytes : Vector UInt8 disasmLen) (len : ℕ) (start : List UInt8) : ℤ :=
  i32FromLeBytes ((List.range' len (jmpRelLen - len)).foldl
    (fun disp i => disp.set (i - 1) (bytes.toList.getD i 0)) start)

/-- `JmpRel::short_encoding_range` : where a jump leads that keeps the bytes from `len` on. It
panics if `len` is 0. -/
def shortEncodingRange (bytes : Vector UInt8 disasmLen) (len : ℕ) : Option (Bound × Bound) :=
  if 0 < len then
    some (.included (shortDisp bytes len [0x00, 0x00, 0x00, 0x80] + jmpRelLen),
      .included (shortDisp bytes len [0xff, 0xff, 0xff, 0x7f] + jmpRelLen))
  else none

end JmpRel

/-! ## The session -/

/-- The context and what the installation has done. -/
structure Session where
  context : ProcessContext
  ledger : List (Entry ℕ)
  /-- The writes to code, with their addresses. -/
  writes : List (ℕ × List UInt8)
deriving DecidableEq

namespace Session

/-- Nothing has been done. -/
def ofContext (context : ProcessContext) : Session :=
  ⟨context, [], []⟩

/-- `alloc_near` on the context's allocator. -/
def allocNear (s : Session) (layout : Layout) (ptr : ℕ) (bounds : Bound × Bound) :
    Option (Range × Session) :=
  (s.context.alloc.allocNear layout ptr bounds.1 bounds.2).map fun (alloc, block) =>
    (block, { s with
      context := { s.context with alloc }
      ledger := s.ledger ++ [.take block] })

/-- New memory for the allocator. -/
def adoptRange (s : Session) (range : Range) : Session :=
  { s with context := { s.context with alloc := s.context.alloc.adoptRange range } }

/-- A block is given back, and the ledger says so. -/
def reclaim (s : Session) (value : Range) : Session :=
  { s with
    context := { s.context with alloc := s.context.alloc.reclaim value }
    ledger := s.ledger ++ [.give value] }

/-- Code is written. -/
def write (s : Session) (addr : ℕ) (bytes : List UInt8) : Session :=
  { s with writes := s.writes ++ [(addr, bytes)] }

/-- `os_alloc_near`, where `region` is what `Region::alloc_near` returns if it is called. -/
def osAllocNear (s : Session) (layout : Layout) (region : Except IoError (Option Range)) (ptr : ℕ)
    (bounds : Bound × Bound) : Result (Option Range) × Session :=
  match s.allocNear layout ptr bounds with
  | some (block, s) => (.ok (some block), s)
  | none =>
    match region with
    | .error err => (.error (.err (.alloc ptr err)), s)
    | .ok none => (.ok none, s)
    | .ok (some new) =>
      let s := s.adoptRange new
      match s.allocNear layout ptr bounds with
      | some (block, s) => (.ok (some block), s)
      | none => (.ok none, s)

end Session

/-! ## The trampoline -/

/-- `RELOC_BUF_LEN`. -/
def relocBufLen : ℕ :=
  1024

/-- The buffer that `relocate` encodes into. -/
def relocBufLayout : Layout where
  size := relocBufLen
  align := 1
  size_pos := by decide
  align_pow := ⟨0, rfl⟩
  fits := by decide

/-- What `relocate` has written, with the range it takes of the buffer. -/
structure Trampoline where
  trampolinePtr : ℕ
  bytes : Range
  relocs : List IpReloc
deriving DecidableEq, Repr

namespace HookSite

/-- Where the relocated instructions reach every address they are relative to. -/
def relocateBounds (site : HookSite) : ℕ × Bound × Bound :=
  if site.minRelAddr ≤ site.maxRelAddr then
    let delta := site.maxRelAddr - site.minRelAddr
    let mid := (site.minRelAddr + site.maxRelAddr) / 2
    let maxOffset := wrapIsize ((delta + 1) / 2 + relocBufLen : ℕ)
    (mid, .excluded (wrapIsize (i32Min + maxOffset)), .excluded (wrapIsize (i32Max - maxOffset)))
  else (site.targetAddr, .unbounded, .unbounded)

/-- `HookSite::relocate`. Only a panic keeps the buffer from being given back. -/
def relocate (encode : Encode) (decode : Decode) (site : HookSite)
    (region : Except IoError (Option Range)) (s : Session) : Result Trampoline × Session :=
  let (mid, bounds) := site.relocateBounds
  match s.osAllocNear relocBufLayout region mid bounds with
  | (.error e, s) => (.error e, s)
  | (.ok none, s) => (.error (.err (.oom site.targetAddr)), s)
  | (.ok (some relocBuf), s) =>
    match site.encodeAt encode decode relocBuf.start with
    | .error (.panicked message) => (.error (.panicked message), s)
    | .error (.err e) => (.error (.err e), s.reclaim relocBuf)
    | .ok (bytes, relocs) =>
      if relocBufLen < bytes.length then
        (.error (.err (.encodeSize site.targetAddr bytes.length)), s.reclaim relocBuf)
      else
        -- take used bytes, reclaim the rest
        let mid := relocBuf.start + bytes.length
        (.ok ⟨relocBuf.start, ⟨relocBuf.start, mid⟩, relocs⟩, s.reclaim ⟨mid, relocBuf.stop⟩)

/-- `detour`, where `code` is what the exchange finds at the target. -/
def detour (site : HookSite) (target : ℕ) (jmpRel : JmpRel) (code : List UInt8) (s : Session) :
    Bool × Session :=
  let old := site.bytes.toList.take 8
  let new := jmpRel.asBytes ++ old.drop jmpRelLen
  if code = old then (true, s.write target new) else (false, s)

end HookSite

/-! ## The jump chain -/

/-- The layout of `Thunk` : a jump through the pointer at offset 8, and the pointer. -/
def Thunk.layout : Layout :=
  .twoWords

/-- `offset_of!(Thunk, ptr)`. -/
def Thunk.ptrOffset : ℕ :=
  8

/-- The jump at the target, the thunk it leads to and the trampoline behind it. -/
structure JmpChain where
  thunk : Range
  /-- What the thunk's pointer holds at first. -/
  thunkPtr : ℕ
  jmpRel : JmpRel
  trampolineBytes : Range
  relocs : List IpReloc
deriving DecidableEq, Repr

/-- The regions the system maps for a chain, if it is asked to. -/
structure Regions where
  thunk : Except IoError (Option Range)
  trampoline : Except IoError (Option Range)

namespace JmpChain

/-- The chain of a thunk and a trampoline. `JmpRel::encode` panics if the target does not
reach the thunk. -/
def link (target : ℕ) (thunk : Range) (relocated : Trampoline) : Result JmpChain :=
  match JmpRel.encode target thunk.start with
  | some jmpRel =>
    .ok ⟨thunk, relocated.trampolinePtr, jmpRel, relocated.bytes, relocated.relocs⟩
  | none => .error (.panicked "pointer is not in range")

/-- `JmpChain::build`, `None` if there is no room for the thunk. -/
def build (encode : Encode) (decode : Decode) (target : ℕ) (site : HookSite) (regions : Regions)
    (jmpRelRange : Bound × Bound) (s : Session) : Result (Option JmpChain) × Session :=
  match s.osAllocNear Thunk.layout regions.thunk target jmpRelRange with
  | (.error e, s) => (.error e, s)
  | (.ok none, s) => (.ok none, s)
  | (.ok (some thunk), s) =>
    match site.relocate encode decode regions.trampoline s with
    | (.error (.panicked message), s) => (.error (.panicked message), s)
    | (.error (.err e), s) => (.error (.err e), s.reclaim thunk)
    | (.ok relocated, s) => ((link target thunk relocated).map some, s)

/-- Both blocks of a chain that is not installed. -/
def reclaim (chain : JmpChain) (s : Session) : Session :=
  (s.reclaim chain.trampolineBytes).reclaim chain.thunk

end JmpChain

/-! ## Attempts -/

/-- What the outside decides in one round of the loop. -/
structure Round where
  makeRwx : Except IoError Unit
  siteBytes : Vector UInt8 disasmLen
  fast : Regions
  /-- What the exchange of `install_fast` finds. -/
  fastCode : List UInt8
  slow : Regions
  /-- The other threads, if they can be suspended. -/
  others : Except IoError (List OtherThread)
  slowCode : List UInt8

/-- How an attempt ends. -/
inductive Attempt (α : Type) where
  | done (a : α)
  | tryAgain
  | failed (failure : Failure)

/-- The thunk's pointer is what a hook is installed in. -/
structure ErasedInstaller where
  target : ℕ
  thunk : ℕ
deriving DecidableEq, Repr

/-- `suspend_and_detour`, which exchanges the code once the other threads are suspended. -/
def HookSite.suspendAndDetour (site : HookSite) (target : ℕ) (chain : JmpChain)
    (others : Except IoError (List OtherThread)) (code : List UInt8) (s : Session) :
    Attempt Unit × Session :=
  let (detoured, patched) := site.detour target chain.jmpRel code s
  match (Diversion.suspendAndDetour others chain.relocs detoured).1 with
  | .error (.error e) => (.failed (.err e), s)
  | .error .tryAgain => (.tryAgain, patched)
  | .ok () => (.done (), patched)

/-- What a successful installation returns. -/
def JmpChain.installer (chain : JmpChain) (target : ℕ) : ErasedInstaller :=
  ⟨target, chain.thunk.start + Thunk.ptrOffset⟩

section Install

variable (encode : Encode) (decode : Decode)

/-- A jump whose displacement ends in bytes of the target, so that one instruction is kept. -/
def installFast (target : ℕ) (site : HookSite) (round : Round) (s : Session) :
    Attempt (Option ErasedInstaller) × Session :=
  match site.insns.head? with
  | none => (.failed (.panicked "index out of bounds"), s)
  | some first =>
    match JmpRel.shortEncodingRange site.bytes first.len with
    | none => (.failed (.panicked "must be at least 1 byte long"), s)
    | some range =>
      match JmpChain.build encode decode target site round.fast range s with
      | (.error e, s) => (.failed e, s)
      | (.ok none, s) =>
        -- if the first instruction could not fit the jump `installSlow` is tried
        if first.len < jmpRelLen then (.done none, s)
        else (.failed (.err (.oom target)), s)
      | (.ok (some chain), s) =>
        match site.detour target chain.jmpRel round.fastCode s with
        | (false, s) => (.tryAgain, chain.reclaim s)
        | (true, s) => (.done (some (chain.installer target)), s)

/-- `install_slow` once it has tried to build the chain. -/
def patchSlow (target : ℕ) (site : HookSite) (round : Round) :
    Result (Option JmpChain) × Session → Attempt ErasedInstaller × Session
  | (.error e, s) => (.failed e, s)
  | (.ok none, s) => (.failed (.err (.oom target)), s)
  | (.ok (some chain), s) =>
    match site.suspendAndDetour target chain round.others round.slowCode s with
    | (.failed e, s) => (.failed e, chain.reclaim s)
    | (.tryAgain, s) => (.tryAgain, chain.reclaim s)
    | (.done (), s) => (.done (chain.installer target), s)

/-- A jump over five bytes, with the other threads suspended and relocated. -/
def installSlow (target : ℕ) (site : HookSite) (round : Round) (s : Session) :
    Attempt ErasedInstaller × Session :=
  patchSlow target site round (JmpChain.build encode decode target site round.slow JmpRel.range s)

/-- One round of the loop of `install`. -/
def installRound (target : ℕ) (round : Round) (s : Session) : Attempt ErasedInstaller × Session :=
  match round.makeRwx with
  | .error err => (.failed (.err (.protection target err)), s)
  | .ok () =>
    match HookSite.analyze decode target round.siteBytes with
    | .error e => (.failed e, s)
    | .ok site =>
      match installFast encode decode target site round s with
      | (.failed e, s) => (.failed e, s)
      | (.tryAgain, s) => (.tryAgain, s)
      | (.done (some installer), s) => (.done installer, s)
      | (.done none, s) => installSlow encode decode target site round s

/-- The loop of `install`, which then registers the thunk at the slot. It has not returned
after the rounds if all of them were in vain. -/
def installLoop (pageSize : ℕ) (mmap : Mmap) (target : ℕ) (slot : ThunkSlot) :
    List Round → Session → Option (Result ErasedInstaller × Session)
  | [], _ => none
  | round :: rounds, s =>
    match installRound encode decode target round s with
    | (.tryAgain, s) => installLoop pageSize mmap target slot rounds s
    | (.failed e, s) => some (.error e, s)
    | (.done installer, s) =>
      match s.context.insertThunk pageSize mmap slot installer.thunk with
      | none => some (.error (.panicked "failed to allocate"), s)
      | some context => some (.ok installer, { s with context })

/-- `install`, where `acquired` is whether the context can be acquired. -/
def install (pageSize : ℕ) (mmap : Mmap) (acquired : Except IoError Unit) (target : ℕ)
    (rounds : List Round) (context : ProcessContext) : Option (Result ErasedInstaller × Session) :=
  match acquired with
  | .error err => some (.error (.err (.processContext err)), .ofContext context)
  | .ok () =>
    match context.getThunk target with
    | .ok thunk => some (.ok ⟨target, thunk⟩, .ofContext context)
    | .error slot => installLoop encode decode pageSize mmap target slot rounds (.ofContext context)

end Install

/-! ## What the steps take and reclaim -/

namespace Session

variable {s s' : Session} {layout : Layout} {ptr : ℕ} {bounds : Bound × Bound}
  {block value : Range}

@[simp] theorem reclaim_ledger : (s.reclaim value).ledger = s.ledger ++ [.give value] :=
  rfl

@[simp] theorem reclaim_thunks : (s.reclaim value).context.thunks = s.context.thunks :=
  rfl

@[simp] theorem reclaim_writes : (s.reclaim value).writes = s.writes :=
  rfl

/-- Nothing but the allocator has changed, and the ledger has the entries `ledger` more. -/
structure Moves (s s' : Session) (ledger : List (Entry ℕ)) : Prop where
  ledger : s'.ledger = s.ledger ++ ledger
  thunks : s'.context.thunks = s.context.thunks
  writes : s'.writes = s.writes

theorem Moves.refl (s : Session) : Moves s s [] :=
  ⟨(List.append_nil _).symm, rfl, rfl⟩

/-- Two pieces of an installation, one after the other. -/
theorem Moves.trans {s'' : Session} {l l' : List (Entry ℕ)} (h : Moves s s' l)
    (h' : Moves s' s'' l') : Moves s s'' (l ++ l') where
  ledger := by rw [h'.ledger, h.ledger, List.append_assoc]
  thunks := h'.thunks.trans h.thunks
  writes := h'.writes.trans h.writes

/-- A block that is given back. -/
theorem moves_reclaim (s : Session) (value : Range) : Moves s (s.reclaim value) [.give value] :=
  ⟨rfl, rfl, rfl⟩

/-- New memory is not in the ledger. -/
theorem moves_adoptRange (s : Session) (range : Range) : Moves s (s.adoptRange range) [] :=
  ⟨(List.append_nil _).symm, rfl, rfl⟩

/-- A block has the size that was asked for. -/
theorem moves_allocNear (h : s.allocNear layout ptr bounds = some (block, s')) :
    block.stop = block.start + layout.size ∧ Moves s s' [.take block] := by
  obtain ⟨⟨alloc, block⟩, halloc, heq⟩ := Option.map_eq_some_iff.1 h
  obtain ⟨rfl, rfl⟩ := Prod.mk.inj heq
  exact ⟨BoundedRangeAllocator.allocNear_stop_eq halloc, rfl, rfl, rfl⟩

/-- `osAllocNear` takes the block it returns, and none if it returns none. -/
theorem moves_osAllocNear {region : Except IoError (Option Range)} {result : Result (Option Range)}
    (h : s.osAllocNear layout region ptr bounds = (result, s')) :
    (∃ block, result = .ok (some block) ∧ block.stop = block.start + layout.size ∧
      Moves s s' [.take block]) ∨ (∀ block, result ≠ .ok (some block)) ∧ Moves s s' [] := by
  unfold osAllocNear at h
  cases hfirst : s.allocNear layout ptr bounds with
  | some taken =>
    obtain ⟨block, t⟩ := taken
    obtain ⟨rfl, rfl⟩ := Prod.mk.inj (by simpa only [hfirst] using h)
    exact Or.inl ⟨block, rfl, moves_allocNear hfirst⟩
  | none =>
    simp only [hfirst] at h
    match region, h with
    | .error err, h | .ok none, h =>
      obtain ⟨rfl, rfl⟩ := Prod.mk.inj h
      exact Or.inr ⟨by simp, Moves.refl s⟩
    | .ok (some new), h =>
      cases hsecond : (s.adoptRange new).allocNear layout ptr bounds with
      | some taken =>
        obtain ⟨block, t⟩ := taken
        obtain ⟨rfl, rfl⟩ := Prod.mk.inj (by simpa only [hsecond] using h)
        obtain ⟨hstop, hmoves⟩ := moves_allocNear hsecond
        exact Or.inl ⟨block, rfl, hstop, (moves_adoptRange s new).trans hmoves⟩
      | none =>
        obtain ⟨rfl, rfl⟩ := Prod.mk.inj (by simpa only [hsecond] using h)
        exact Or.inr ⟨by simp, moves_adoptRange s new⟩

/-- Of the blocks taken since, those of `held` have not been reclaimed, and no code was
written. -/
def Leaves (s s' : Session) (held : List Range) : Prop :=
  ∃ ledger, Moves s s' ledger ∧ Settled ledger held

theorem Leaves.refl (s : Session) : Leaves s s [] :=
  ⟨[], Moves.refl s, Settled.nil⟩

/-- What is held after two pieces. -/
theorem Leaves.trans {s'' : Session} {held held' : List Range} (h : Leaves s s' held)
    (h' : Leaves s' s'' held') : Leaves s s'' (held' ++ held) := by
  obtain ⟨l, hmoves, hsettled⟩ := h
  obtain ⟨l', hmoves', hsettled'⟩ := h'
  exact ⟨l ++ l', hmoves.trans hmoves', hsettled.append hsettled'⟩

/-- A block that is given back is not held any more. -/
theorem Leaves.reclaim (pre : List Range) {post : List Range}
    (h : Leaves s s' (pre ++ block :: post)) :
    Leaves s (s'.reclaim block) (pre ++ post) := by
  obtain ⟨l, hmoves, hsettled⟩ := h
  exact ⟨_, hmoves.trans (moves_reclaim s' block), hsettled.give⟩

/-- A block that is held is held in two parts. -/
theorem Leaves.split {start stop : ℕ} {held : List Range}
    (h : Leaves s s' (⟨start, stop⟩ :: held)) (mid : ℕ) (hstart : start ≤ mid)
    (hstop : mid ≤ stop) :
    Leaves s s' (⟨start, mid⟩ :: ⟨mid, stop⟩ :: held) := by
  obtain ⟨l, hmoves, hsettled⟩ := h
  exact ⟨l, hmoves, @Settled.split _ _ _ [] _ _ _ _ hsettled hstart hstop⟩

/-- A block that was handed out is held. -/
theorem leaves_of_take (h : Moves s s' [.take block]) : Leaves s s' [block] :=
  ⟨_, h, Settled.nil.take block⟩

/-- An error is returned after everything was reclaimed. A panic loses what is held, and that
is all it does. -/
def Fails (s s' : Session) : Failure → Prop
  | .err _ => Leaves s s' []
  | .panicked _ => ∃ ledger, Moves s s' ledger

/-- Nothing is held after an error. -/
theorem Leaves.fails (h : Leaves s s' []) (failure : Failure) : Fails s s' failure := by
  cases failure with
  | err e => exact h
  | panicked message => exact h.imp fun _ => And.left

/-- A panic may hold anything. -/
theorem Leaves.panics {held : List Range} (h : Leaves s s' held) (message : String) :
    Fails s s' (.panicked message) :=
  h.imp fun _ => And.left

/-- A failure after something that holds nothing. -/
theorem Leaves.fails_trans {s'' : Session} {failure : Failure} (h : Leaves s s' [])
    (h' : Fails s' s'' failure) : Fails s s'' failure := by
  cases failure with
  | err e => exact h.trans h'
  | panicked message =>
    obtain ⟨_, hmoves, -⟩ := h
    obtain ⟨_, hmoves'⟩ := h'
    exact ⟨_, hmoves.trans hmoves'⟩

/-- Blocks do not change the table of thunks. -/
theorem Leaves.thunks {held : List Range} (h : Leaves s s' held) :
    s'.context.thunks = s.context.thunks := by
  obtain ⟨_, hmoves, -⟩ := h
  exact hmoves.thunks

/-- Nor does a failure. -/
theorem Fails.thunks {failure : Failure} (h : Fails s s' failure) :
    s'.context.thunks = s.context.thunks := by
  cases failure with
  | err e => exact Leaves.thunks h
  | panicked message =>
    obtain ⟨_, hmoves⟩ := h
    exact hmoves.thunks

end Session

/-! ## Each function settles -/

section Settles

open Session

variable {encode : Encode} {decode : Decode} {target : ℕ} {site : HookSite} {s s' : Session}

/-- `relocate` keeps the bytes the encoder returned, and nothing if it fails. -/
theorem leaves_relocate {region : Except IoError (Option Range)} {result : Result Trampoline}
    (h : site.relocate encode decode region s = (result, s')) :
    (∀ failure, result = .error failure → Fails s s' failure) ∧
      ∀ trampoline, result = .ok trampoline → Leaves s s' [trampoline.bytes] ∧
        ∃ bytes, site.encodeAt encode decode trampoline.trampolinePtr =
            .ok (bytes, trampoline.relocs) ∧
          trampoline.bytes =
            ⟨trampoline.trampolinePtr, trampoline.trampolinePtr + bytes.length⟩ := by
  unfold HookSite.relocate at h
  cases halloc : s.osAllocNear relocBufLayout region site.relocateBounds.1
    site.relocateBounds.2 with
  | mk taken t =>
  simp only [halloc] at h
  rcases moves_osAllocNear halloc with ⟨block, rfl, hstop, hmoves⟩ | ⟨hnone, hmoves⟩
  · have htaken : Leaves s t [⟨block.start, block.stop⟩] := leaves_of_take hmoves
    cases hencode : site.encodeAt encode decode block.start with
    | error e =>
      cases e with
      | err e =>
        obtain ⟨rfl, rfl⟩ := Prod.mk.inj (by simpa only [hencode] using h)
        exact ⟨fun _ _ => (htaken.reclaim []).fails _, by simp⟩
      | panicked message =>
        obtain ⟨rfl, rfl⟩ := Prod.mk.inj (by simpa only [hencode] using h)
        refine ⟨fun failure he => ?_, by simp⟩
        obtain rfl := Except.error.inj he
        exact htaken.panics message
    | ok encoded =>
      obtain ⟨bytes, relocs⟩ := encoded
      simp only [hencode] at h
      split_ifs at h with hlen
      · obtain ⟨rfl, rfl⟩ := Prod.mk.inj h
        exact ⟨fun _ _ => (htaken.reclaim []).fails _, by simp⟩
      · obtain ⟨rfl, rfl⟩ := Prod.mk.inj h
        refine ⟨by simp, fun trampoline heq => ?_⟩
        obtain rfl := Except.ok.inj heq
        have hsize : block.stop = block.start + relocBufLen := hstop
        have hsplit := htaken.split (block.start + bytes.length) (Nat.le_add_right _ _) (by omega)
        exact ⟨hsplit.reclaim [_], bytes, hencode, rfl⟩
  · match taken, hnone, h with
    | .ok (some block), hnone, _ => exact absurd rfl (hnone block)
    | .error e, _, h | .ok none, _, h =>
      obtain ⟨rfl, rfl⟩ := Prod.mk.inj h
      exact ⟨fun failure _ => Leaves.fails ⟨[], hmoves, Settled.nil⟩ failure, by simp⟩

/-- The chain leads from the target to the copy of the site's instructions. -/
structure JmpChain.Built (encode : Encode) (decode : Decode) (target : ℕ) (site : HookSite)
    (chain : JmpChain) : Prop where
  trampoline : ∃ bytes, site.encodeAt encode decode chain.thunkPtr = .ok (bytes, chain.relocs) ∧
    chain.trampolineBytes = ⟨chain.thunkPtr, chain.thunkPtr + bytes.length⟩
  jmpRel : JmpRel.encode target chain.thunk.start = some chain.jmpRel
  thunk_stop : chain.thunk.stop = chain.thunk.start + Thunk.layout.size

/-- Linking panics if the thunk is out of reach. -/
theorem JmpChain.link_cases (target : ℕ) (thunk : Range) (relocated : Trampoline) :
    (∃ message, link target thunk relocated = .error (.panicked message)) ∨
      ∃ jmpRel, JmpRel.encode target thunk.start = some jmpRel ∧
        link target thunk relocated =
          .ok ⟨thunk, relocated.trampolinePtr, jmpRel, relocated.bytes, relocated.relocs⟩ := by
  unfold link
  cases JmpRel.encode target thunk.start with
  | none => exact Or.inl ⟨_, rfl⟩
  | some jmpRel => exact Or.inr ⟨jmpRel, rfl, rfl⟩

/-- `build` keeps the blocks of the chain it returns, and none if it returns none. -/
theorem leaves_build {regions : Regions} {range : Bound × Bound}
    {result : Result (Option JmpChain)}
    (h : JmpChain.build encode decode target site regions range s = (result, s')) :
    (∀ failure, result = .error failure → Fails s s' failure) ∧
      (result = .ok none → Leaves s s' []) ∧ ∀ chain, result = .ok (some chain) →
        Leaves s s' [chain.trampolineBytes, chain.thunk] ∧
          chain.Built encode decode target site := by
  unfold JmpChain.build at h
  cases halloc : s.osAllocNear Thunk.layout regions.thunk target range with
  | mk taken t =>
  simp only [halloc] at h
  rcases moves_osAllocNear halloc with ⟨thunk, rfl, hstop, hmoves⟩ | ⟨hnone, hmoves⟩
  · have htaken := leaves_of_take hmoves
    cases hrelocate : site.relocate encode decode regions.trampoline t with
    | mk relocated u =>
    obtain ⟨herr, hok⟩ := leaves_relocate hrelocate
    simp only [hrelocate] at h
    cases relocated with
    | error e =>
      have hfails := herr e rfl
      cases e with
      | panicked message =>
        obtain ⟨rfl, rfl⟩ := Prod.mk.inj h
        refine ⟨fun failure he => ?_, by simp, by simp⟩
        obtain rfl := Except.error.inj he
        obtain ⟨_, hmoves'⟩ := hfails
        exact ⟨_, hmoves.trans hmoves'⟩
      | err e =>
        obtain ⟨rfl, rfl⟩ := Prod.mk.inj h
        exact ⟨fun failure _ => ((htaken.trans hfails).reclaim []).fails failure, by simp, by simp⟩
    | ok trampoline =>
      obtain ⟨hleaves, bytes, hencode, hbytes⟩ := hok trampoline rfl
      obtain ⟨rfl, rfl⟩ := Prod.mk.inj h
      rcases JmpChain.link_cases target thunk trampoline with
        ⟨message, hlink⟩ | ⟨jmpRel, hjmpRel, hlink⟩
      · rw [hlink]
        refine ⟨fun failure he => ?_, by simp [Except.map], by simp [Except.map]⟩
        obtain rfl := Except.error.inj he
        exact (htaken.trans hleaves).panics message
      · rw [hlink]
        refine ⟨by simp [Except.map], by simp [Except.map], fun chain heq => ?_⟩
        obtain rfl := Option.some.inj (Except.ok.inj heq)
        exact ⟨htaken.trans hleaves, ⟨bytes, hencode, hbytes⟩, hjmpRel, hstop⟩
  · have hleaves : Leaves s t [] := ⟨[], hmoves, Settled.nil⟩
    match taken, hnone, h with
    | .ok (some block), hnone, _ => exact absurd rfl (hnone block)
    | .error e, _, h | .ok none, _, h =>
      obtain ⟨rfl, rfl⟩ := Prod.mk.inj h
      exact ⟨fun failure _ => hleaves.fails failure, fun _ => hleaves, by simp⟩

/-- The bytes `detour` writes. -/
def HookSite.patched (site : HookSite) (jmpRel : JmpRel) : List UInt8 :=
  jmpRel.asBytes ++ (site.bytes.toList.take 8).drop jmpRelLen

/-- `detour` finds the bytes of the site and writes the jump, or it writes nothing. -/
theorem detour_cases (site : HookSite) (target : ℕ) (jmpRel : JmpRel) (code : List UInt8)
    (s : Session) :
    (code = site.bytes.toList.take 8 ∧
        site.detour target jmpRel code s = (true, s.write target (site.patched jmpRel))) ∨
      site.detour target jmpRel code s = (false, s) := by
  unfold HookSite.detour HookSite.patched
  simp only
  split_ifs with hcode
  · exact Or.inl ⟨hcode, rfl⟩
  · exact Or.inr rfl

/-- The chain is all that is left, and its jump was written. -/
def Patches (encode : Encode) (decode : Decode) (target : ℕ) (site : HookSite)
    (installer : ErasedInstaller) (s s' : Session) : Prop :=
  ∃ (chain : JmpChain) (t : Session), chain.Built encode decode target site ∧
    installer = chain.installer target ∧ Leaves s t [chain.trampolineBytes, chain.thunk] ∧
    s' = t.write target (site.patched chain.jmpRel)

/-- How an attempt settles. -/
def Attempt.Settles {α : Type} (attempt : Attempt α) (s s' : Session) (P : α → Prop) : Prop :=
  match attempt with
  | .done a => P a
  | .tryAgain => Leaves s s' []
  | .failed failure => Fails s s' failure

/-- What an attempt does after nothing was left. -/
theorem Attempt.Settles.after {α : Type} {attempt : Attempt α} {t : Session} {P Q : α → Prop}
    (hleaves : Leaves s t []) (h : attempt.Settles t s' P) (hP : ∀ a, P a → Q a) :
    attempt.Settles s s' Q := by
  cases attempt with
  | done a => exact hP a h
  | tryAgain => exact hleaves.trans h
  | failed failure => exact hleaves.fails_trans h

/-- Nor does the patch, whose thunk is recorded afterwards. -/
theorem Patches.thunks {installer : ErasedInstaller}
    (h : Patches encode decode target site installer s s') :
    s'.context.thunks = s.context.thunks := by
  obtain ⟨_, t, -, -, hleaves, rfl⟩ := h
  exact hleaves.thunks

theorem Patches.after {installer : ErasedInstaller} {t : Session} (hleaves : Leaves s t [])
    (h : Patches encode decode target site installer t s') :
    Patches encode decode target site installer s s' := by
  obtain ⟨chain, u, hbuilt, hinstaller, hchain, hwrite⟩ := h
  exact ⟨chain, u, hbuilt, hinstaller, by simpa using hleaves.trans hchain, hwrite⟩

/-- Nothing is held once a chain was given back. -/
theorem JmpChain.leaves_reclaim {chain : JmpChain} {t : Session}
    (h : Leaves s t [chain.trampolineBytes, chain.thunk]) : Leaves s (chain.reclaim t) [] :=
  (h.reclaim []).reclaim []

/-- The fast path patches, gives up with nothing held, or fails. -/
theorem settles_installFast {round : Round} {attempt : Attempt (Option ErasedInstaller)}
    (h : installFast encode decode target site round s = (attempt, s')) :
    attempt.Settles s s' fun installer => match installer with
      | some installer => Patches encode decode target site installer s s'
      | none => Leaves s s' [] := by
  unfold installFast at h
  cases hfirst : site.insns.head? with
  | none =>
    obtain ⟨rfl, rfl⟩ := Prod.mk.inj (by simpa only [hfirst] using h)
    exact (Leaves.refl s).panics "index out of bounds"
  | some first =>
    simp only [hfirst] at h
    cases hrange : JmpRel.shortEncodingRange site.bytes first.len with
    | none =>
      obtain ⟨rfl, rfl⟩ := Prod.mk.inj (by simpa only [hrange] using h)
      exact (Leaves.refl s).panics "must be at least 1 byte long"
    | some range =>
      simp only [hrange] at h
      cases hbuild : JmpChain.build encode decode target site round.fast range s with
      | mk built t =>
      obtain ⟨herr, hnone, hsome⟩ := leaves_build hbuild
      simp only [hbuild] at h
      cases built with
      | error e =>
        obtain ⟨rfl, rfl⟩ := Prod.mk.inj h
        exact herr e rfl
      | ok built =>
        cases built with
        | none =>
          simp only at h
          split_ifs at h <;> obtain ⟨rfl, rfl⟩ := Prod.mk.inj h <;> exact hnone rfl
        | some chain =>
          obtain ⟨hleaves, hbuilt⟩ := hsome chain rfl
          simp only at h
          rcases detour_cases site target chain.jmpRel round.fastCode t with
            ⟨-, hdetour⟩ | hdetour <;>
            simp only [hdetour] at h <;> obtain ⟨rfl, rfl⟩ := Prod.mk.inj h
          · exact ⟨chain, t, hbuilt, rfl, hleaves, rfl⟩
          · exact JmpChain.leaves_reclaim hleaves

/-- `suspendAndDetour` finds the bytes of the site and writes the jump, or fails with nothing
written. -/
theorem suspendAndDetour_cases (site : HookSite) (target : ℕ) (chain : JmpChain)
    (others : Except IoError (List OtherThread)) (code : List UInt8) (s : Session) :
    (code = site.bytes.toList.take 8 ∧ site.suspendAndDetour target chain others code s =
        (.done (), s.write target (site.patched chain.jmpRel))) ∨
      site.suspendAndDetour target chain others code s = (.tryAgain, s) ∨
      ∃ e, site.suspendAndDetour target chain others code s = (.failed (.err e), s) := by
  unfold HookSite.suspendAndDetour
  unfold Diversion.suspendAndDetour
  cases suspendAndRelocOtherThreads others chain.relocs with
  | error err => exact Or.inr (Or.inr ⟨.suspend err, rfl⟩)
  | ok guard =>
    rcases detour_cases site target chain.jmpRel code s with ⟨hcode, hdetour⟩ | hdetour <;>
      rw [hdetour]
    · exact Or.inl ⟨hcode, rfl⟩
    · exact Or.inr (Or.inl rfl)

/-- The slow path patches or fails. -/
theorem settles_installSlow {round : Round} {attempt : Attempt ErasedInstaller}
    (h : installSlow encode decode target site round s = (attempt, s')) :
    attempt.Settles s s' fun installer => Patches encode decode target site installer s s' := by
  unfold installSlow at h
  generalize hbuild : JmpChain.build encode decode target site round.slow JmpRel.range s = built
    at h
  obtain ⟨built, t⟩ := built
  obtain ⟨herr, hnone, hsome⟩ := leaves_build hbuild
  cases built with
  | error e =>
    obtain ⟨rfl, rfl⟩ := Prod.mk.inj h
    exact herr e rfl
  | ok built =>
    cases built with
    | none =>
      obtain ⟨rfl, rfl⟩ := Prod.mk.inj h
      exact hnone rfl
    | some chain =>
      obtain ⟨hleaves, hbuilt⟩ := hsome chain rfl
      simp only [patchSlow] at h
      rcases suspendAndDetour_cases site target chain round.others round.slowCode t with
        ⟨-, hdetour⟩ | hdetour | ⟨e, hdetour⟩ <;>
        simp only [hdetour] at h <;> obtain ⟨rfl, rfl⟩ := Prod.mk.inj h
      · exact ⟨chain, t, hbuilt, rfl, hleaves, rfl⟩
      · exact JmpChain.leaves_reclaim hleaves
      · exact JmpChain.leaves_reclaim hleaves

/-- A round patches the site that it has analyzed, or fails. -/
theorem settles_installRound {round : Round} {attempt : Attempt ErasedInstaller}
    (h : installRound encode decode target round s = (attempt, s')) :
    attempt.Settles s s' fun installer =>
      ∃ site, HookSite.analyze decode target round.siteBytes = .ok site ∧
        Patches encode decode target site installer s s' := by
  unfold installRound at h
  cases hrwx : round.makeRwx with
  | error err =>
    obtain ⟨rfl, rfl⟩ := Prod.mk.inj (by simpa only [hrwx] using h)
    exact Leaves.refl s
  | ok _ =>
    simp only [hrwx] at h
    cases hsite : HookSite.analyze decode target round.siteBytes with
    | error e =>
      obtain ⟨rfl, rfl⟩ := Prod.mk.inj (by simpa only [hsite] using h)
      exact (Leaves.refl s).fails e
    | ok site =>
      simp only [hsite] at h
      cases hfast : installFast encode decode target site round s with
      | mk attempt' t =>
      have hsettles := settles_installFast hfast
      simp only [hfast] at h
      cases attempt' with
      | failed failure =>
        obtain ⟨rfl, rfl⟩ := Prod.mk.inj h
        exact hsettles
      | tryAgain =>
        obtain ⟨rfl, rfl⟩ := Prod.mk.inj h
        exact hsettles
      | done installer =>
        cases installer with
        | some installer =>
          obtain ⟨rfl, rfl⟩ := Prod.mk.inj h
          exact ⟨site, rfl, hsettles⟩
        | none =>
          exact (settles_installSlow h).after hsettles fun _ hpatches =>
            ⟨site, rfl, hpatches.after hsettles⟩

/-- A run of the loop that returns an error has settled everything. One that returns an
installer has kept the chain of its last round. Only that one changes the table. -/
theorem settles_installLoop {pageSize : ℕ} {mmap : Mmap} {slot : ThunkSlot} :
    ∀ {rounds : List Round} {s : Session} {result : Result ErasedInstaller},
      installLoop encode decode pageSize mmap target slot rounds s = some (result, s') →
        (∀ e, result = .error (.err e) → Leaves s s' []) ∧
          (∀ failure, result = .error failure → s'.context.thunks = s.context.thunks) ∧
          ∀ installer, result = .ok installer → ∃ pre last post site t,
            rounds = pre ++ last :: post ∧
              HookSite.analyze decode target last.siteBytes = .ok site ∧
              Patches encode decode target site installer s t ∧
              t.context.insertThunk pageSize mmap slot installer.thunk = some s'.context ∧
              s'.ledger = t.ledger ∧ s'.writes = t.writes
  | [], s, result, h => by simp [installLoop] at h
  | round :: rounds, s, result, h => by
    unfold installLoop at h
    cases hround : installRound encode decode target round s with
    | mk attempt t =>
    have hsettles := settles_installRound hround
    simp only [hround] at h
    cases attempt with
    | tryAgain =>
      obtain ⟨herr, hthunks, hok⟩ := settles_installLoop h
      have hleaves : Leaves s t [] := hsettles
      refine ⟨fun e he => hleaves.trans (herr e he), fun failure he => ?_, fun installer hi => ?_⟩
      · exact (hthunks failure he).trans hleaves.thunks
      · obtain ⟨pre, last, post, site, u, rfl, hsite, hpatches, hrest⟩ := hok installer hi
        exact ⟨round :: pre, last, post, site, u, rfl, hsite, hpatches.after hleaves, hrest⟩
    | failed failure =>
      obtain ⟨rfl, rfl⟩ := Prod.mk.inj (Option.some.inj h)
      have hfails : Fails s t failure := hsettles
      refine ⟨fun e he => ?_, fun _ _ => hfails.thunks, by simp⟩
      obtain rfl := Except.error.inj he
      exact hfails
    | done installer =>
      obtain ⟨site, hsite, hpatches⟩ := hsettles
      simp only at h
      cases hinsert : t.context.insertThunk pageSize mmap slot installer.thunk with
      | none =>
        obtain ⟨rfl, rfl⟩ := Prod.mk.inj (Option.some.inj (by simpa only [hinsert] using h))
        exact ⟨by simp, fun _ _ => hpatches.thunks, by simp⟩
      | some context =>
        obtain ⟨rfl, rfl⟩ := Prod.mk.inj (Option.some.inj (by simpa only [hinsert] using h))
        refine ⟨by simp, by simp, fun installer' hi => ?_⟩
        obtain rfl := Except.ok.inj hi
        exact ⟨[], round, rounds, site, t, rfl, hsite, hpatches, hinsert, rfl, rfl⟩

/-- An installation that returns an error has written no code and has not touched the table,
and every block it took was reclaimed once. One that has patched the target keeps the thunk and
the used bytes of the trampoline it built in its last round, and nothing else. -/
theorem install_settles {pageSize : ℕ} {mmap : Mmap} {acquired : Except IoError Unit}
    {rounds : List Round} {context : ProcessContext} {result : Result ErasedInstaller}
    (h : install encode decode pageSize mmap acquired target rounds context = some (result, s')) :
    (∀ e, result = .error (.err e) → s'.writes = [] ∧ s'.context.thunks = context.thunks ∧
      Settled s'.ledger [] ∧ ∀ x, s'.ledger.countP (Entry.takes x) =
        s'.ledger.countP (Entry.gives x)) ∧
      ∀ installer, result = .ok installer →
        (context.getThunk target = .ok installer.thunk ∧ s'.ledger = [] ∧ s'.writes = []) ∨
          ∃ pre last post site chain, rounds = pre ++ last :: post ∧
            HookSite.analyze decode target last.siteBytes = .ok site ∧
            JmpChain.Built encode decode target site chain ∧
            installer = chain.installer target ∧
            s'.writes = [(target, site.patched chain.jmpRel)] ∧
            Settled s'.ledger [chain.trampolineBytes, chain.thunk] := by
  unfold install at h
  cases acquired with
  | error err =>
    obtain ⟨rfl, rfl⟩ := Prod.mk.inj (Option.some.inj h)
    exact ⟨fun _ _ => ⟨rfl, rfl, Settled.nil, fun _ => rfl⟩, by simp⟩
  | ok _ =>
    simp only at h
    cases hget : context.getThunk target with
    | ok thunk =>
      obtain ⟨rfl, rfl⟩ := Prod.mk.inj (Option.some.inj (by simpa only [hget] using h))
      refine ⟨by simp, fun installer hi => Or.inl ?_⟩
      obtain rfl := Except.ok.inj hi
      exact ⟨rfl, rfl, rfl⟩
    | error slot =>
      simp only [hget] at h
      obtain ⟨herr, -, hok⟩ := settles_installLoop h
      refine ⟨fun e he => ?_, fun installer hi => Or.inr ?_⟩
      · obtain ⟨ledger, hmoves, hsettled⟩ := herr e he
        obtain rfl : s'.ledger = ledger := by simpa [Session.ofContext] using hmoves.ledger
        exact ⟨hmoves.writes, hmoves.thunks, hsettled,
          fun x => by simpa using hsettled.countP_take x⟩
      · obtain ⟨pre, last, post, site, t, hrounds, hsite, ⟨chain, u, hbuilt, hinstaller, hleaves,
          rfl⟩, hinsert, hledger, hwrites⟩ := hok installer hi
        obtain ⟨ledger, hmoves, hsettled⟩ := hleaves
        refine ⟨pre, last, post, site, chain, hrounds, hsite, hbuilt, hinstaller, ?_, ?_⟩
        · rw [hwrites, Session.write, hmoves.writes]
          rfl
        · rw [hledger, Session.write, hmoves.ledger]
          exact hsettled

end Settles

/-! ## A run -/

/-- No memory the short jump reaches, and a page for the full one. -/
def sampleRound (slowCode : List UInt8) : Round where
  makeRwx := .ok ()
  siteBytes := pushSubSample
  fast := ⟨.ok none, .ok none⟩
  fastCode := []
  slow := ⟨.ok (some ⟨0x10000, 0x11000⟩), .ok none⟩
  others := .ok [⟨7, some 0x1001⟩]
  slowCode := slowCode

/-- The other threads cannot be suspended. -/
def failingRound : Round :=
  { sampleRound [0xcc] with others := .error ⟨"sigaction"⟩ }

/-- An installation at `push rbp; sub rsp, 0x30` in an empty context. -/
def installSample (rounds : List Round) : Option (Result ErasedInstaller × Session) :=
  install pushSubEncode decodeSample 4096 (fun _ => some 0x30000) (.ok ()) 0x1000 rounds .zeroed

/-- The code has changed in the first round. Then the threads cannot be suspended, or the
second round patches the code. -/
theorem install_settles_sample :
    (∃ s, installSample [sampleRound [0xcc], failingRound] =
        some (.error (.err (.suspend ⟨"sigaction"⟩)), s) ∧ Settled s.ledger []) ∧
      ∃ s chain, installSample [sampleRound [0xcc], sampleRound (pushSubSample.toList.take 8)] =
          some (.ok (JmpChain.installer chain 0x1000), s) ∧
        Settled s.ledger [chain.trampolineBytes, chain.thunk] := by
  have herr : (installSample [sampleRound [0xcc], failingRound]).map Prod.fst =
      some (.error (.err (.suspend ⟨"sigaction"⟩))) := by decide +kernel
  have hok : (installSample [sampleRound [0xcc],
      sampleRound (pushSubSample.toList.take 8)]).map Prod.fst = some (.ok ⟨0x1000, 0x10ff8⟩) := by
    decide +kernel
  obtain ⟨⟨_, s⟩, hrun, rfl⟩ := Option.map_eq_some_iff.1 herr
  obtain ⟨⟨_, t⟩, hrun', rfl⟩ := Option.map_eq_some_iff.1 hok
  refine ⟨⟨s, hrun, ((install_settles hrun).1 _ rfl).2.2.1⟩, ?_⟩
  rcases (install_settles hrun').2 _ rfl with ⟨hget, -⟩ | ⟨_, _, _, _, chain, -, -, -, heq, -, h⟩
  · cases hget
  · exact ⟨t, chain, by rw [hrun', heq], h⟩

end Diversion
