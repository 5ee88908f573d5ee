import Diversion.Decode
import Diversion.Lib.Mutex
import Diversion.Lib.SharedObject

/-!
# The named mapping

`MmapRaw::named` (src/abi/src/alloc/linux.rs), called by any number of threads of a process, one
call of the operating system a step. All of them use the same name, and each may fail wherever the
operating system lets it.

The call that creates the object holds it like a lock until it is truncated or unlinked
(`Phase.isCreating`) : the others see length 0 and open it again. `Stage` is what the name is
linked to, and `Inv` says what each call knows of the object its descriptor is open on
(`Phase.Fits`). `Agrees` is what follows for every run : all calls that succeed map one and the
same object, which is never unlinked, and once there is one every call returns.
-/

namespace Diversion

namespace NamedMapping

/-- What `MmapRaw` maps. -/
structure MmapRaw where
  /-- The shared memory object that `ptr` points to. -/
  object : ℕ
  size : UInt32
deriving DecidableEq, Repr

/-- What a call does next. -/
inductive Phase where
  /-- `shm_open` with `O_CREAT | O_EXCL`. -/
  | entry
  | truncating (fd : ℕ)
  /-- `close` after `ftruncate` has failed. -/
  | abandoning (fd : ℕ) (err : IoError)
  /-- `shm_unlink` after that. -/
  | unlinking (err : IoError)
  /-- `shm_open` in the loop. -/
  | reopening
  | stating (fd : ℕ)
  /-- `close` after `fstat` has failed. -/
  | closing (fd : ℕ) (err : IoError)
  /-- `thread::sleep`. The descriptor has not been closed. -/
  | sleeping
  | mapping (fd : ℕ) (size : UInt32)
  /-- `close` after `mmap`. -/
  | mapped (fd : ℕ) (result : Except IoError MmapRaw)
  | returned (result : Except IoError MmapRaw)
deriving DecidableEq, Repr

namespace Phase

/-- The call has created the object and neither truncated nor unlinked it. -/
def isCreating : Phase → Bool
  | .truncating _ | .abandoning _ _ | .unlinking _ => true
  | _ => false

/-- The descriptor the call is going to close. -/
def fd? : Phase → Option ℕ
  | .truncating fd | .abandoning fd _ | .stating fd | .closing fd _ | .mapping fd _
  | .mapped fd _ => some fd
  | .entry | .unlinking _ | .reopening | .sleeping | .returned _ => none

/-- The call has returned a mapping. -/
def isReturned : Phase → Bool
  | .returned _ => true
  | _ => false

/-- The call has not failed, and has not created the object. -/
def isHopeful : Phase → Bool
  | .entry | .reopening | .stating _ | .sleeping | .mapping _ _ | .mapped _ (.ok _)
  | .returned (.ok _) => true
  | _ => false

end Phase

/-- A call of `MmapRaw::named`. `rounds` counts how often it has found the object empty. -/
structure Call where
  size : UInt32
  rounds : ℕ
  phase : Phase
deriving DecidableEq, Repr

/-- The length of a new object. -/
def Call.len (call : Call) : UInt32 :=
  max call.size 1

/-- No mapping is empty. -/
theorem Call.len_pos (call : Call) : 0 < call.len := by
  unfold Call.len
  rw [UInt32.lt_iff_toNat_lt]
  change 0 < (if call.size ≤ 1 then 1 else call.size).toNat
  split_ifs with hsize
  · decide
  · exact (Nat.zero_le 1).trans_lt (Nat.lt_of_not_le hsize)

/-- The descriptors the call has opened and not closed : the one in use, and one for each round. -/
def Call.openCount (call : Call) : ℕ :=
  call.rounds + call.phase.fd?.isSome.toNat

/-- The object and the calls of `MmapRaw::named`. -/
structure State where
  shm : SharedObject
  calls : List Call
deriving DecidableEq, Repr

/-- Nobody has called, and the name is free. -/
def State.init : State :=
  ⟨.init, []⟩

/-- One step of one caller. -/
inductive Action where
  /-- A thread calls `MmapRaw::named`. -/
  | named (size : UInt32)
  /-- The next step of a call. `os` says whether the operating system fails for a reason of its
  own. -/
  | call (i : ℕ) (os : Except IoError Unit)
deriving DecidableEq

/-- `io::Error::last_os_error` when the name is not linked. -/
def enoent : IoError :=
  ⟨"No such file or directory (os error 2)"⟩

/-- `stat.st_size.clamp(0, u32::MAX as i64) as u32`. -/
def clampSize (stSize : ℕ) : UInt32 :=
  UInt32.ofNat (min stSize (2 ^ 32 - 1))

namespace State

/-- Move one call. -/
def setPhase (s : State) (i : ℕ) (call : Call) (phase : Phase) : State :=
  { s with calls := s.calls.set i { call with phase } }

/-- `MmapRaw::named`. -/
def stepCall (s : State) (i : ℕ) (call : Call) (os : Except IoError Unit) : Option State :=
  match call.phase, os with
  | .entry, .ok _ =>
    match s.shm.create with
    | some (fd, shm) => some ({ s with shm }.setPhase i call (.truncating fd))
    | none => some (s.setPhase i call .reopening)
  | .entry, .error err => some (s.setPhase i call (.returned (.error err)))
  | .truncating fd, .ok _ =>
    (s.shm.ftruncate fd call.len.toNat).map fun shm =>
      { s with shm }.setPhase i call (.mapping fd call.len)
  | .truncating fd, .error err => some (s.setPhase i call (.abandoning fd err))
  | .abandoning fd err, _ =>
    some ({ s with shm := s.shm.close fd }.setPhase i call (.unlinking err))
  | .unlinking err, _ =>
    some ({ s with shm := s.shm.unlink }.setPhase i call (.returned (.error err)))
  | .reopening, .ok _ =>
    match s.shm.reopen with
    | some (fd, shm) => some ({ s with shm }.setPhase i call (.stating fd))
    | none => some (s.setPhase i call (.returned (.error enoent)))
  | .reopening, .error err => some (s.setPhase i call (.returned (.error err)))
  | .stating fd, .ok _ =>
    (s.shm.fstat fd).map fun stSize =>
      if 0 < stSize then s.setPhase i call (.mapping fd (clampSize stSize))
      else s.setPhase i { call with rounds := call.rounds + 1 } .sleeping
  | .stating fd, .error err => some (s.setPhase i call (.closing fd err))
  | .closing fd err, _ =>
    some ({ s with shm := s.shm.close fd }.setPhase i call (.returned (.error err)))
  | .sleeping, _ => some (s.setPhase i call .reopening)
  | .mapping fd size, .ok _ =>
    (s.shm.object fd).map fun object => s.setPhase i call (.mapped fd (.ok ⟨object, size⟩))
  | .mapping fd _, .error err => some (s.setPhase i call (.mapped fd (.error err)))
  | .mapped fd result, _ =>
    some ({ s with shm := s.shm.close fd }.setPhase i call (.returned result))
  | .returned _, _ => none

/-- `none` where the step is not enabled. -/
def step (s : State) : Action → Option State
  | .named size => some { s with calls := s.calls ++ [⟨size, 0, .entry⟩] }
  | .call i os => (s.calls[i]?).bind fun call => s.stepCall i call os

end State

/-! ## The object behind the name -/

/-- What the name is linked to. -/
inductive Stage where
  | free
  /-- An empty object that call `i` has created. -/
  | creating (i : ℕ)
  | ready (size : UInt32)
deriving DecidableEq, Repr

namespace Stage

/-- The call that has created the object and has not set its length. -/
def creator : Stage → Option ℕ
  | .creating i => some i
  | .free | .ready _ => none

/-- The name, `dead` objects having been unlinked. -/
def linked (dead : ℕ) : Stage → Option ℕ
  | .free => none
  | .creating _ | .ready _ => some dead

/-- The lengths of the objects : those of the dead ones, and of the one that is linked. -/
def lengths (dead : ℕ) : Stage → List ℕ
  | .free => List.replicate dead 0
  | .creating _ => List.replicate dead 0 ++ [0]
  | .ready size => List.replicate dead 0 ++ [size.toNat]

end Stage

/-- What a call knows at a stage. -/
def Phase.Fits (stage : Stage) (dead : ℕ) (shm : SharedObject) : Phase → Prop
  | .truncating fd | .abandoning fd _ => shm.IsOpen fd dead
  | .stating fd | .closing fd _ | .mapped fd (.error _) =>
    ∃ o < shm.lengths.length, shm.IsOpen fd o
  | .mapping fd size => stage = .ready size ∧ shm.IsOpen fd dead
  | .mapped fd (.ok raw) =>
    stage = .ready raw.size ∧ raw.object = dead ∧ shm.IsOpen fd dead
  | .returned (.ok raw) => stage = .ready raw.size ∧ raw.object = dead
  | .entry | .unlinking _ | .reopening | .sleeping | .returned (.error _) => True

/-- The invariant : at most one object is linked, and its length is set once. -/
structure Inv (s : State) (stage : Stage) (dead : ℕ) : Prop where
  linked : s.shm.linked = stage.linked dead
  lengths : s.shm.lengths = stage.lengths dead
  size_pos : ∀ size, stage = .ready size → 0 < size ∧ ∃ call ∈ s.calls, size = call.len
  fits : ∀ (i : ℕ) (call : Call), s.calls[i]? = some call → call.phase.Fits stage dead s.shm
  creator : Mutex.Owns (fun call : Call => call.phase.isCreating) s.calls stage.creator
  apart : ∀ (i j fd : ℕ) (call call' : Call), s.calls[i]? = some call → s.calls[j]? = some call' →
    call.phase.fd? = some fd → call'.phase.fd? = some fd → i = j
  openCount : s.shm.openCount = (s.calls.map Call.openCount).sum

section Inv

variable {s t : State} {shm : SharedObject} {stage stage' : Stage} {dead dead' i fd : ℕ}
  {call call' : Call} {phase : Phase} {os : Except IoError Unit}

/-- The descriptor in use is open. -/
theorem Phase.Fits.isOpen (h : phase.Fits stage dead shm) (hfd : phase.fd? = some fd) :
    ∃ o, shm.IsOpen fd o := by
  cases phase with
  | truncating | abandoning =>
    obtain rfl := Option.some.inj hfd
    exact ⟨dead, h⟩
  | stating | closing =>
    obtain rfl := Option.some.inj hfd
    obtain ⟨o, -, ho⟩ := h
    exact ⟨o, ho⟩
  | mapping =>
    obtain rfl := Option.some.inj hfd
    exact ⟨dead, h.2⟩
  | mapped fd result =>
    obtain rfl := Option.some.inj hfd
    cases result with
    | error => exact h.imp fun _ => And.right
    | ok => exact ⟨dead, h.2.2⟩
  | entry | unlinking | reopening | sleeping | returned => cases hfd

/-- What a call knows stays true as long as its descriptor stays open, and the object that it has
created or mapped is linked. -/
theorem Phase.Fits.frame {shm' : SharedObject} (h : phase.Fits stage dead shm)
    (hopen : ∀ fd o, phase.fd? = some fd → shm.IsOpen fd o → shm'.IsOpen fd o)
    (hlen : shm.lengths.length ≤ shm'.lengths.length)
    (hstage : stage' = stage ∧ dead' = dead ∨
      phase.isCreating = false ∧ ∀ size, stage ≠ .ready size) : phase.Fits stage' dead' shm' := by
  have hempty : ∀ {fd}, phase.fd? = some fd → (∃ o < shm.lengths.length, shm.IsOpen fd o) →
      ∃ o < shm'.lengths.length, shm'.IsOpen fd o := by
    rintro fd hfd ⟨o, hlt, ho⟩
    exact ⟨o, hlt.trans_le hlen, hopen fd o hfd ho⟩
  cases phase with
  | entry | unlinking | reopening | sleeping => trivial
  | stating | closing => exact hempty rfl h
  | truncating | abandoning =>
    rcases hstage with ⟨rfl, rfl⟩ | ⟨hcreating, -⟩
    · exact hopen _ _ rfl h
    · cases hcreating
  | mapping =>
    rcases hstage with ⟨rfl, rfl⟩ | ⟨-, hready⟩
    · exact ⟨h.1, hopen _ _ rfl h.2⟩
    · exact absurd h.1 (hready _)
  | mapped fd result =>
    cases result with
    | error => exact hempty rfl h
    | ok =>
      rcases hstage with ⟨rfl, rfl⟩ | ⟨-, hready⟩
      · exact ⟨h.1, h.2.1, hopen _ _ rfl h.2.2⟩
      · exact absurd h.1 (hready _)
  | returned result =>
    cases result with
    | error => trivial
    | ok =>
      rcases hstage with ⟨rfl, rfl⟩ | ⟨-, hready⟩
      · exact h
      · exact absurd h.1 (hready _)

/-- It holds before the first call. -/
theorem inv_init : Inv .init .free 0 where
  linked := rfl
  lengths := rfl
  size_pos := fun _ h => nomatch h
  fits := by simp [State.init]
  creator := Mutex.owns_nil
  apart := by simp [State.init]
  openCount := rfl

/-- A descriptor of a call was made. -/
theorem Inv.lt_of_isOpen (h : Inv s stage dead) (hget : s.calls[i]? = some call)
    (hfd : call.phase.fd? = some fd) : fd < s.shm.fds.length := by
  obtain ⟨o, ho⟩ := (h.fits i call hget).isOpen hfd
  exact ho.lt

/-- A step of one call. It may open a descriptor or close its own, and only the creator changes
what the name is linked to, unless it is linked to nothing. -/
theorem Inv.move (h : Inv s stage dead) (hget : s.calls[i]? = some call)
    (hlinked : shm.linked = stage'.linked dead') (hlengths : shm.lengths = stage'.lengths dead')
    (hlen : s.shm.lengths.length ≤ shm.lengths.length)
    (hstage : stage' = stage ∧ dead' = dead ∨ (∀ size, stage ≠ .ready size) ∧
      (∀ size, stage' = .ready size → size = call.len) ∧
        (stage.creator = none ∨ stage.creator = some i))
    (hopen : ∀ fd o, call.phase.fd? ≠ some fd → s.shm.IsOpen fd o → shm.IsOpen fd o)
    (hsize : call'.size = call.size) (hfits : call'.phase.Fits stage' dead' shm)
    (hcreator : Mutex.Owns (fun call : Call => call.phase.isCreating) (s.calls.set i call')
      stage'.creator)
    (hfd : ∀ fd, call'.phase.fd? = some fd → call.phase.fd? = some fd ∨ fd = s.shm.fds.length)
    (hcount : shm.openCount + call.openCount = s.shm.openCount + call'.openCount) :
    Inv ⟨shm, s.calls.set i call'⟩ stage' dead' where
  linked := hlinked
  lengths := hlengths
  size_pos := by
    intro size hready
    have hlen' : call'.len = call.len := congrArg (max · 1) hsize
    rcases hstage with ⟨rfl, -⟩ | ⟨-, hnew, -⟩
    · obtain ⟨hpos, maker, hmem, rfl⟩ := h.size_pos size hready
      obtain ⟨j, hj⟩ := List.getElem?_of_mem hmem
      refine ⟨hpos, ?_⟩
      by_cases hij : i = j
      · subst hij
        obtain rfl := Option.some.inj (hget.symm.trans hj)
        exact ⟨call', List.mem_of_getElem? (Pool.getElem?_set_of_getElem? hget), hlen'.symm⟩
      · exact ⟨maker, List.mem_of_getElem? ((List.getElem?_set_ne hij).trans hj), rfl⟩
    · obtain rfl := hnew size hready
      refine ⟨?_, call', List.mem_of_getElem? (Pool.getElem?_set_of_getElem? hget), hlen'.symm⟩
      exact call.len_pos
  fits := by
    intro j other hj
    rcases Pool.mem_of_getElem?_set hj with ⟨-, rfl⟩ | ⟨hij, hj⟩
    · exact hfits
    · refine (h.fits j other hj).frame (fun fd o hfd => hopen fd o fun hown => ?_) hlen
        (hstage.imp_right fun hstage => ⟨?_, hstage.1⟩)
      · exact hij (h.apart i j fd call other hget hj hown hfd)
      · refine h.creator.eq_false hj fun howner => ?_
        rcases hstage.2.2 with hnone | hsome
        · exact nomatch hnone.symm.trans howner
        · exact hij (Option.some.inj (hsome.symm.trans howner))
  creator := hcreator
  apart := by
    have hother : ∀ {j fd : ℕ} {other : Call}, i ≠ j → s.calls[j]? = some other →
        call'.phase.fd? = some fd → other.phase.fd? = some fd → False := by
      intro j fd other hij hj hnew hold
      rcases hfd fd hnew with hown | rfl
      · exact hij (h.apart i j fd call other hget hj hown hold)
      · exact absurd (h.lt_of_isOpen hj hold) (lt_irrefl _)
    intro j k fd c c' hj hk hc hc'
    rcases Pool.mem_of_getElem?_set hj with ⟨rfl, rfl⟩ | ⟨hij, hj'⟩ <;>
      rcases Pool.mem_of_getElem?_set hk with ⟨rfl, rfl⟩ | ⟨hik, hk'⟩
    · rfl
    · exact (hother hik hk' hc hc').elim
    · exact (hother hij hj' hc' hc).elim
    · exact h.apart j k fd c c' hj' hk' hc hc'
  openCount := by
    have hsum := Pool.sum_map_set_add (b := call') Call.openCount hget
    have := h.openCount
    change shm.openCount = ((s.calls.set i call').map Call.openCount).sum
    omega

/-- A step that leaves the objects alone. -/
theorem Inv.keep (h : Inv s stage dead) (hget : s.calls[i]? = some call)
    (hsize : call'.size = call.size) (hfits : call'.phase.Fits stage dead s.shm)
    (hcreating : call'.phase.isCreating = call.phase.isCreating)
    (hfd : ∀ fd, call'.phase.fd? = some fd → call.phase.fd? = some fd)
    (hcount : call'.openCount = call.openCount) :
    Inv { s with calls := s.calls.set i call' } stage dead :=
  h.move hget h.linked h.lengths le_rfl (Or.inl ⟨rfl, rfl⟩) (fun _ _ _ ho => ho) hsize hfits
    (h.creator.set hget hcreating) (fun fd hnew => Or.inl (hfd fd hnew)) (by rw [hcount])

/-- The linked object is opened. -/
theorem Inv.reopen (h : Inv s stage dead) (hget : s.calls[i]? = some call)
    (hphase : call.phase = .reopening) (hreopen : s.shm.reopen = some (fd, shm)) :
    Inv ⟨shm, s.calls.set i { call with phase := .stating fd }⟩ stage dead := by
  obtain ⟨o, hlinked, rfl, rfl⟩ := SharedObject.reopen_eq_some.1 hreopen
  have hlt : o < s.shm.lengths.length := by
    rw [h.linked] at hlinked
    rw [h.lengths]
    cases stage with
    | free => cases hlinked
    | creating | ready =>
      obtain rfl := Option.some.inj hlinked
      simp [Stage.lengths]
  refine h.move hget h.linked h.lengths le_rfl (Or.inl ⟨rfl, rfl⟩)
    (fun fd' o' _ ho => ho.append [some o] rfl) rfl ⟨o, hlt, SharedObject.isOpen_concat rfl⟩
    (h.creator.set hget (by rw [hphase]; rfl)) (fun fd hnew => Or.inr (Option.some.inj hnew).symm)
    ?_
  rw [SharedObject.openCount_append (s := s.shm) (o := o) rfl, Call.openCount, Call.openCount,
    hphase]
  simp only [Phase.fd?, Option.isSome_none, Option.isSome_some, Bool.toNat_false, Bool.toNat_true]
  omega

/-- A call closes its descriptor. -/
theorem Inv.close (h : Inv s stage dead) (hget : s.calls[i]? = some call)
    (hfd : call.phase.fd? = some fd) (hnone : phase.fd? = none)
    (hfits : phase.Fits stage dead (s.shm.close fd))
    (hcreating : phase.isCreating = call.phase.isCreating) :
    Inv ⟨s.shm.close fd, s.calls.set i { call with phase }⟩ stage dead := by
  obtain ⟨o, ho⟩ := (h.fits i call hget).isOpen hfd
  refine h.move hget h.linked h.lengths le_rfl (Or.inl ⟨rfl, rfl⟩)
    (fun fd' o' hne ho' => ho'.close fun heq => hne (heq ▸ hfd)) rfl hfits
    (h.creator.set hget hcreating) (fun fd' hnew => nomatch hnone.symm.trans hnew) ?_
  have hclose := SharedObject.openCount_close ho
  simp only [Call.openCount, hfd, hnone, Option.isSome_none, Option.isSome_some, Bool.toNat_false,
    Bool.toNat_true]
  omega

/-- A free name is one that nobody has created. -/
theorem Inv.eq_free (h : Inv s stage dead) (hfree : s.shm.linked = none) : stage = .free := by
  rw [h.linked] at hfree
  cases stage with
  | free => rfl
  | creating | ready => cases hfree

/-- The object is created. -/
theorem Inv.create (h : Inv s stage dead) (hget : s.calls[i]? = some call)
    (hphase : call.phase = .entry) (hcreate : s.shm.create = some (fd, shm)) :
    Inv ⟨shm, s.calls.set i { call with phase := .truncating fd }⟩ (.creating i) dead := by
  obtain ⟨hfree, rfl, rfl⟩ := SharedObject.create_eq_some.1 hcreate
  obtain rfl := h.eq_free hfree
  have hlength : s.shm.lengths.length = dead := by
    rw [h.lengths, Stage.lengths, List.length_replicate]
  refine h.move hget (by rw [hlength]; rfl) (congrArg (· ++ [0]) h.lengths) ?_
    (Or.inr ⟨fun _ => nofun, fun _ => nofun, Or.inl rfl⟩)
    (fun fd' o' _ ho => ho.append [some s.shm.lengths.length] rfl) rfl ?_
    (h.creator.acquire hget rfl) (fun fd hnew => Or.inr (Option.some.inj hnew).symm) ?_
  · rw [List.length_append]
    exact Nat.le_add_right _ _
  · exact hlength ▸ SharedObject.isOpen_concat rfl
  · rw [SharedObject.openCount_append (s := s.shm) (o := s.shm.lengths.length) rfl,
      Call.openCount, Call.openCount, hphase]
    simp only [Phase.fd?, Option.isSome_none, Option.isSome_some, Bool.toNat_false,
      Bool.toNat_true]
    omega

/-- A call that has created the object is the one that sets its length. -/
theorem Inv.eq_creating (h : Inv s stage dead) (hget : s.calls[i]? = some call)
    (hcreating : call.phase.isCreating = true) : stage = .creating i := by
  have howner := h.creator.eq_some hget hcreating
  cases stage with
  | creating =>
    rw [Option.some.inj howner]
  | free | ready => cases howner

/-- The object gets its length. -/
theorem Inv.ftruncate (h : Inv s stage dead) (hget : s.calls[i]? = some call)
    (hphase : call.phase = .truncating fd)
    (htruncate : s.shm.ftruncate fd call.len.toNat = some shm) :
    Inv ⟨shm, s.calls.set i { call with phase := .mapping fd call.len }⟩ (.ready call.len)
      dead := by
  obtain rfl := h.eq_creating hget (by rw [hphase]; rfl)
  have hopen : s.shm.IsOpen fd dead := by
    have hfits := h.fits i call hget
    rwa [hphase] at hfits
  rw [SharedObject.ftruncate_of_isOpen hopen] at htruncate
  obtain rfl := Option.some.inj htruncate
  refine h.move hget h.linked ?_ (by rw [List.length_set])
    (Or.inr ⟨fun _ => nofun, fun size hready => (Stage.ready.inj hready).symm, Or.inr rfl⟩)
    (fun _ _ _ ho => ho) rfl ⟨rfl, hopen⟩ (h.creator.release hget rfl)
    (fun fd' hnew => Or.inl (hphase ▸ hnew)) ?_
  · simp only [h.lengths, Stage.lengths]
    rw [List.set_append_right _ _ (by rw [List.length_replicate]), List.length_replicate,
      Nat.sub_self, List.set_cons_zero]
  · rw [Call.openCount, Call.openCount, hphase]
    rfl

/-- The object is unlinked. -/
theorem Inv.unlink {err : IoError} (h : Inv s stage dead) (hget : s.calls[i]? = some call)
    (hphase : call.phase = .unlinking err) :
    Inv ⟨s.shm.unlink, s.calls.set i { call with phase := .returned (.error err) }⟩ .free
      (dead + 1) := by
  obtain rfl := h.eq_creating hget (by rw [hphase]; rfl)
  refine h.move hget rfl ?_ le_rfl (Or.inr ⟨fun _ => nofun, fun _ => nofun, Or.inr rfl⟩)
    (fun _ _ _ ho => ho) rfl trivial (h.creator.release hget rfl)
    (fun _ hnew => nomatch hnew) ?_
  · rw [SharedObject.unlink, h.lengths, Stage.lengths, Stage.lengths, List.replicate_succ']
  · rw [Call.openCount, Call.openCount, hphase]
    rfl

/-- Only the object that is ready has a length. -/
theorem Stage.eq_ready {o n : ℕ} (h : (stage.lengths dead)[o]? = some n) (hpos : 0 < n) :
    ∃ size, stage = .ready size ∧ o = dead ∧ n = size.toNat := by
  have hdead : ∀ {l : List ℕ}, l[o]? = some n → ∃ m ∈ l, 0 < m :=
    fun h => ⟨n, List.mem_of_getElem? h, hpos⟩
  cases stage with
  | free =>
    obtain ⟨m, hmem, hm⟩ := hdead h
    exact absurd (List.eq_of_mem_replicate hmem) hm.ne'
  | creating =>
    rw [lengths, ← List.replicate_succ'] at h
    obtain ⟨m, hmem, hm⟩ := hdead h
    exact absurd (List.eq_of_mem_replicate hmem) hm.ne'
  | ready size =>
    rw [lengths, List.getElem?_append] at h
    split_ifs at h with hlt
    · obtain ⟨m, hmem, hm⟩ := hdead h
      exact absurd (List.eq_of_mem_replicate hmem) hm.ne'
    · rw [List.length_replicate] at hlt h
      have hzero : o - dead = 0 := by
        have := (List.getElem?_eq_some_iff.1 h).1
        rw [List.length_singleton] at this
        omega
      rw [hzero, List.getElem?_cons_zero] at h
      exact ⟨size, rfl, by omega, (Option.some.inj h).symm⟩

/-- A size of 32 bits is not clamped. -/
theorem clampSize_toNat (size : UInt32) : clampSize size.toNat = size := by
  have hlt := size.toNat_lt
  rw [clampSize, min_eq_left (by omega), UInt32.ofNat_toNat]

/-- A call that closes nothing goes on without a descriptor. -/
theorem Inv.leave (h : Inv s stage dead) (hget : s.calls[i]? = some call)
    (hsize : call'.size = call.size) (hfits : call'.phase.Fits stage dead s.shm)
    (hcreating : call'.phase.isCreating = call.phase.isCreating) (hfd : call'.phase.fd? = none)
    (hcount : call'.openCount = call.openCount) :
    Inv { s with calls := s.calls.set i call' } stage dead :=
  h.keep hget hsize hfits hcreating (fun _ hnew => nomatch hfd.symm.trans hnew) hcount

/-- The linked object is opened, unless the name is free or the system fails. -/
theorem Inv.stepReopening {own : UInt32} {rounds : ℕ} (h : Inv s stage dead)
    (hget : s.calls[i]? = some ⟨own, rounds, .reopening⟩)
    (hstep : s.stepCall i ⟨own, rounds, .reopening⟩ os = some t) : Inv t stage dead := by
  cases os with
  | error err =>
    obtain rfl := Option.some.inj hstep
    exact h.leave hget rfl trivial rfl rfl rfl
  | ok =>
    simp only [State.stepCall] at hstep
    cases hreopen : s.shm.reopen with
    | some opened =>
      obtain ⟨fd, shm⟩ := opened
      rw [hreopen] at hstep
      obtain rfl := Option.some.inj hstep
      exact h.reopen hget rfl hreopen
    | none =>
      rw [hreopen] at hstep
      obtain rfl := Option.some.inj hstep
      exact h.leave hget rfl trivial rfl rfl rfl

/-- A length that is not 0 is that of the object that is ready. -/
theorem Inv.stepStating {own : UInt32} {rounds : ℕ} (h : Inv s stage dead)
    (hget : s.calls[i]? = some ⟨own, rounds, .stating fd⟩)
    (hstep : s.stepCall i ⟨own, rounds, .stating fd⟩ os = some t) : Inv t stage dead := by
  have hfits := h.fits i _ hget
  cases os with
  | error err =>
    obtain rfl := Option.some.inj hstep
    exact h.keep hget rfl hfits rfl (fun _ hnew => hnew) rfl
  | ok =>
    obtain ⟨o, hlt, ho⟩ := hfits
    obtain ⟨stSize, hstat, hnext⟩ := Option.map_eq_some_iff.1 hstep
    rw [SharedObject.fstat_of_isOpen ho, h.lengths] at hstat
    split_ifs at hnext with hpos
    · obtain ⟨ready, hready, rfl, rfl⟩ := Stage.eq_ready hstat hpos
      subst hnext
      exact h.keep hget rfl ⟨by rw [hready, clampSize_toNat], ho⟩ rfl (fun _ hnew => hnew) rfl
    · subst hnext
      exact h.leave hget rfl trivial rfl rfl rfl

/-- The object that is ready is mapped, unless the system fails. -/
theorem Inv.stepMapping {own size : UInt32} {rounds : ℕ} (h : Inv s stage dead)
    (hget : s.calls[i]? = some ⟨own, rounds, .mapping fd size⟩)
    (hstep : s.stepCall i ⟨own, rounds, .mapping fd size⟩ os = some t) : Inv t stage dead := by
  obtain ⟨hready, ho⟩ := h.fits i _ hget
  cases os with
  | error err =>
    obtain rfl := Option.some.inj hstep
    have hlt : dead < s.shm.lengths.length := by
      rw [h.lengths, hready]
      simp [Stage.lengths]
    exact h.keep hget rfl ⟨dead, hlt, ho⟩ rfl (fun _ hnew => hnew) rfl
  | ok =>
    obtain ⟨object, hobject, rfl⟩ := Option.map_eq_some_iff.1 hstep
    obtain rfl := Option.some.inj (ho.symm.trans hobject)
    exact h.keep hget rfl ⟨hready, rfl, ho⟩ rfl (fun _ hnew => hnew) rfl

/-- What a step of a call leaves : the invariant, and the object if there is one. -/
theorem Inv.stepCall (h : Inv s stage dead) (hget : s.calls[i]? = some call)
    (hstep : s.stepCall i call os = some t) :
    ∃ stage' dead', Inv t stage' dead' ∧
      ∀ size, stage = .ready size → stage' = .ready size ∧ dead' = dead := by
  have hfits := h.fits i call hget
  have hsame : Inv t stage dead → ∃ stage' dead', Inv t stage' dead' ∧
      ∀ size, stage = .ready size → stage' = .ready size ∧ dead' = dead :=
    fun ht => ⟨stage, dead, ht, fun _ hready => ⟨hready, rfl⟩⟩
  obtain ⟨size, rounds, phase⟩ := call
  cases phase with
  | entry =>
    cases os with
    | error err =>
      obtain rfl := Option.some.inj hstep
      exact hsame (h.leave hget rfl trivial rfl rfl rfl)
    | ok =>
      simp only [State.stepCall] at hstep
      cases hcreate : s.shm.create with
      | some opened =>
        obtain ⟨fd, shm⟩ := opened
        rw [hcreate] at hstep
        obtain rfl := Option.some.inj hstep
        obtain rfl := h.eq_free (SharedObject.create_eq_some.1 hcreate).1
        exact ⟨_, _, h.create hget rfl hcreate, fun _ => nofun⟩
      | none =>
        rw [hcreate] at hstep
        obtain rfl := Option.some.inj hstep
        exact hsame (h.leave hget rfl trivial rfl rfl rfl)
  | truncating fd =>
    obtain rfl := h.eq_creating hget rfl
    cases os with
    | error err =>
      obtain rfl := Option.some.inj hstep
      exact hsame (h.keep hget rfl hfits rfl (fun _ hnew => hnew) rfl)
    | ok =>
      obtain ⟨shm, htruncate, rfl⟩ := Option.map_eq_some_iff.1 hstep
      exact ⟨_, _, h.ftruncate hget rfl htruncate, fun _ => nofun⟩
  | abandoning fd err | closing fd err =>
    obtain rfl := Option.some.inj hstep
    exact hsame (h.close hget rfl rfl trivial rfl)
  | unlinking err =>
    obtain rfl := h.eq_creating hget rfl
    obtain rfl := Option.some.inj hstep
    exact ⟨_, _, h.unlink hget rfl, fun _ => nofun⟩
  | reopening => exact hsame (h.stepReopening hget hstep)
  | stating fd => exact hsame (h.stepStating hget hstep)
  | sleeping =>
    obtain rfl := Option.some.inj hstep
    exact hsame (h.leave hget rfl trivial rfl rfl rfl)
  | mapping fd size => exact hsame (h.stepMapping hget hstep)
  | mapped fd result =>
    obtain rfl := Option.some.inj hstep
    cases result with
    | error => exact hsame (h.close hget rfl rfl trivial rfl)
    | ok raw => exact hsame (h.close hget rfl rfl ⟨hfits.1, hfits.2.1⟩ rfl)
  | returned => cases hstep

/-- A new call. -/
theorem Inv.named (h : Inv s stage dead) (size : UInt32) :
    Inv { s with calls := s.calls ++ [⟨size, 0, .entry⟩] } stage dead where
  linked := h.linked
  lengths := h.lengths
  size_pos := fun size hready => (h.size_pos size hready).imp_right fun ⟨maker, hmem, hmaker⟩ =>
    ⟨maker, List.mem_append_left _ hmem, hmaker⟩
  fits := by
    intro j other hj
    rcases Pool.getElem?_of_append hj with ⟨-, rfl⟩ | hj
    · trivial
    · exact h.fits j other hj
  creator := h.creator.append rfl
  apart := by
    intro j k fd c c' hj hk hc hc'
    rcases Pool.getElem?_of_append hj with ⟨-, rfl⟩ | hj
    · cases hc
    rcases Pool.getElem?_of_append hk with ⟨-, rfl⟩ | hk
    · cases hc'
    exact h.apart j k fd c c' hj hk hc hc'
  openCount := by
    rw [List.map_append, List.sum_append, ← h.openCount]
    rfl

/-- Every step keeps the invariant, and the length once it is set. -/
theorem Inv.step {a : Action} (h : Inv s stage dead) (hstep : s.step a = some t) :
    ∃ stage' dead', Inv t stage' dead' ∧
      ∀ size, stage = .ready size → stage' = .ready size ∧ dead' = dead := by
  cases a with
  | named size =>
    obtain rfl := Option.some.inj hstep
    exact ⟨stage, dead, h.named size, fun _ hready => ⟨hready, rfl⟩⟩
  | call i os =>
    obtain ⟨call, hget, hstep⟩ := Option.bind_eq_some_iff.1 hstep
    exact h.stepCall hget hstep

/-- It holds in every run. -/
theorem inv_of_run {as : List Action} (hrun : Transition.run State.step .init as = some s) :
    ∃ stage dead, Inv s stage dead :=
  Transition.run_invariant_of_step (I := fun s => ∃ stage dead, Inv s stage dead)
    (fun _ _ _ ⟨_, _, h⟩ hstep =>
      let ⟨stage', dead', h', _⟩ := h.step hstep
      ⟨stage', dead', h'⟩)
    ⟨_, _, inv_init⟩ hrun

/-- Once the object is ready it stays the one the name is linked to. -/
theorem Inv.ready_of_run {size : UInt32} {as : List Action} (h : Inv s (.ready size) dead)
    (hrun : Transition.run State.step s as = some t) : Inv t (.ready size) dead :=
  Transition.run_invariant_of_step (I := fun s => Inv s (.ready size) dead)
    (fun _ _ _ h hstep => by
      obtain ⟨_, _, h', hkeep⟩ := h.step hstep
      obtain ⟨rfl, rfl⟩ := hkeep size rfl
      exact h')
    h hrun

end Inv

/-! ## Progress -/

/-- The steps a call has left at most once an object is ready. Only a call that has opened an
unlinked one goes round again. -/
def Phase.stepsLeft (dead : ℕ) (shm : SharedObject) : Phase → ℕ
  | .entry | .sleeping => 5
  | .reopening => 4
  | .stating fd => if shm.object fd = some dead then 3 else 6
  | .mapping _ _ => 2
  | .closing _ _ | .mapped _ _ => 1
  | .truncating _ | .abandoning _ _ | .unlinking _ | .returned _ => 0

/-- The step is one of the call. -/
def Action.isCall (j : ℕ) : Action → Bool
  | .call i _ => i = j
  | .named _ => false

section Progress

variable {s t : State} {stage : Stage} {dead i j fd o : ℕ} {call : Call} {phase : Phase}
  {os : Except IoError Unit} {size : UInt32}

/-- What a step does to the pool and to the descriptors. -/
theorem fds_of_stepCall (hstep : s.stepCall i call os = some t) :
    (∃ call' : Call, t.calls = s.calls.set i call' ∧ call'.size = call.size) ∧
      (t.shm.fds = s.shm.fds ∨ (∃ o, t.shm.fds = s.shm.fds ++ [some o]) ∨
        ∃ fd, call.phase.fd? = some fd ∧ t.shm.fds = s.shm.fds.set fd none) := by
  have hkeep : ∀ {phase : Phase} {rounds : ℕ},
      t = { s with calls := s.calls.set i ⟨call.size, rounds, phase⟩ } →
        (∃ call' : Call, t.calls = s.calls.set i call' ∧ call'.size = call.size) ∧
          (t.shm.fds = s.shm.fds ∨ (∃ o, t.shm.fds = s.shm.fds ++ [some o]) ∨
            ∃ fd, call.phase.fd? = some fd ∧ t.shm.fds = s.shm.fds.set fd none) := by
    rintro phase rounds rfl
    exact ⟨⟨_, rfl, rfl⟩, Or.inl rfl⟩
  obtain ⟨size, rounds, phase⟩ := call
  cases phase with
  | entry =>
    cases os with
    | error err => exact hkeep (Option.some.inj hstep).symm
    | ok =>
      simp only [State.stepCall] at hstep
      cases hcreate : s.shm.create with
      | some opened =>
        obtain ⟨fd, shm⟩ := opened
        rw [hcreate] at hstep
        obtain rfl := Option.some.inj hstep
        obtain ⟨-, -, rfl⟩ := SharedObject.create_eq_some.1 hcreate
        exact ⟨⟨_, rfl, rfl⟩, Or.inr (Or.inl ⟨_, rfl⟩)⟩
      | none =>
        rw [hcreate] at hstep
        exact hkeep (Option.some.inj hstep).symm
  | reopening =>
    cases os with
    | error err => exact hkeep (Option.some.inj hstep).symm
    | ok =>
      simp only [State.stepCall] at hstep
      cases hreopen : s.shm.reopen with
      | some opened =>
        obtain ⟨fd, shm⟩ := opened
        rw [hreopen] at hstep
        obtain rfl := Option.some.inj hstep
        obtain ⟨o, -, -, rfl⟩ := SharedObject.reopen_eq_some.1 hreopen
        exact ⟨⟨_, rfl, rfl⟩, Or.inr (Or.inl ⟨o, rfl⟩)⟩
      | none =>
        rw [hreopen] at hstep
        exact hkeep (Option.some.inj hstep).symm
  | truncating fd =>
    cases os with
    | error err => exact hkeep (Option.some.inj hstep).symm
    | ok =>
      obtain ⟨shm, htruncate, rfl⟩ := Option.map_eq_some_iff.1 hstep
      obtain ⟨o, -, rfl⟩ := Option.map_eq_some_iff.1 htruncate
      exact ⟨⟨_, rfl, rfl⟩, Or.inl rfl⟩
  | stating fd =>
    cases os with
    | error err => exact hkeep (Option.some.inj hstep).symm
    | ok =>
      obtain ⟨stSize, -, hnext⟩ := Option.map_eq_some_iff.1 hstep
      split_ifs at hnext <;> exact hkeep hnext.symm
  | mapping fd size =>
    cases os with
    | error err => exact hkeep (Option.some.inj hstep).symm
    | ok =>
      obtain ⟨object, -, hnext⟩ := Option.map_eq_some_iff.1 hstep
      exact hkeep hnext.symm
  | abandoning fd | closing fd | mapped fd =>
    obtain rfl := Option.some.inj hstep
    exact ⟨⟨_, rfl, rfl⟩, Or.inr (Or.inr ⟨fd, rfl, rfl⟩)⟩
  | unlinking =>
    obtain rfl := Option.some.inj hstep
    exact ⟨⟨_, rfl, rfl⟩, Or.inl rfl⟩
  | sleeping => exact hkeep (Option.some.inj hstep).symm
  | returned => cases hstep

/-- The descriptors of the other calls stay open. -/
theorem Inv.isOpen_of_stepCall {other : Call} (h : Inv s stage dead)
    (hget : s.calls[i]? = some call) (hstep : s.stepCall i call os = some t) (hne : i ≠ j)
    (hj : s.calls[j]? = some other) (hfd : other.phase.fd? = some fd) (ho : s.shm.IsOpen fd o) :
    t.shm.IsOpen fd o := by
  obtain ⟨-, hsame | ⟨o', happend⟩ | ⟨fd', hfd', hclose⟩⟩ := fds_of_stepCall hstep
  · exact ho.append [] (by rw [hsame, List.append_nil])
  · exact ho.append [some o'] happend
  · have hne' : fd' ≠ fd := fun heq => hne (h.apart i j fd call other hget hj (heq ▸ hfd') hfd)
    have hopen := ho.close hne'
    rw [SharedObject.isOpen_iff] at hopen ⊢
    rw [hclose]
    exact hopen

/-- No call has more than six steps left. -/
theorem Phase.stepsLeft_le (phase : Phase) (dead : ℕ) (shm : SharedObject) :
    phase.stepsLeft dead shm ≤ 6 := by
  cases phase with
  | stating =>
    simp only [stepsLeft]
    split_ifs <;> decide
  | _ => simp [stepsLeft]

/-- Once an object is ready, each step of a call brings it closer to its end. -/
theorem Inv.stepsLeft_lt (h : Inv s (.ready size) dead) (hget : s.calls[i]? = some call)
    (hstep : s.stepCall i call os = some t) :
    ∃ call' : Call, t.calls = s.calls.set i call' ∧
      call'.phase.stepsLeft dead t.shm < call.phase.stepsLeft dead s.shm := by
  have hfits := h.fits i call hget
  have hcreating : call.phase.isCreating = false := h.creator.eq_false hget nofun
  obtain ⟨own, rounds, phase⟩ := call
  cases phase with
  | truncating | abandoning | unlinking => cases hcreating
  | entry =>
    cases os with
    | error err =>
      obtain rfl := Option.some.inj hstep
      exact ⟨_, rfl, by simp [Phase.stepsLeft]⟩
    | ok =>
      have hcreate : s.shm.create = none := by
        rw [SharedObject.create, h.linked]
        rfl
      simp only [State.stepCall, hcreate] at hstep
      obtain rfl := Option.some.inj hstep
      exact ⟨_, rfl, by simp [Phase.stepsLeft]⟩
  | reopening =>
    cases os with
    | error err =>
      obtain rfl := Option.some.inj hstep
      exact ⟨_, rfl, by simp [Phase.stepsLeft]⟩
    | ok =>
      simp only [State.stepCall, SharedObject.reopen, h.linked, Stage.linked, Option.map_some]
        at hstep
      obtain rfl := Option.some.inj hstep
      have hopen : SharedObject.object ⟨some dead, s.shm.lengths, s.shm.fds ++ [some dead]⟩
          s.shm.fds.length = some dead := SharedObject.isOpen_concat rfl
      exact ⟨_, rfl, by simp [State.setPhase, Phase.stepsLeft, hopen]⟩
  | stating fd =>
    have hthree : 3 ≤ (Phase.stating fd).stepsLeft dead s.shm := by
      simp only [Phase.stepsLeft]
      split_ifs <;> decide
    cases os with
    | error err =>
      obtain rfl := Option.some.inj hstep
      exact ⟨_, rfl, lt_of_lt_of_le (by simp [Phase.stepsLeft]) hthree⟩
    | ok =>
      obtain ⟨o, -, ho⟩ := hfits
      obtain ⟨stSize, hstat, hnext⟩ := Option.map_eq_some_iff.1 hstep
      split_ifs at hnext with hpos
      · subst hnext
        exact ⟨_, rfl, lt_of_lt_of_le (by simp [Phase.stepsLeft]) hthree⟩
      · -- the linked object has a length, so this one is unlinked
        subst hnext
        have hne : o ≠ dead := by
          rintro rfl
          rw [SharedObject.fstat_of_isOpen ho, h.lengths, Stage.lengths,
            List.getElem?_append_right (by rw [List.length_replicate]), List.length_replicate,
            Nat.sub_self, List.getElem?_cons_zero] at hstat
          obtain rfl := Option.some.inj hstat
          exact hpos (h.size_pos size rfl).1
        have hobject : s.shm.object fd ≠ some dead :=
          fun heq => hne (Option.some.inj (ho.symm.trans heq))
        exact ⟨_, rfl, by simp [Phase.stepsLeft, hobject]⟩
  | closing | mapped =>
    obtain rfl := Option.some.inj hstep
    exact ⟨_, rfl, by simp [Phase.stepsLeft]⟩
  | sleeping =>
    obtain rfl := Option.some.inj hstep
    exact ⟨_, rfl, by simp [Phase.stepsLeft]⟩
  | mapping =>
    cases os with
    | error err =>
      obtain rfl := Option.some.inj hstep
      exact ⟨_, rfl, by simp [Phase.stepsLeft]⟩
    | ok =>
      obtain ⟨object, -, rfl⟩ := Option.map_eq_some_iff.1 hstep
      exact ⟨_, rfl, by simp [Phase.stepsLeft]⟩
  | returned => cases hstep

/-- The steps a call has left, if it has been made. -/
def State.stepsLeft (s : State) (dead j : ℕ) : ℕ :=
  (s.calls[j]?).elim 6 fun call => call.phase.stepsLeft dead s.shm

theorem State.stepsLeft_of_getElem? (hget : s.calls[j]? = some call) :
    s.stepsLeft dead j = call.phase.stepsLeft dead s.shm := by
  rw [stepsLeft, hget, Option.elim_some]

theorem State.stepsLeft_le (s : State) (dead j : ℕ) : s.stepsLeft dead j ≤ 6 := by
  unfold stepsLeft
  cases s.calls[j]? with
  | none => exact le_rfl
  | some call => exact call.phase.stepsLeft_le dead s.shm

/-- A step takes the call that makes it closer to its end, and no other one further away. -/
theorem Inv.stepsLeft_step {a : Action} (h : Inv s (.ready size) dead)
    (hstep : s.step a = some t) (j : ℕ) :
    (a.isCall j).toNat + t.stepsLeft dead j ≤ s.stepsLeft dead j := by
  cases a with
  | named own =>
    obtain rfl := Option.some.inj hstep
    simp only [Action.isCall, Bool.toNat_false, Nat.zero_add, State.stepsLeft,
      List.getElem?_append]
    split_ifs with hj
    · exact le_rfl
    · rw [List.getElem?_eq_none (Nat.le_of_not_lt hj), Option.elim_none]
      exact State.stepsLeft_le ⟨s.shm, [⟨own, 0, .entry⟩]⟩ dead _
  | call i os =>
    obtain ⟨call, hget, hstep⟩ := Option.bind_eq_some_iff.1 hstep
    obtain ⟨call', hcalls, hlt⟩ := h.stepsLeft_lt hget hstep
    by_cases hij : i = j
    · subst hij
      have hget' : t.calls[i]? = some call' := hcalls ▸ Pool.getElem?_set_of_getElem? hget
      rw [State.stepsLeft_of_getElem? hget, State.stepsLeft_of_getElem? hget']
      simp only [Action.isCall, decide_true, Bool.toNat_true]
      omega
    · simp only [Action.isCall, hij, decide_false, Bool.toNat_false, Nat.zero_add,
        State.stepsLeft, hcalls, List.getElem?_set_ne hij]
      cases hj : s.calls[j]? with
      | none => exact le_rfl
      | some other =>
        simp only [Option.elim_some]
        cases hphase : other.phase with
        | stating fd =>
          simp only [Phase.stepsLeft]
          split_ifs with hopen' hopen hopen
          · exact le_rfl
          · decide
          · exact absurd (h.isOpen_of_stepCall hget hstep hij hj (by rw [hphase]; rfl) hopen) hopen'
          · exact le_rfl
        | _ => exact le_rfl

/-- Once an object is ready, no call takes more than six steps, whatever the others do. -/
theorem Inv.countP_isCall_le {as : List Action} (h : Inv s (.ready size) dead)
    (hrun : Transition.run State.step s as = some t) (j : ℕ) :
    as.countP (Action.isCall j) + t.stepsLeft dead j ≤ s.stepsLeft dead j := by
  induction as generalizing s with
  | nil =>
    obtain rfl := Option.some.inj hrun
    rw [List.countP_nil, Nat.zero_add]
  | cons a as ih =>
    obtain ⟨u, hstep, hrun⟩ := Transition.run_cons_eq_some.1 hrun
    have hone : Transition.run State.step s [a] = some u :=
      Transition.run_cons_eq_some.2 ⟨u, hstep, rfl⟩
    have hu := h.ready_of_run hone
    have hleft := h.stepsLeft_step hstep j
    have hrest := ih hu hrun
    rw [List.countP_cons]
    cases hcall : a.isCall j <;> simp only [hcall, Bool.toNat_true, Bool.toNat_false, if_true,
      Bool.false_eq_true, if_false] at hleft ⊢ <;> omega

/-- No call waits for another one. -/
theorem Inv.isSome_step (h : Inv s stage dead) (hget : s.calls[i]? = some call)
    (hreturned : call.phase.isReturned = false) : (s.step (.call i os)).isSome := by
  have hfits := h.fits i call hget
  rw [State.step, hget, Option.bind_some]
  obtain ⟨own, rounds, phase⟩ := call
  cases phase with
  | entry =>
    cases os with
    | error => rfl
    | ok =>
      simp only [State.stepCall]
      cases s.shm.create <;> rfl
  | truncating fd =>
    cases os with
    | error => rfl
    | ok => simp [State.stepCall, SharedObject.ftruncate_of_isOpen hfits]
  | reopening =>
    cases os with
    | error => rfl
    | ok =>
      simp only [State.stepCall]
      cases s.shm.reopen <;> rfl
  | stating fd =>
    cases os with
    | error => rfl
    | ok =>
      obtain ⟨o, hlt, ho⟩ := hfits
      simp [State.stepCall, SharedObject.fstat_of_isOpen ho, hlt]
  | mapping fd =>
    cases os with
    | error => rfl
    | ok =>
      have hobject : s.shm.object fd = some dead := hfits.2
      simp [State.stepCall, hobject]
  | abandoning | unlinking | closing | sleeping | mapped => rfl
  | returned => cases hreturned

/-- A run of one step. -/
theorem run_call (hget : s.calls[i]? = some call) (hstep : s.stepCall i call os = some t) :
    Transition.run State.step s [.call i os] = some t :=
  Transition.run_cons_eq_some.2 ⟨t, by rw [State.step, hget, Option.bind_some, hstep], rfl⟩

/-- Once an object is ready, only the operating system can make a call fail. -/
theorem Inv.isHopeful_of_stepCall (h : Inv s (.ready size) dead)
    (hhopeful : call.phase.isHopeful = true) (hstep : s.stepCall i call (.ok ()) = some t) :
    ∃ call' : Call, t.calls = s.calls.set i call' ∧ call'.size = call.size ∧
      call'.phase.isHopeful = true := by
  obtain ⟨own, rounds, phase⟩ := call
  cases phase with
  | entry =>
    have hcreate : s.shm.create = none := by
      rw [SharedObject.create, h.linked]
      rfl
    simp only [State.stepCall, hcreate] at hstep
    obtain rfl := Option.some.inj hstep
    exact ⟨_, rfl, rfl, rfl⟩
  | reopening =>
    simp only [State.stepCall, SharedObject.reopen, h.linked, Stage.linked, Option.map_some]
      at hstep
    obtain rfl := Option.some.inj hstep
    exact ⟨_, rfl, rfl, rfl⟩
  | stating =>
    obtain ⟨stSize, -, hnext⟩ := Option.map_eq_some_iff.1 hstep
    split_ifs at hnext <;> subst hnext <;> exact ⟨_, rfl, rfl, rfl⟩
  | sleeping =>
    obtain rfl := Option.some.inj hstep
    exact ⟨_, rfl, rfl, rfl⟩
  | mapping =>
    obtain ⟨object, -, rfl⟩ := Option.map_eq_some_iff.1 hstep
    exact ⟨_, rfl, rfl, rfl⟩
  | mapped fd result =>
    obtain rfl := Option.some.inj hstep
    exact ⟨_, rfl, rfl, by cases result <;> [cases hhopeful; rfl]⟩
  | truncating | abandoning | unlinking | closing => cases hhopeful
  | returned => cases hstep

/-- Such a call can succeed. -/
theorem Inv.exists_returned (h : Inv s (.ready size) dead) (hget : s.calls[i]? = some call)
    (hhopeful : call.phase.isHopeful = true) :
    ∃ as t rounds raw, Transition.run State.step s as = some t ∧
      t.calls[i]? = some ⟨call.size, rounds, .returned (.ok raw)⟩ := by
  let I (s : State) : Prop := Inv s (.ready size) dead ∧ ∃ call' : Call, s.calls[i]? = some call' ∧
    call'.size = call.size ∧ call'.phase.isHopeful = true
  let D (s : State) : Prop := ∃ rounds raw,
    s.calls[i]? = some ⟨call.size, rounds, .returned (.ok raw)⟩
  have hstep : ∀ s, I s → ¬D s → ∃ a t, s.step a = some t ∧ I t ∧
      t.stepsLeft dead i < s.stepsLeft dead i := by
    rintro s ⟨h, ⟨own, rounds, phase⟩, hget, hsize, hhopeful⟩ hnot
    have hreturned : phase.isReturned = false := by
      cases phase with
      | returned result =>
        cases result with
        | error => cases hhopeful
        | ok raw => exact absurd ⟨rounds, raw, hsize ▸ hget⟩ hnot
      | _ => rfl
    have henabled : (s.step (.call i (.ok ()))).isSome = true := h.isSome_step hget hreturned
    obtain ⟨t, hstep⟩ := Option.isSome_iff_exists.1 henabled
    rw [State.step, hget, Option.bind_some] at hstep
    obtain ⟨call', hcalls, hsize', hhopeful'⟩ := h.isHopeful_of_stepCall hhopeful hstep
    obtain ⟨call'', hcalls', hlt⟩ := h.stepsLeft_lt hget hstep
    have hget' : t.calls[i]? = some call' := hcalls ▸ Pool.getElem?_set_of_getElem? hget
    obtain rfl : call'' = call' := Option.some.inj
      ((Pool.getElem?_set_of_getElem? hget).symm.trans (hcalls' ▸ hget'))
    refine ⟨.call i (.ok ()), t, by rw [State.step, hget, Option.bind_some, hstep],
      ⟨h.ready_of_run (run_call hget hstep), call'', hget', hsize'.trans hsize, hhopeful'⟩, ?_⟩
    rw [State.stepsLeft_of_getElem? hget, State.stepsLeft_of_getElem? hget']
    exact hlt
  have hs : I s := ⟨h, call, hget, rfl, hhopeful⟩
  obtain ⟨as, t, has, -, rounds, raw, ht⟩ :=
    Transition.exists_run_of_lt (fun s : State => s.stepsLeft dead i) hstep hs
  exact ⟨as, t, rounds, raw, has, ht⟩

/-- A call that finds the name free creates the object. -/
theorem stepCall_entry {shm : SharedObject} (hphase : call.phase = .entry)
    (hcreate : s.shm.create = some (fd, shm)) :
    s.stepCall i call (.ok ()) = some ({ s with shm }.setPhase i call (.truncating fd)) := by
  simp only [State.stepCall, hphase, hcreate]

/-- The creator gets the object ready, and knows it. -/
theorem Inv.exists_ready {rounds : ℕ} {own : UInt32} (h : Inv s (.creating i) dead)
    (hget : s.calls[i]? = some ⟨own, rounds, .truncating fd⟩) :
    ∃ t, Transition.run State.step s [.call i (.ok ())] = some t ∧
      Inv t (.ready (max own 1)) dead ∧
        t.calls = s.calls.set i ⟨own, rounds, .mapping fd (max own 1)⟩ := by
  have htruncate := SharedObject.ftruncate_of_isOpen (h.fits i _ hget) (max own 1).toNat
  refine ⟨_, run_call hget ?_, h.ftruncate hget rfl htruncate, rfl⟩
  exact Option.map_eq_some_iff.2 ⟨_, htruncate, rfl⟩

/-- The creator can get the object ready, or unlink it. -/
theorem Inv.exists_settled (h : Inv s stage dead) :
    ∃ as t stage dead, Transition.run State.step s as = some t ∧ Inv t stage dead ∧
      t.calls.length = s.calls.length ∧ stage.creator = none := by
  cases stage with
  | free => exact ⟨[], s, _, _, rfl, h, rfl, rfl⟩
  | ready => exact ⟨[], s, _, _, rfl, h, rfl, rfl⟩
  | creating i =>
    obtain ⟨⟨own, rounds, phase⟩, hget, hcreating⟩ := (h.creator i).1 rfl
    cases phase with
    | truncating fd =>
      obtain ⟨t, hrun, ht, hcalls⟩ := h.exists_ready hget
      exact ⟨_, t, _, _, hrun, ht, by rw [hcalls, List.length_set], rfl⟩
    | unlinking err =>
      exact ⟨[.call i (.ok ())], _, _, _, run_call hget rfl, h.unlink hget rfl,
        List.length_set, rfl⟩
    | abandoning fd err =>
      have hclose : Inv ⟨_, s.calls.set i ⟨own, rounds, .unlinking err⟩⟩ (.creating i) dead :=
        h.close hget rfl rfl trivial rfl
      have hget' := Pool.getElem?_set_of_getElem? (b := ⟨own, rounds, .unlinking err⟩) hget
      refine ⟨[.call i (.ok ()), .call i (.ok ())], _, _, _, ?_, hclose.unlink hget' rfl,
        by rw [List.length_set, List.length_set], rfl⟩
      exact Transition.run_cons_eq_some.2
        ⟨_, by rw [State.step, hget, Option.bind_some]; rfl, run_call hget' rfl⟩
    | _ => cases hcreating

/-- From every state a new call can succeed. -/
theorem Inv.exists_named (h : Inv s stage dead) (own : UInt32) :
    ∃ as t rounds raw, Transition.run State.step s as = some t ∧
      t.calls[s.calls.length]? = some ⟨own, rounds, .returned (.ok raw)⟩ := by
  obtain ⟨as, t, stage, dead, has, h, hlength, hcreator⟩ := h.exists_settled
  have h' := h.named own
  have hget : (t.calls ++ [⟨own, 0, .entry⟩])[t.calls.length]? = some ⟨own, 0, .entry⟩ :=
    List.getElem?_concat_length
  rw [← hlength]
  suffices hready : ∃ bs u rounds raw,
      Transition.run State.step { t with calls := t.calls ++ [⟨own, 0, .entry⟩] } bs = some u ∧
        u.calls[t.calls.length]? = some ⟨own, rounds, .returned (.ok raw)⟩ by
    obtain ⟨bs, u, rounds, raw, hbs, hu⟩ := hready
    exact ⟨as ++ .named own :: bs, u, rounds, raw, Transition.run_append_eq_some.2
      ⟨t, has, Transition.run_cons_eq_some.2 ⟨_, rfl, hbs⟩⟩, hu⟩
  cases stage with
  | creating => cases hcreator
  | ready => exact h'.exists_returned hget rfl
  | free =>
    -- the call creates the object itself
    have hcreate := SharedObject.create_eq_some.2 ⟨h'.linked, rfl, rfl⟩
    obtain ⟨u, hu, hready, hcalls⟩ := (h'.create hget rfl hcreate).exists_ready
      (Pool.getElem?_set_of_getElem? hget)
    obtain ⟨bs, v, rounds, raw, hbs, hv⟩ := hready.exists_returned
      (hcalls ▸ Pool.getElem?_set_of_getElem? (Pool.getElem?_set_of_getElem? hget)) rfl
    exact ⟨_, v, rounds, raw, Transition.run_append_eq_some.2 ⟨u,
      Transition.run_append_eq_some.2 ⟨_, run_call hget (stepCall_entry rfl hcreate), hu⟩, hbs⟩, hv⟩

end Progress

/-! ## What the calls agree on -/

/-- The name is linked to what `raw` maps, the whole of it. -/
def State.IsLinked (s : State) (raw : MmapRaw) : Prop :=
  s.shm.linked = some raw.object ∧ s.shm.lengths[raw.object]? = some raw.size.toNat

/-- Call `i` has succeeded. -/
def State.Returned (s : State) (i : ℕ) (raw : MmapRaw) : Prop :=
  ∃ size rounds, s.calls[i]? = some ⟨size, rounds, .returned (.ok raw)⟩

/-- What a state of a run promises to its callers. -/
structure Agrees (s : State) : Prop where
  /-- The mapping is as large as one of the calls has asked for. -/
  asked : ∀ i raw, s.Returned i raw → 0 < raw.size ∧ ∃ maker ∈ s.calls, raw.size = maker.len
  /-- After one call has succeeded, the object stays linked, whoever else succeeds maps it too, and
  no call takes more than six steps. -/
  linked : ∀ i raw as t, s.Returned i raw → Transition.run State.step s as = some t →
    t.IsLinked raw ∧ (∀ j raw', t.Returned j raw' → raw' = raw) ∧
      ∀ j, as.countP (Action.isCall j) ≤ 6
  /-- Only empty objects are unlinked. -/
  unlinked : ∀ o n, s.shm.lengths[o]? = some n → s.shm.linked ≠ some o → n = 0
  /-- An empty object is linked only as long as the call that has created it is going on. -/
  creating : ∀ o, s.shm.linked = some o → s.shm.lengths[o]? = some 0 →
    ∃ (i : ℕ) (call : Call), s.calls[i]? = some call ∧ call.phase.isCreating = true
  /-- No call is ever stuck, whatever the operating system returns. -/
  enabled : ∀ (i : ℕ) (call : Call) os, s.calls[i]? = some call → call.phase.isReturned = false →
    (s.step (.call i os)).isSome = true
  /-- The descriptors that are left open are those of the rounds in which an object was empty. -/
  openCount : s.shm.openCount = (s.calls.map Call.openCount).sum
  /-- A new call can succeed. -/
  named : ∀ size, ∃ as t rounds raw, Transition.run State.step s as = some t ∧
    t.calls[s.calls.length]? = some ⟨size, rounds, .returned (.ok raw)⟩

/-- An object that is not linked has no length. -/
theorem Stage.lengths_eq_zero {stage : Stage} {dead o n : ℕ}
    (h : (stage.lengths dead)[o]? = some n) (hunlinked : stage.linked dead ≠ some o) : n = 0 := by
  rcases Nat.eq_zero_or_pos n with hzero | hpos
  · exact hzero
  · obtain ⟨size, rfl, rfl, -⟩ := Stage.eq_ready h hpos
    exact absurd rfl hunlinked

/-- Once its length is set, the object stays linked. -/
theorem Inv.isLinked {s : State} {dead : ℕ} {size : UInt32} (h : Inv s (.ready size) dead) :
    s.IsLinked ⟨dead, size⟩ := by
  refine ⟨h.linked, ?_⟩
  rw [h.lengths, Stage.lengths, List.getElem?_append_right (by rw [List.length_replicate]),
    List.length_replicate, Nat.sub_self, List.getElem?_cons_zero]

/-- What is returned is the linked object, with its length. -/
theorem Inv.returned {s : State} {stage : Stage} {dead i : ℕ} {raw : MmapRaw}
    (h : Inv s stage dead) (hreturned : s.Returned i raw) :
    stage = .ready raw.size ∧ raw = ⟨dead, raw.size⟩ := by
  obtain ⟨size, rounds, hget⟩ := hreturned
  obtain ⟨hready, hobject⟩ := h.fits i _ hget
  exact ⟨hready, by rw [← hobject]⟩

/-- After every run, all calls that have succeeded map the one object the name is linked to. -/
theorem agrees_of_run {as : List Action} {s : State}
    (hrun : Transition.run State.step .init as = some s) : Agrees s := by
  obtain ⟨stage, dead, h⟩ := inv_of_run hrun
  refine {
    asked := fun i raw hget => h.size_pos raw.size (h.returned hget).1
    linked := fun i raw as t hget hrun => ?_
    unlinked := fun o n hget hunlinked =>
      Stage.lengths_eq_zero (h.lengths ▸ hget) (h.linked ▸ hunlinked)
    creating := fun o hlinked hempty => ?_
    enabled := fun i call os hget hreturned => h.isSome_step hget hreturned
    openCount := h.openCount
    named := h.exists_named }
  · obtain ⟨rfl, hraw⟩ := h.returned hget
    have ht := h.ready_of_run hrun
    refine ⟨hraw ▸ ht.isLinked, fun j raw' hj => ?_, fun j => ?_⟩
    · obtain ⟨hready, hraw'⟩ := ht.returned hj
      rw [hraw, hraw', Stage.ready.inj hready]
    · exact (Nat.le_add_right _ _).trans
        ((h.countP_isCall_le hrun j).trans (s.stepsLeft_le dead j))
  · cases stage with
    | free => cases h.linked.symm.trans hlinked
    | creating i =>
      obtain ⟨call, hget, hcreating⟩ := (h.creator i).1 rfl
      exact ⟨i, call, hget, hcreating⟩
    | ready size =>
      obtain rfl : dead = o := Option.some.inj (h.linked.symm.trans hlinked)
      have hlength := Option.some.inj (h.isLinked.2.symm.trans hempty)
      have hpos := (h.size_pos size rfl).1
      rw [UInt32.lt_iff_toNat_lt] at hpos
      exact absurd hlength hpos.ne'

/-- The first call cannot truncate the object while the second one finds it empty, the third one
creates another, which the second one maps. -/
def sampleRun : List Action :=
  [.named 32, .named 32, .call 0 (.ok ()), .call 1 (.ok ()), .call 1 (.ok ()), .call 1 (.ok ()),
    .call 0 (.error ⟨"No space left on device (os error 28)"⟩), .call 0 (.ok ()), .call 0 (.ok ()),
    .named 32, .call 2 (.ok ()), .call 2 (.ok ()), .call 1 (.ok ()), .call 1 (.ok ()),
    .call 1 (.ok ()), .call 1 (.ok ()), .call 1 (.ok ())]

theorem agrees_of_run_sample : ∃ s, Transition.run State.step .init sampleRun = some s ∧
    s.calls[1]? = some ⟨32, 1, .returned (.ok ⟨1, 32⟩)⟩ ∧ Agrees s := by
  have hrun : Transition.run State.step .init sampleRun =
      some ⟨⟨some 1, [0, 32], [none, some 0, some 1, none]⟩,
        [⟨32, 0, .returned (.error ⟨"No space left on device (os error 28)"⟩)⟩,
          ⟨32, 1, .returned (.ok ⟨1, 32⟩)⟩, ⟨32, 0, .mapping 2 32⟩]⟩ := by decide +kernel
  exact ⟨_, hrun, rfl, agrees_of_run hrun⟩

end NamedMapping

end Diversion
