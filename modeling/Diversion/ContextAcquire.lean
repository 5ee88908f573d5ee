import Diversion.Decode
import Diversion.Lib.Mutex
import Mathlib.Order.Nat

/-!
# Acquiring the process context

`ProcessContext::acquire` (src/abi/src/context/process.rs), called by any number of threads
in any number of copies of the library, one access of shared memory or one call of the
operating system a step. A copy has its own static; the outer record is the named mapping all
copies open, zeroed when it is created. The two locks are `Mutex.step`.

`Stage` is how far the initialisation of the outer record has come. `Inv` says that the
record and the inner mappings are those of the stage and that every call is where the stage
lets it be (`Phase.Fits`) : only the owner of the spin lock moves the stage, and it gives the
lock back at the first or the last one. `acquire_agrees` is what follows for every run.
-/

namespace Diversion

namespace Acquire

/-- A `*mut ProcessContextInner`, `none` if it is null and else the index of the mapping. -/
abbrev InnerPtr := Option ℕ

/-- `INNER_SIZE`, 16 MiB. -/
def innerSize : ℕ := 16 * 1024 * 1024

/-- `size_of::<ProcessContextInner>()`. -/
def sizeOfInner : ℕ := 104

/-- What `acquire` uses of `ProcessContextOuter`, its mutex apart. -/
structure Outer where
  innerPtr : InnerPtr
  innerSize : ℕ
deriving DecidableEq, Repr

/-- What `acquire` uses of `ProcessContextInner`. -/
structure Inner where
  mutex : Option ℕ
  size : ℕ
deriving DecidableEq, Repr

/-- A new anonymous mapping. -/
def Inner.zeroed : Inner :=
  ⟨none, 0⟩

/-- What a call does next, its guard included. -/
inductive Phase where
  /-- Load the static. -/
  | entry
  /-- `MmapBuilder::new`. -/
  | building
  /-- `MmapBuilder::open`. -/
  | opening
  /-- Lock the outer record. -/
  | locking
  /-- Check whether the inner pointer is null. -/
  | locked
  /-- `MmapRaw::anon`. -/
  | mapping
  /-- Set the inner pointer. -/
  | mapped (inner : InnerPtr)
  /-- Set the inner size. -/
  | pointed
  /-- Set the size field of the inner record. -/
  | sized
  /-- Read the inner pointer. -/
  | reading
  /-- Store it in the static. -/
  | storing (innerPtr : InnerPtr)
  /-- Drop `_guard`. -/
  | unlocking (innerPtr : InnerPtr)
  /-- Drop `mmap`. -/
  | unmapping (innerPtr : InnerPtr)
  /-- Lock the inner record. -/
  | entering (innerPtr : InnerPtr)
  /-- Read its size. -/
  | entered (innerPtr : InnerPtr)
  /-- The guard is alive, the context has `trailingLen` bytes of scratch. -/
  | guard (innerPtr : InnerPtr) (trailingLen : ℕ)
  | dropped (innerPtr : InnerPtr)
  /-- Drop `_guard` on the way out with the error. -/
  | failing (err : IoError)
  /-- Drop `mmap` on the way out. -/
  | closing (err : IoError)
  | failed (err : IoError)
deriving DecidableEq, Repr

namespace Phase

/-- The call owns the lock of the outer record. -/
def isLocked : Phase → Bool
  | .locked | .mapping | .mapped _ | .pointed | .sized | .reading | .storing _ | .unlocking _
  | .failing _ => true
  | _ => false

/-- The call owns the lock of the inner record. -/
def isInside : Phase → Bool
  | .entered _ | .guard _ _ => true
  | _ => false

/-- The call has used the inner pointer, or is about to. -/
def innerPtr? : Phase → Option InnerPtr
  | .unmapping ptr | .entering ptr | .entered ptr | .guard ptr _ | .dropped ptr => some ptr
  | _ => none

/-- The call returns an error, or will once it has left the lock. -/
def isFailed : Phase → Bool
  | .closing _ | .failed _ => true
  | _ => false

end Phase

/-- A call of `acquire` in a copy of the library. -/
structure Call where
  copy : ℕ
  phase : Phase
deriving DecidableEq, Repr

/-- The mappings, the static of each copy of the library and the calls of `acquire`. -/
structure State where
  outer : Outer
  /-- The owner of the spin lock in the outer record. -/
  spin : Option ℕ
  /-- The inner mappings, in the order they were made. -/
  inners : List Inner
  /-- `PROCESS_CONTEXT` of each copy. -/
  statics : List InnerPtr
  calls : List Call
deriving DecidableEq, Repr

/-- No copy is loaded, and the named mapping is zero when it is first opened. -/
def State.init : State where
  outer := ⟨none, 0⟩
  spin := none
  inners := []
  statics := []
  calls := []

/-- One step of one thread, in one copy. -/
inductive Action where
  /-- A copy of the library is loaded. -/
  | load
  /-- A thread calls `acquire` in a copy. -/
  | acquire (copy : ℕ)
  /-- The next step of a call. `os` is what the operating system returns if it is asked. -/
  | call (i : ℕ) (os : Except IoError Unit)
deriving DecidableEq

namespace State

/-- Move one call. -/
def setPhase (s : State) (i copy : ℕ) (phase : Phase) : State :=
  { s with calls := s.calls.set i ⟨copy, phase⟩ }

/-- A fallible call of the operating system, with nothing to undo. -/
def tryOs (s : State) (i copy : ℕ) (os : Except IoError Unit) (ok : Phase)
    (failed : IoError → Phase) : State :=
  match os with
  | .ok _ => s.setPhase i copy ok
  | .error err => s.setPhase i copy (failed err)

/-- An event of the lock in the inner record. Null cannot be dereferenced. -/
def stepInner (s : State) (innerPtr : InnerPtr) (event : Mutex.Event ℕ) : Option State :=
  innerPtr.bind fun ptr => (s.inners[ptr]?).bind fun inner =>
    (Mutex.step inner.mutex event).map fun mutex =>
      { s with inners := s.inners.set ptr { inner with mutex } }

/-- Write the size in the inner mapping. `none` is a null pointer. -/
def setSize (s : State) (innerPtr : InnerPtr) (size : ℕ) : Option State :=
  innerPtr.bind fun ptr => (s.inners[ptr]?).map fun inner =>
    { s with inners := s.inners.set ptr { inner with size } }

/-- Read it. -/
def getSize (s : State) (innerPtr : InnerPtr) : Option ℕ :=
  innerPtr.bind fun ptr => (s.inners[ptr]?).map Inner.size

/-- A step of the spin lock in the outer mapping. -/
def stepSpin (s : State) (event : Mutex.Event ℕ) : Option State :=
  (Mutex.step s.spin event).map fun spin => { s with spin }

/-- `ProcessContext::acquire`, then the drop of the guard. -/
def stepCall (s : State) (i copy : ℕ) (os : Except IoError Unit) : Phase → Option State
  | .entry =>
    (s.statics[copy]?).map fun innerPtr =>
      if innerPtr = none then s.setPhase i copy .building
      else s.setPhase i copy (.entering innerPtr)
  | .building => some (s.tryOs i copy os .opening .failed)
  | .opening => some (s.tryOs i copy os .locking .failed)
  | .locking => (s.stepSpin (.acquire i)).map fun s => s.setPhase i copy .locked
  | .locked =>
    if s.outer.innerPtr = none then some (s.setPhase i copy .mapping)
    else some (s.setPhase i copy .reading)
  | .mapping =>
    match os with
    | .ok _ => some ({ s with inners := s.inners ++ [Inner.zeroed] }.setPhase i copy
        (.mapped (some s.inners.length)))
    | .error err => some (s.setPhase i copy (.failing err))
  | .mapped inner =>
    some ({ s with outer := { s.outer with innerPtr := inner } }.setPhase i copy .pointed)
  | .pointed =>
    some ({ s with outer := { s.outer with innerSize := innerSize } }.setPhase i copy .sized)
  | .sized => (s.setSize s.outer.innerPtr innerSize).map fun s => s.setPhase i copy .reading
  | .reading => some (s.setPhase i copy (.storing s.outer.innerPtr))
  | .storing innerPtr =>
    some ({ s with statics := s.statics.set copy innerPtr }.setPhase i copy
      (.unlocking innerPtr))
  | .unlocking innerPtr =>
    (s.stepSpin (.release i)).map fun s => s.setPhase i copy (.unmapping innerPtr)
  | .unmapping innerPtr => some (s.setPhase i copy (.entering innerPtr))
  | .entering innerPtr =>
    (s.stepInner innerPtr (.acquire i)).map fun s => s.setPhase i copy (.entered innerPtr)
  | .entered innerPtr =>
    (s.getSize innerPtr).map fun size => s.setPhase i copy (.guard innerPtr (size - sizeOfInner))
  | .guard innerPtr _ =>
    (s.stepInner innerPtr (.release i)).map fun s => s.setPhase i copy (.dropped innerPtr)
  | .failing err =>
    (s.stepSpin (.release i)).map fun s => s.setPhase i copy (.closing err)
  | .closing err => some (s.setPhase i copy (.failed err))
  | .dropped _ => none
  | .failed _ => none

/-- `none` where the step is not enabled. -/
def step (s : State) : Action → Option State
  | .load => some { s with statics := s.statics ++ [none] }
  | .acquire copy =>
    if copy < s.statics.length then some { s with calls := s.calls ++ [⟨copy, .entry⟩] }
    else none
  | .call i os => (s.calls[i]?).bind fun call => s.stepCall i call.copy os call.phase

end State

/-! ## The initialisation -/

/-- How far the outer record has been initialised. -/
inductive Stage where
  | untouched
  | mapped
  | pointed
  | sized
  | initialised
deriving DecidableEq, Repr

/-- The outer record at a stage. -/
def Stage.outer : Stage → Outer
  | .untouched | .mapped => ⟨none, 0⟩
  | .pointed => ⟨some 0, 0⟩
  | .sized | .initialised => ⟨some 0, innerSize⟩

/-- The inner mappings, `m` owns the lock in the inner record. -/
def Stage.inners (m : Option ℕ) : Stage → List Inner
  | .untouched => []
  | .mapped | .pointed | .sized => [⟨m, 0⟩]
  | .initialised => [⟨m, innerSize⟩]

/-- The phases a call can be in at a stage. -/
def Phase.Fits (stage : Stage) : Phase → Prop
  | .locked => stage = .untouched ∨ stage = .initialised
  | .mapping | .failing _ => stage = .untouched
  | .mapped inner => stage = .mapped ∧ inner = some 0
  | .pointed => stage = .pointed
  | .sized => stage = .sized
  | .reading => stage = .initialised
  | .storing ptr | .unlocking ptr | .unmapping ptr | .entering ptr | .entered ptr
  | .dropped ptr => stage = .initialised ∧ ptr = some 0
  | .guard ptr n => stage = .initialised ∧ ptr = some 0 ∧ n = innerSize - sizeOfInner
  | .entry | .building | .opening | .locking | .closing _ | .failed _ => True

/-- A call that does not own the outer record stays where it is while the stage moves on. -/
theorem Phase.Fits.advance {stage stage' : Stage} {phase : Phase} (h : phase.Fits stage)
    (hlocked : phase.isLocked = false) (hstage : stage ≠ .initialised) :
    phase.Fits stage' := by
  cases phase with
  | entry | building | opening | locking | closing | failed => trivial
  | unmapping | entering | entered | guard | dropped => exact absurd h.1 hstage
  | locked | mapping | mapped | pointed | sized | reading | storing | unlocking | failing =>
    cases hlocked

/-- A call within the inner mutex finds everything made. -/
theorem Phase.Fits.eq_initialised {stage : Stage} {phase : Phase} (h : phase.Fits stage)
    (hinside : phase.isInside = true) : stage = .initialised := by
  cases phase with
  | entered | guard => exact h.1
  | _ => cases hinside

/-- The invariant : the outer mapping goes through the stages, at most one inner mapping is
made, and each mutex belongs to one call. -/
structure Inv (s : State) (stage : Stage) (m : Option ℕ) : Prop where
  outer : s.outer = stage.outer
  inners : s.inners = stage.inners m
  fits : ∀ (i : ℕ) (call : Call), s.calls[i]? = some call → call.phase.Fits stage
  spin : Mutex.Owns (fun call : Call => call.phase.isLocked) s.calls s.spin
  inside : Mutex.Owns (fun call : Call => call.phase.isInside) s.calls m
  free : s.spin = none → stage = .untouched ∨ stage = .initialised
  statics : ∀ ptr ∈ s.statics, ptr = none ∨ ptr = some 0 ∧ stage = .initialised

section Inv

variable {s t : State} {stage stage' : Stage} {m : Option ℕ} {i copy : ℕ} {phase phase' : Phase}
  {os : Except IoError Unit}

/-- It holds before the first call. -/
theorem inv_init : Inv .init .untouched none where
  outer := rfl
  inners := rfl
  fits := by simp [State.init]
  spin := Mutex.owns_nil
  inside := Mutex.owns_nil
  free := fun _ => Or.inl rfl
  statics := by simp [State.init]

theorem Inv.fits_phase (h : Inv s stage m) (hget : s.calls[i]? = some ⟨copy, phase⟩) :
    phase.Fits stage :=
  h.fits i _ hget

/-- A call between lock and unlock owns the spin lock. -/
theorem Inv.spin_eq_some (h : Inv s stage m) (hget : s.calls[i]? = some ⟨copy, phase⟩)
    (hlocked : phase.isLocked = true) : s.spin = some i :=
  h.spin.eq_some hget hlocked

/-- Without an inner mapping nobody is within it. -/
theorem Inv.inside_eq_none (h : Inv s stage m) (hstage : stage ≠ .initialised) : m = none := by
  refine Option.eq_none_iff_forall_ne_some.2 fun i hi => hstage ?_
  obtain ⟨call, hget, hinside⟩ := (h.inside i).1 hi
  exact (h.fits i call hget).eq_initialised hinside

/-- Once everything is made there is one inner mapping, of the whole size. -/
theorem Inv.inners_eq (h : Inv s .initialised m) : s.inners = [⟨m, innerSize⟩] :=
  h.inners

/-- A step that keeps the record and the locks. -/
theorem Inv.keep (h : Inv s stage m) (hget : s.calls[i]? = some ⟨copy, phase⟩)
    (hfits : phase'.Fits stage) (hlocked : phase'.isLocked = phase.isLocked)
    (hinside : phase'.isInside = phase.isInside) :
    Inv (s.setPhase i copy phase') stage m where
  outer := h.outer
  inners := h.inners
  fits := fun j call hj => by
    rcases Pool.mem_of_getElem?_set hj with ⟨-, rfl⟩ | ⟨-, hj⟩
    · exact hfits
    · exact h.fits j call hj
  spin := h.spin.set hget hlocked
  inside := h.inside.set hget hinside
  free := h.free
  statics := h.statics

/-- A step of the owner of the outer record that moves the stage. -/
theorem Inv.advance {outer : Outer} {inners : List Inner} (h : Inv s stage m)
    (hget : s.calls[i]? = some ⟨copy, phase⟩) (hlocked : phase.isLocked = true)
    (hinside : phase.isInside = false) (hstage : stage ≠ .initialised)
    (hlocked' : phase'.isLocked = true) (hinside' : phase'.isInside = false)
    (hfits : phase'.Fits stage') (houter : outer = stage'.outer)
    (hinners : inners = stage'.inners none) :
    Inv ({ s with outer, inners }.setPhase i copy phase') stage' none where
  outer := houter
  inners := hinners
  fits := fun j call hj => by
    rcases Pool.mem_of_getElem?_set hj with ⟨-, rfl⟩ | ⟨hij, hj⟩
    · exact hfits
    · refine (h.fits j call hj).advance (h.spin.eq_false hj fun hspin => hij ?_) hstage
      exact Option.some.inj ((h.spin_eq_some hget hlocked).symm.trans hspin)
  spin := h.spin.set hget (hlocked'.trans hlocked.symm)
  inside := h.inside_eq_none hstage ▸ h.inside.set hget (hinside'.trans hinside.symm)
  free := fun hspin => nomatch (h.spin_eq_some hget hlocked).symm.trans hspin
  statics := fun ptr hptr =>
    (h.statics ptr hptr).imp_right fun hptr => absurd hptr.2 hstage

/-- The outer record is locked. -/
theorem Inv.acquireSpin (h : Inv s stage m) (hget : s.calls[i]? = some ⟨copy, .locking⟩)
    (hspin : s.spin = none) : Inv ({ s with spin := some i }.setPhase i copy .locked) stage m where
  outer := h.outer
  inners := h.inners
  fits := fun j call hj => by
    rcases Pool.mem_of_getElem?_set hj with ⟨-, rfl⟩ | ⟨-, hj⟩
    · exact h.free hspin
    · exact h.fits j call hj
  spin := (hspin ▸ h.spin).acquire hget rfl
  inside := h.inside.set hget rfl
  free := fun hspin => nomatch hspin
  statics := h.statics

/-- The outer record is unlocked, at the first stage or the last. -/
theorem Inv.releaseSpin (h : Inv s stage m) (hget : s.calls[i]? = some ⟨copy, phase⟩)
    (hlocked : phase.isLocked = true) (hinside : phase.isInside = false)
    (hlocked' : phase'.isLocked = false) (hinside' : phase'.isInside = false)
    (hfits : phase'.Fits stage) (hstage : stage = .untouched ∨ stage = .initialised) :
    Inv ({ s with spin := none }.setPhase i copy phase') stage m where
  outer := h.outer
  inners := h.inners
  fits := fun j call hj => by
    rcases Pool.mem_of_getElem?_set hj with ⟨-, rfl⟩ | ⟨-, hj⟩
    · exact hfits
    · exact h.fits j call hj
  spin := (h.spin_eq_some hget hlocked ▸ h.spin).release hget hlocked'
  inside := h.inside.set hget (hinside'.trans hinside.symm)
  free := fun _ => hstage
  statics := h.statics

/-- The static of a copy is set. -/
theorem Inv.store (h : Inv s .initialised m)
    (hget : s.calls[i]? = some ⟨copy, .storing (some 0)⟩) :
    Inv ({ s with statics := s.statics.set copy (some 0) }.setPhase i copy
      (.unlocking (some 0))) .initialised m where
  outer := h.outer
  inners := h.inners
  fits := fun j call hj => by
    rcases Pool.mem_of_getElem?_set hj with ⟨-, rfl⟩ | ⟨-, hj⟩
    · exact ⟨rfl, rfl⟩
    · exact h.fits j call hj
  spin := h.spin.set hget rfl
  inside := h.inside.set hget rfl
  free := h.free
  statics := fun ptr hptr => by
    rcases List.mem_or_eq_of_mem_set hptr with hptr | rfl
    · exact h.statics ptr hptr
    · exact Or.inr ⟨rfl, rfl⟩

/-- The inner record is locked. -/
theorem Inv.acquireInner (h : Inv s .initialised none)
    (hget : s.calls[i]? = some ⟨copy, .entering (some 0)⟩) :
    Inv ({ s with inners := [⟨some i, innerSize⟩] }.setPhase i copy (.entered (some 0)))
      .initialised (some i) where
  outer := h.outer
  inners := rfl
  fits := fun j call hj => by
    rcases Pool.mem_of_getElem?_set hj with ⟨-, rfl⟩ | ⟨-, hj⟩
    · exact ⟨rfl, rfl⟩
    · exact h.fits j call hj
  spin := h.spin.set hget rfl
  inside := h.inside.acquire hget rfl
  free := h.free
  statics := h.statics

/-- A guard is dropped. -/
theorem Inv.releaseInner {n : ℕ} (h : Inv s .initialised (some i))
    (hget : s.calls[i]? = some ⟨copy, .guard (some 0) n⟩) :
    Inv ({ s with inners := [⟨none, innerSize⟩] }.setPhase i copy (.dropped (some 0)))
      .initialised none where
  outer := h.outer
  inners := rfl
  fits := fun j call hj => by
    rcases Pool.mem_of_getElem?_set hj with ⟨-, rfl⟩ | ⟨-, hj⟩
    · exact ⟨rfl, rfl⟩
    · exact h.fits j call hj
  spin := h.spin.set hget rfl
  inside := h.inside.release hget rfl
  free := h.free
  statics := h.statics

/-- A step of the spin lock changes nothing else. -/
theorem stepSpin_eq_some {event : Mutex.Event ℕ} :
    s.stepSpin event = some t ↔
      ∃ spin, Mutex.step s.spin event = some spin ∧ t = { s with spin } := by
  simp only [State.stepSpin, Option.map_eq_some_iff, eq_comm (a := t)]

/-- The mutex of the inner mapping is the abstract one. -/
theorem Inv.stepInner_eq (h : Inv s .initialised m) (event : Mutex.Event ℕ) :
    s.stepInner (some 0) event = (Mutex.step m event).map fun mutex =>
      { s with inners := [⟨mutex, innerSize⟩] } := by
  simp [State.stepInner, h.inners_eq]

/-- The size is read as it was set. -/
theorem Inv.getSize_eq (h : Inv s .initialised m) : s.getSize (some 0) = some innerSize := by
  simp [State.getSize, h.inners_eq]

/-- A call of the system that fails leaves the stage. -/
theorem Inv.tryOs {failed : IoError → Phase} (h : Inv s stage m)
    (hget : s.calls[i]? = some ⟨copy, phase⟩) (hfits : phase'.Fits stage)
    (hlocked : phase'.isLocked = phase.isLocked) (hinside : phase'.isInside = phase.isInside)
    (hfits' : ∀ err, (failed err).Fits stage)
    (hlocked' : ∀ err, (failed err).isLocked = phase.isLocked)
    (hinside' : ∀ err, (failed err).isInside = phase.isInside) :
    Inv (s.tryOs i copy os phase' failed) stage m := by
  cases os with
  | ok _ => exact h.keep hget hfits hlocked hinside
  | error err => exact h.keep hget (hfits' err) (hlocked' err) (hinside' err)

/-- A step of a call moves to the next stage at most. -/
theorem Inv.stepCall (h : Inv s stage m) (hget : s.calls[i]? = some ⟨copy, phase⟩)
    (hstep : s.stepCall i copy os phase = some t) : ∃ stage' m', Inv t stage' m' := by
  have hfits := h.fits_phase hget
  cases phase with
  | entry =>
    obtain ⟨innerPtr, hstatic, rfl⟩ := Option.map_eq_some_iff.1 hstep
    split_ifs with hnull
    · exact ⟨stage, m, h.keep hget trivial rfl rfl⟩
    · obtain ⟨rfl, rfl⟩ :=
        (h.statics innerPtr (List.mem_of_getElem? hstatic)).resolve_left hnull
      exact ⟨.initialised, m, h.keep hget ⟨rfl, rfl⟩ rfl rfl⟩
  | building | opening =>
    obtain rfl := Option.some.inj hstep
    exact ⟨stage, m, h.tryOs hget trivial rfl rfl (fun _ => trivial) (fun _ => rfl) fun _ => rfl⟩
  | locking =>
    obtain ⟨s', hs', rfl⟩ := Option.map_eq_some_iff.1 hstep
    obtain ⟨spin, hspin, rfl⟩ := stepSpin_eq_some.1 hs'
    obtain ⟨hfree, rfl⟩ := Mutex.step_acquire_eq_some.1 hspin
    exact ⟨stage, m, h.acquireSpin hget hfree⟩
  | locked =>
    simp only [State.stepCall, h.outer] at hstep
    rcases hfits with rfl | rfl
    · obtain rfl := Option.some.inj hstep
      exact ⟨.untouched, m, h.keep hget rfl rfl rfl⟩
    · obtain rfl := Option.some.inj hstep
      exact ⟨.initialised, m, h.keep hget rfl rfl rfl⟩
  | mapping =>
    obtain rfl : stage = .untouched := hfits
    cases os with
    | ok _ =>
      obtain rfl := Option.some.inj hstep
      rw [h.inners]
      exact ⟨.mapped, none, h.advance hget rfl rfl (by simp) rfl rfl ⟨rfl, rfl⟩ h.outer rfl⟩
    | error err =>
      obtain rfl := Option.some.inj hstep
      exact ⟨.untouched, m, h.keep hget rfl rfl rfl⟩
  | mapped inner =>
    obtain ⟨rfl, rfl⟩ := hfits
    obtain rfl := h.inside_eq_none (by simp)
    obtain rfl := Option.some.inj hstep
    rw [h.outer]
    exact ⟨.pointed, none, h.advance hget rfl rfl (by simp) rfl rfl rfl rfl h.inners⟩
  | pointed =>
    obtain rfl : stage = .pointed := hfits
    obtain rfl := h.inside_eq_none (by simp)
    obtain rfl := Option.some.inj hstep
    rw [h.outer]
    exact ⟨.sized, none, h.advance hget rfl rfl (by simp) rfl rfl rfl rfl h.inners⟩
  | sized =>
    obtain rfl : stage = .sized := hfits
    obtain rfl := h.inside_eq_none (by simp)
    simp only [State.stepCall, State.setSize, h.outer, h.inners, Stage.outer, Stage.inners] at hstep
    obtain rfl := Option.some.inj hstep
    exact ⟨.initialised, none, h.advance hget rfl rfl (by simp) rfl rfl rfl rfl rfl⟩
  | reading =>
    obtain rfl : stage = .initialised := hfits
    obtain rfl := Option.some.inj hstep
    rw [h.outer]
    exact ⟨.initialised, m, h.keep hget ⟨rfl, rfl⟩ rfl rfl⟩
  | storing ptr =>
    obtain ⟨rfl, rfl⟩ := hfits
    obtain rfl := Option.some.inj hstep
    exact ⟨.initialised, m, h.store hget⟩
  | unlocking ptr =>
    obtain ⟨s', hs', rfl⟩ := Option.map_eq_some_iff.1 hstep
    obtain ⟨spin, hspin, rfl⟩ := stepSpin_eq_some.1 hs'
    obtain ⟨-, rfl⟩ := Mutex.step_release_eq_some.1 hspin
    exact ⟨stage, m, h.releaseSpin hget rfl rfl rfl rfl hfits (Or.inr hfits.1)⟩
  | unmapping ptr =>
    obtain rfl := Option.some.inj hstep
    exact ⟨stage, m, h.keep hget hfits rfl rfl⟩
  | entering ptr =>
    obtain ⟨rfl, rfl⟩ := hfits
    simp only [State.stepCall, h.stepInner_eq, Option.map_map, Option.map_eq_some_iff] at hstep
    obtain ⟨mutex, hmutex, rfl⟩ := hstep
    obtain ⟨rfl, rfl⟩ := Mutex.step_acquire_eq_some.1 hmutex
    exact ⟨.initialised, some i, h.acquireInner hget⟩
  | entered ptr =>
    obtain ⟨rfl, rfl⟩ := hfits
    simp only [State.stepCall, h.getSize_eq] at hstep
    obtain rfl := Option.some.inj hstep
    exact ⟨.initialised, m, h.keep hget ⟨rfl, rfl, rfl⟩ rfl rfl⟩
  | guard ptr n =>
    obtain ⟨rfl, rfl, -⟩ := hfits
    simp only [State.stepCall, h.stepInner_eq, Option.map_map, Option.map_eq_some_iff] at hstep
    obtain ⟨mutex, hmutex, rfl⟩ := hstep
    obtain ⟨rfl, rfl⟩ := Mutex.step_release_eq_some.1 hmutex
    exact ⟨.initialised, none, h.releaseInner hget⟩
  | failing err =>
    obtain ⟨s', hs', rfl⟩ := Option.map_eq_some_iff.1 hstep
    obtain ⟨spin, hspin, rfl⟩ := stepSpin_eq_some.1 hs'
    obtain ⟨-, rfl⟩ := Mutex.step_release_eq_some.1 hspin
    exact ⟨stage, m, h.releaseSpin hget rfl rfl rfl rfl trivial (Or.inl hfits)⟩
  | closing err =>
    obtain rfl := Option.some.inj hstep
    exact ⟨stage, m, h.keep hget trivial rfl rfl⟩
  | dropped | failed => cases hstep

/-- Every step keeps the invariant. -/
theorem Inv.step {a : Action} (h : Inv s stage m) (hstep : s.step a = some t) :
    ∃ stage' m', Inv t stage' m' := by
  cases a with
  | load =>
    obtain rfl := Option.some.inj hstep
    refine ⟨stage, m, h.outer, h.inners, h.fits, h.spin, h.inside, h.free, fun ptr hptr => ?_⟩
    rcases List.mem_append.1 hptr with hptr | hptr
    · exact h.statics ptr hptr
    · exact Or.inl (List.mem_singleton.1 hptr)
  | acquire copy =>
    simp only [State.step] at hstep
    split_ifs at hstep
    obtain rfl := Option.some.inj hstep
    refine ⟨stage, m, h.outer, h.inners, fun i call hget => ?_, h.spin.append rfl,
      h.inside.append rfl, h.free, h.statics⟩
    rcases List.mem_append.1 (List.mem_of_getElem? hget) with hmem | hmem
    · obtain ⟨j, hj⟩ := List.mem_iff_getElem?.1 hmem
      exact h.fits j call hj
    · obtain rfl := List.mem_singleton.1 hmem
      trivial
  | call i os =>
    obtain ⟨⟨copy, phase⟩, hget, hstep⟩ := Option.bind_eq_some_iff.1 hstep
    exact h.stepCall hget hstep

end Inv

/-- It holds in every run. -/
theorem inv_of_run {as : List Action} {s : State}
    (hrun : Transition.run State.step .init as = some s) : ∃ stage m, Inv s stage m :=
  Transition.run_invariant_of_step (I := fun s => ∃ stage m, Inv s stage m)
    (fun _ _ _ ⟨_, _, h⟩ hstep => h.step hstep) ⟨_, _, inv_init⟩ hrun

/-! ## Progress -/

/-- The steps a call still makes before its guard, unless it has failed. -/
def Phase.toGuard : Phase → Option ℕ
  | .entry => some 15
  | .building => some 14
  | .opening => some 13
  | .locking => some 12
  | .locked => some 11
  | .mapping => some 10
  | .mapped _ => some 9
  | .pointed => some 8
  | .sized => some 7
  | .reading => some 6
  | .storing _ => some 5
  | .unlocking _ => some 4
  | .unmapping _ => some 3
  | .entering _ => some 2
  | .entered _ => some 1
  | .guard _ _ => some 0
  | .dropped _ | .failing _ | .closing _ | .failed _ => none

section Progress

variable {s t : State} {stage : Stage} {m : Option ℕ} {i j copy n : ℕ} {phase phase' : Phase}

/-- Call `i` is in its next phase, the other calls are where they were. -/
structure Advances (s t : State) (i copy : ℕ) (phase' : Phase) : Prop where
  calls : t.calls = s.calls.set i ⟨copy, phase'⟩
  statics : t.statics.length = s.statics.length

theorem Advances.getElem? (h : Advances s t i copy phase')
    (hget : s.calls[i]? = some ⟨copy, phase⟩) : t.calls[i]? = some ⟨copy, phase'⟩ := by
  rw [h.calls]
  exact Pool.getElem?_set_of_getElem? hget

theorem advances_setPhase (s : State) (i copy : ℕ) (phase' : Phase) :
    Advances s (s.setPhase i copy phase') i copy phase' :=
  ⟨rfl, rfl⟩

/-- While nothing fails, a call whose next step waits for no lock comes closer to its guard. -/
theorem Inv.exists_advance (h : Inv s stage m) (hget : s.calls[i]? = some ⟨copy, phase⟩)
    (hphase : phase.toGuard = some (n + 1)) (hentry : phase = .entry → copy < s.statics.length)
    (hspin : phase = .locking → s.spin = none)
    (hinner : phase = .entering (some 0) → m = none) :
    ∃ t phase' k, s.step (.call i (.ok ())) = some t ∧ Advances s t i copy phase' ∧
      phase'.toGuard = some k ∧ k ≤ n := by
  have hfits := h.fits_phase hget
  have hstep : s.step (.call i (.ok ())) = s.stepCall i copy (.ok ()) phase := by
    simp [State.step, hget]
  rw [hstep]
  cases phase with
  | entry =>
    obtain rfl : n = 14 := by simpa [Phase.toGuard, eq_comm] using hphase
    simp only [State.stepCall, List.getElem?_eq_getElem (hentry rfl), Option.map_some]
    split_ifs with hnull
    · exact ⟨_, _, _, rfl, advances_setPhase .., rfl, by decide⟩
    · exact ⟨_, _, _, rfl, advances_setPhase .., rfl, by decide⟩
  | locked =>
    obtain rfl : n = 10 := by simpa [Phase.toGuard, eq_comm] using hphase
    simp only [State.stepCall]
    split_ifs with hnull
    · exact ⟨_, _, _, rfl, advances_setPhase .., rfl, by decide⟩
    · exact ⟨_, _, _, rfl, advances_setPhase .., rfl, by decide⟩
  | building | opening | mapping | mapped | pointed | reading | unmapping =>
    obtain rfl := Nat.succ.inj (Option.some.inj hphase)
    exact ⟨_, _, _, rfl, ⟨rfl, rfl⟩, rfl, le_rfl⟩
  | storing ptr =>
    obtain rfl := Nat.succ.inj (Option.some.inj hphase)
    exact ⟨_, _, _, rfl, ⟨rfl, List.length_set⟩, rfl, le_rfl⟩
  | locking =>
    obtain rfl := Nat.succ.inj (Option.some.inj hphase)
    simp only [State.stepCall, State.stepSpin, hspin rfl]
    exact ⟨_, _, _, rfl, ⟨rfl, rfl⟩, rfl, le_rfl⟩
  | unlocking ptr =>
    obtain rfl := Nat.succ.inj (Option.some.inj hphase)
    simp only [State.stepCall, State.stepSpin, h.spin_eq_some hget rfl, Mutex.step, if_true]
    exact ⟨_, _, _, rfl, ⟨rfl, rfl⟩, rfl, le_rfl⟩
  | sized =>
    obtain rfl : stage = .sized := hfits
    obtain rfl := Nat.succ.inj (Option.some.inj hphase)
    simp only [State.stepCall, State.setSize, h.outer, h.inners, Stage.outer, Stage.inners]
    exact ⟨_, _, _, rfl, ⟨rfl, rfl⟩, rfl, le_rfl⟩
  | entering ptr =>
    obtain ⟨rfl, rfl⟩ := hfits
    obtain rfl := hinner rfl
    obtain rfl := Nat.succ.inj (Option.some.inj hphase)
    simp only [State.stepCall, h.stepInner_eq]
    exact ⟨_, _, _, rfl, ⟨rfl, rfl⟩, rfl, le_rfl⟩
  | entered ptr =>
    obtain ⟨rfl, rfl⟩ := hfits
    obtain rfl := Nat.succ.inj (Option.some.inj hphase)
    simp only [State.stepCall, h.getSize_eq]
    exact ⟨_, _, _, rfl, ⟨rfl, rfl⟩, rfl, le_rfl⟩
  | guard | dropped | failing | closing | failed => cases hphase

/-- `t` is reached from `s` by steps of the calls there are. -/
structure Continues (s t : State) : Prop where
  run : ∃ as, Transition.run State.step s as = some t
  calls : t.calls.length = s.calls.length
  statics : t.statics.length = s.statics.length

theorem Continues.refl (s : State) : Continues s s :=
  ⟨⟨[], rfl⟩, rfl, rfl⟩

theorem Continues.trans {u : State} (h : Continues s t) (h' : Continues t u) : Continues s u := by
  obtain ⟨as, has⟩ := h.run
  obtain ⟨bs, hbs⟩ := h'.run
  exact ⟨⟨as ++ bs, Transition.run_append_eq_some.2 ⟨t, has, hbs⟩⟩, h'.calls.trans h.calls,
    h'.statics.trans h.statics⟩

/-- A call that goes on is a step of the run. -/
theorem Advances.continues {a : Action} (h : Advances s t i copy phase')
    (hstep : s.step a = some t) : Continues s t :=
  ⟨⟨[a], by simp [Transition.run, hstep]⟩, by rw [h.calls, List.length_set], h.statics⟩

/-- The spin lock is free after a step of its owner out of the outer record. -/
theorem Inv.spin_eq_none {stage' : Stage} {m' : Option ℕ} (h : Inv s stage m)
    (hget : s.calls[i]? = some ⟨copy, phase⟩) (hlocked : phase.isLocked = true)
    (h' : Inv t stage' m') (hcalls : t.calls = s.calls.set i ⟨copy, phase'⟩)
    (hlocked' : phase'.isLocked = false) : t.spin = none := by
  refine Option.eq_none_iff_forall_ne_some.2 fun j hj => ?_
  obtain ⟨call, hj, hcall⟩ := (h'.spin j).1 hj
  rw [hcalls] at hj
  rcases Pool.mem_of_getElem?_set hj with ⟨-, rfl⟩ | ⟨hij, hj⟩
  · exact absurd (hlocked'.symm.trans hcall) (by decide)
  · exact hij (h.spin.unique hget hlocked hj hcall)

/-- The owner of the outer record gives it back. -/
theorem Inv.exists_unlock (h : Inv s stage m) (hget : s.calls[i]? = some ⟨copy, phase⟩)
    (hlocked : phase.isLocked = true) (hphase : phase.toGuard = some n) :
    ∃ t stage m, Continues s t ∧ Inv t stage m ∧ t.spin = none := by
  induction n using Nat.strong_induction_on generalizing s stage m phase with
  | _ n ih =>
    cases n with
    | zero => cases phase <;> simp [Phase.toGuard, Phase.isLocked] at hphase hlocked
    | succ n =>
      obtain ⟨t, phase', k, hstep, hadvances, hphase', hk⟩ := h.exists_advance hget hphase
        (by rintro rfl; cases hlocked) (by rintro rfl; cases hlocked)
        (by rintro rfl; cases hlocked)
      obtain ⟨stage', m', h'⟩ := h.step hstep
      have hcontinues := hadvances.continues hstep
      cases hlocked' : phase'.isLocked with
      | false =>
        exact ⟨t, stage', m', hcontinues, h',
          h.spin_eq_none hget hlocked h' hadvances.calls hlocked'⟩
      | true =>
        obtain ⟨u, stage'', m'', hu, h'', hspin⟩ :=
          ih k (by omega) h' (hadvances.getElem? hget) hlocked' hphase'
        exact ⟨u, stage'', m'', hcontinues.trans hu, h'', hspin⟩

/-- Whoever owns the spin lock can release it. -/
theorem Inv.exists_spin_free (h : Inv s stage m) :
    ∃ t stage m, Continues s t ∧ Inv t stage m ∧ t.spin = none := by
  cases hspin : s.spin with
  | none => exact ⟨s, stage, m, Continues.refl s, h, hspin⟩
  | some i =>
    obtain ⟨⟨copy, phase⟩, hget, hlocked⟩ := (h.spin i).1 hspin
    cases phase with
    | failing err =>
      have hstep : s.step (.call i (.ok ())) =
          some ({ s with spin := none }.setPhase i copy (.closing err)) := by
        simp [State.step, State.stepCall, State.stepSpin, Mutex.step, hget, hspin]
      obtain ⟨stage', m', h'⟩ := h.step hstep
      have hadvances : Advances s ({ s with spin := none }.setPhase i copy (.closing err)) i copy
        (.closing err) := ⟨rfl, rfl⟩
      exact ⟨_, stage', m', hadvances.continues hstep, h', rfl⟩
    | locked | mapping | mapped | pointed | sized | reading | storing | unlocking =>
      exact h.exists_unlock hget hlocked rfl
    | _ => cases hlocked

/-- A guard is dropped. -/
theorem Inv.exists_drop {ptr : InnerPtr} {k : ℕ} (h : Inv s stage m)
    (hget : s.calls[i]? = some ⟨copy, .guard ptr k⟩) :
    ∃ t, Continues s t ∧ Inv t .initialised none ∧ t.spin = s.spin := by
  obtain ⟨rfl, rfl, -⟩ := h.fits_phase hget
  obtain rfl := h.inside.eq_some hget rfl
  have hstep : s.step (.call i (.ok ())) = some ({ s with inners := [⟨none, innerSize⟩] }.setPhase
      i copy (.dropped (some 0))) := by
    simp [State.step, State.stepCall, h.stepInner_eq, Mutex.step, hget]
  have hadvances : Advances s ({ s with inners := [⟨none, innerSize⟩] }.setPhase i copy
      (.dropped (some 0))) i copy (.dropped (some 0)) := ⟨rfl, rfl⟩
  exact ⟨_, hadvances.continues hstep, h.releaseInner hget, rfl⟩

/-- From every state the calls there are can go on to one in which both locks are free. -/
theorem Inv.exists_free (h : Inv s stage m) :
    ∃ t stage, Continues s t ∧ Inv t stage none ∧ t.spin = none := by
  obtain ⟨t, stage, m, hcontinues, h, hspin⟩ := h.exists_spin_free
  cases m with
  | none => exact ⟨t, stage, hcontinues, h, hspin⟩
  | some j =>
    obtain ⟨⟨copy, phase⟩, hget, hinside⟩ := (h.inside j).1 rfl
    cases phase with
    | guard ptr k =>
      obtain ⟨u, hu, h', hspin'⟩ := h.exists_drop hget
      exact ⟨u, .initialised, hcontinues.trans hu, h', hspin'.trans hspin⟩
    | entered ptr =>
      obtain ⟨rfl, rfl⟩ := h.fits_phase hget
      let guard := Phase.guard (some 0) (innerSize - sizeOfInner)
      have hstep : t.step (.call j (.ok ())) = some (t.setPhase j copy guard) := by
        simp [State.step, State.stepCall, h.getSize_eq, hget, guard]
      have hadvances := advances_setPhase t j copy guard
      have h' : Inv (t.setPhase j copy guard) .initialised (some j) :=
        h.keep hget ⟨rfl, rfl, rfl⟩ rfl rfl
      obtain ⟨u, hu, h'', hspin'⟩ := h'.exists_drop (hadvances.getElem? hget)
      exact ⟨u, .initialised, (hcontinues.trans (hadvances.continues hstep)).trans hu, h'',
        hspin'.trans hspin⟩
    | _ => cases hinside

/-- A call that nobody else can block gets its guard. -/
theorem Inv.exists_guard (h : Inv s stage m) (hget : s.calls[i]? = some ⟨copy, phase⟩)
    (hphase : phase.toGuard = some n) (hcopy : copy < s.statics.length)
    (halone : ∀ (j : ℕ) (call : Call), j ≠ i → s.calls[j]? = some call →
      call.phase.isLocked = false ∧ call.phase.isInside = false) :
    ∃ t ptr k, Continues s t ∧ t.calls[i]? = some ⟨copy, .guard ptr k⟩ := by
  induction n using Nat.strong_induction_on generalizing s stage m phase with
  | _ n ih =>
    cases n with
    | zero =>
      cases phase with
      | guard ptr k => exact ⟨s, ptr, k, Continues.refl s, hget⟩
      | _ => simp [Phase.toGuard] at hphase
    | succ n =>
      have hnone {p : Phase → Bool} {owner : Option ℕ}
          (howns : Mutex.Owns (fun call : Call => p call.phase) s.calls owner)
          (hp : p phase = false) (hothers : ∀ (j : ℕ) (call : Call), j ≠ i →
            s.calls[j]? = some call → p call.phase = false) : owner = none := by
        refine Option.eq_none_iff_forall_ne_some.2 fun j hj => ?_
        obtain ⟨call, hj, hcall⟩ := (howns j).1 hj
        by_cases hij : j = i
        · subst hij
          obtain rfl := Option.some.inj (hget.symm.trans hj)
          exact absurd (hp.symm.trans hcall) (by decide)
        · exact absurd ((hothers j call hij hj).symm.trans hcall) (by decide)
      obtain ⟨t, phase', k, hstep, hadvances, hphase', hk⟩ := h.exists_advance hget hphase
        (fun _ => hcopy)
        (fun hp => hnone h.spin (by rw [hp]; rfl) fun j call hij hj => (halone j call hij hj).1)
        (fun hp => hnone h.inside (by rw [hp]; rfl) fun j call hij hj => (halone j call hij hj).2)
      obtain ⟨stage', m', h'⟩ := h.step hstep
      have halone' (j : ℕ) (call : Call) (hij : j ≠ i) (hj : t.calls[j]? = some call) :
          call.phase.isLocked = false ∧ call.phase.isInside = false := by
        rw [hadvances.calls, List.getElem?_set_ne hij.symm] at hj
        exact halone j call hij hj
      obtain ⟨u, ptr, l, hu, hguard⟩ := ih k (by omega) h' (hadvances.getElem? hget) hphase'
        (hadvances.statics ▸ hcopy) halone'
      exact ⟨u, ptr, l, (hadvances.continues hstep).trans hu, hguard⟩

/-- From every state a new call can get a guard. -/
theorem Inv.exists_acquire (h : Inv s stage m) (hcopy : copy < s.statics.length) :
    ∃ as t ptr k, Transition.run State.step s as = some t ∧
      t.calls[s.calls.length]? = some ⟨copy, .guard ptr k⟩ := by
  obtain ⟨t, stage, hcontinues, h, hspin⟩ := h.exists_free
  obtain ⟨as, has⟩ := hcontinues.run
  have hstep : t.step (.acquire copy) = some { t with calls := t.calls ++ [⟨copy, .entry⟩] } := by
    simp [State.step, hcontinues.statics, hcopy]
  obtain ⟨stage', m', h'⟩ := h.step hstep
  have halone (j : ℕ) (call : Call) (hj : j ≠ t.calls.length)
      (hget : (t.calls ++ [⟨copy, .entry⟩])[j]? = some call) :
      call.phase.isLocked = false ∧ call.phase.isInside = false := by
    have hlt := (List.getElem?_eq_some_iff.1 hget).1
    rw [List.length_append, List.length_singleton] at hlt
    rw [List.getElem?_append_left (by omega)] at hget
    exact ⟨h.spin.eq_false hget (by simp [hspin]), h.inside.eq_false hget (by simp)⟩
  obtain ⟨u, ptr, k, hu, hguard⟩ := h'.exists_guard List.getElem?_concat_length rfl
    (hcontinues.statics ▸ hcopy) halone
  obtain ⟨bs, hbs⟩ := hu.run
  rw [hcontinues.calls] at hguard
  refine ⟨as ++ .acquire copy :: bs, u, ptr, k, ?_, hguard⟩
  exact Transition.run_append_eq_some.2 ⟨t, has, Transition.run_cons_eq_some.2 ⟨_, hstep, hbs⟩⟩

end Progress

/-! ## The process context -/

/-- Nothing has been written to the outer record. -/
def State.Untouched (s : State) : Prop :=
  s.outer = ⟨none, 0⟩ ∧ s.inners = []

/-- The outer record points to the one inner mapping, whose size is set. -/
def State.Initialised (s : State) : Prop :=
  s.outer = ⟨some 0, innerSize⟩ ∧ ∃ m, s.inners = [⟨m, innerSize⟩]

section Stage

variable {s : State} {stage : Stage} {m : Option ℕ}

theorem Inv.initialised (h : Inv s .initialised m) : s.Initialised :=
  ⟨h.outer, m, h.inners_eq⟩

theorem Inv.untouched (h : Inv s .untouched m) : s.Untouched :=
  ⟨h.outer, h.inners⟩

/-- The inner pointer a call uses is the one of the initialised record. -/
theorem Phase.Fits.innerPtr {phase : Phase} {ptr : InnerPtr} (h : phase.Fits stage)
    (hptr : phase.innerPtr? = some ptr) : stage = .initialised ∧ ptr = some 0 := by
  cases phase with
  | unmapping | entering | entered | dropped =>
    obtain rfl := Option.some.inj hptr
    exact h
  | guard =>
    obtain rfl := Option.some.inj hptr
    exact ⟨h.1, h.2.1⟩
  | _ => cases hptr

/-- At most one inner mapping is made. -/
theorem Inv.inners_length_le (h : Inv s stage m) : s.inners.length ≤ 1 := by
  rw [h.inners]
  cases stage <;> simp [Stage.inners]

/-- The owner of the inner mutex. -/
theorem Inv.mutex_eq (h : Inv s stage m) {inner : Inner} (hmem : inner ∈ s.inners) :
    inner.mutex = m := by
  rw [h.inners] at hmem
  cases stage with
  | untouched => cases hmem
  | _ => rw [List.mem_singleton.1 hmem]

end Stage

/-- Whoever uses an inner record uses the one the outer record points to, which is the only
one ever mapped and has its size set. At most one guard is alive. A call that fails under the
lock of the outer record has left it untouched, a failed call owns no lock, and an unlocked
outer record is untouched or initialised. A later call can succeed, in every copy. -/
theorem acquire_agrees {as : List Action} {s : State}
    (hrun : Transition.run State.step .init as = some s) :
    (∀ (i : ℕ) (call : Call) (ptr : InnerPtr), s.calls[i]? = some call →
        call.phase.innerPtr? = some ptr → s.Initialised ∧ ptr = s.outer.innerPtr) ∧
      s.inners.length ≤ 1 ∧
      (∀ (i j : ℕ) (copy copy' : ℕ) (ptr ptr' : InnerPtr) (n n' : ℕ),
        s.calls[i]? = some ⟨copy, .guard ptr n⟩ → s.calls[j]? = some ⟨copy', .guard ptr' n'⟩ →
          i = j) ∧
      (∀ (i copy : ℕ) (err : IoError), s.calls[i]? = some ⟨copy, .failing err⟩ →
        s.Untouched) ∧
      (∀ (i : ℕ) (call : Call), s.calls[i]? = some call → call.phase.isFailed = true →
        s.spin ≠ some i ∧ ∀ inner ∈ s.inners, inner.mutex ≠ some i) ∧
      (s.spin = none → s.Untouched ∨ s.Initialised) ∧
      ∀ copy < s.statics.length, ∃ bs t ptr n, Transition.run State.step s bs = some t ∧
        t.calls[s.calls.length]? = some ⟨copy, .guard ptr n⟩ := by
  obtain ⟨stage, m, h⟩ := inv_of_run hrun
  refine ⟨fun i call ptr hget hptr => ?_, h.inners_length_le, ?_, fun i copy err hget => ?_,
    fun i call hget hfailed => ⟨fun hspin => ?_, fun inner hinner hmutex => ?_⟩,
    fun hspin => ?_, fun copy hcopy => h.exists_acquire hcopy⟩
  · obtain ⟨rfl, rfl⟩ := (h.fits i call hget).innerPtr hptr
    exact ⟨h.initialised, by rw [h.outer]; rfl⟩
  · intro i j copy copy' ptr ptr' n n' hi hj
    exact h.inside.unique hi rfl hj rfl
  · obtain rfl : stage = .untouched := h.fits_phase hget
    exact h.untouched
  · have hlocked := (hspin ▸ h.spin).of_some hget
    obtain ⟨copy, phase⟩ := call
    cases phase <;> simp [Phase.isLocked, Phase.isFailed] at hlocked hfailed
  · rw [h.mutex_eq hinner] at hmutex
    have hinside := (hmutex ▸ h.inside).of_some hget
    obtain ⟨copy, phase⟩ := call
    cases phase <;> simp [Phase.isInside, Phase.isFailed] at hinside hfailed
  · rcases h.free hspin with rfl | rfl
    · exact Or.inl h.untouched
    · exact Or.inr h.initialised

/-- What the system reports without memory. -/
def sampleError : IoError :=
  ⟨"Cannot allocate memory (os error 12)"⟩

/-- A call in the first copy fails to map the inner record, one in the second copy maps it
while a third call in the first copy waits for the lock and then finds it mapped. -/
def sampleRun : List Action :=
  [.load, .load, .acquire 0, .call 0 (.ok ()), .call 0 (.ok ()), .call 0 (.ok ()),
    .call 0 (.ok ()), .call 0 (.ok ()), .call 0 (.error sampleError), .acquire 1, .acquire 0,
    .call 2 (.ok ()), .call 1 (.ok ()), .call 1 (.ok ()), .call 1 (.ok ()), .call 0 (.ok ()),
    .call 1 (.ok ()), .call 1 (.ok ()), .call 1 (.ok ()), .call 2 (.ok ()), .call 1 (.ok ()),
    .call 1 (.ok ()), .call 1 (.ok ()), .call 1 (.ok ()), .call 1 (.ok ()), .call 1 (.ok ()),
    .call 2 (.ok ()), .call 2 (.ok ()), .call 1 (.ok ()), .call 1 (.ok ()), .call 1 (.ok ())]

theorem acquire_agrees_sampleRun : ∃ s, Transition.run State.step .init sampleRun = some s ∧
    (∀ (i : ℕ) (call : Call) (ptr : InnerPtr), s.calls[i]? = some call →
        call.phase.innerPtr? = some ptr → s.Initialised ∧ ptr = s.outer.innerPtr) ∧
      s.inners.length ≤ 1 ∧
      (∀ (i j : ℕ) (copy copy' : ℕ) (ptr ptr' : InnerPtr) (n n' : ℕ),
        s.calls[i]? = some ⟨copy, .guard ptr n⟩ → s.calls[j]? = some ⟨copy', .guard ptr' n'⟩ →
          i = j) ∧
      (∀ (i copy : ℕ) (err : IoError), s.calls[i]? = some ⟨copy, .failing err⟩ →
        s.Untouched) ∧
      (∀ (i : ℕ) (call : Call), s.calls[i]? = some call → call.phase.isFailed = true →
        s.spin ≠ some i ∧ ∀ inner ∈ s.inners, inner.mutex ≠ some i) ∧
      (s.spin = none → s.Untouched ∨ s.Initialised) ∧
      ∀ copy < s.statics.length, ∃ bs t ptr n, Transition.run State.step s bs = some t ∧
        t.calls[s.calls.length]? = some ⟨copy, .guard ptr n⟩ := by
  have hrun : Transition.run State.step .init sampleRun =
      some ⟨⟨some 0, innerSize⟩, some 2, [⟨some 1, innerSize⟩], [none, some 0],
        [⟨0, .closing sampleError⟩, ⟨1, .guard (some 0) (innerSize - sizeOfInner)⟩,
          ⟨0, .locked⟩]⟩ := rfl
  exact ⟨_, hrun, acquire_agrees hrun⟩

end Acquire

end Diversion
