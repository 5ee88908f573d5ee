import Diversion.Lib.Mutex
import Mathlib.Order.Nat

/-!
# PodMutex

The futex lock of abi/src/sync/pod.rs, one atomic operation a step, any number of calls of
`lock` interleaved with drops of their guards in any order. A call is a process that goes
through `Call` : the fast path, the loop of the slow path, the guard, the drop of the guard.
`atomic_wait::wait` checks the word and sleeps if it is `contended`, and may return without a
wake-up; `wake_one` wakes one sleeper if there is one.

`Inv` ties the word to the number of guards, and `Served` is what keeps a sleeper from being
stranded. Seen from outside the lock is a mutex (`exists_mutex_run`).
-/

namespace Diversion

namespace PodMutex

/-- `UNLOCKED`, the value of a word that no guard holds. -/
def unlocked : UInt32 := 0

/-- `LOCKED`, held, and nobody waits. -/
def locked : UInt32 := 1

/-- `CONTENDED`, held, and somebody may wait. -/
def contended : UInt32 := 2

/-- Where a call of `lock` is, its guard included. -/
inductive Call where
  | entry
  /-- At the top of the loop, `state` is what was read last. -/
  | slow (state : UInt32)
  /-- In `wait`, before the word is checked. -/
  | waiting
  | asleep
  /-- Out of `wait`, before the load. -/
  | woken
  | guard
  /-- In `MutexGuard::drop`, before `wake_one`. -/
  | unlocking
  | done
deriving DecidableEq, Repr

namespace Call

/-- The call owns the mutex. -/
def isGuard (call : Call) : Bool :=
  call = .guard

/-- The call waits for a wake-up. -/
def isAsleep (call : Call) : Bool :=
  call = .asleep

/-- In the slow path and not asleep. -/
def isAwake : Call → Bool
  | .slow _ | .waiting | .woken => true
  | _ => false

/-- The drop has unlocked and still has to wake one. -/
def isUnlocking (call : Call) : Bool :=
  call = .unlocking

end Call

/-- The word of the mutex and the calls of `lock`, by their number. -/
structure State where
  word : UInt32
  calls : List Call
deriving DecidableEq, Repr

/-- The zeroed mutex. -/
def State.init : State where
  word := unlocked
  calls := []

/-- One step of one thread. -/
inductive Action where
  /-- A thread calls `lock`. -/
  | lock
  /-- The next atomic operation of call `i`. From `asleep` on it is a spurious wake-up, from
  `guard` on the drop. -/
  | call (i : ℕ)
  /-- The `wake_one` of call `i`, which wakes `sleeper`. -/
  | wakeOne (i : ℕ) (sleeper : Option ℕ)
deriving DecidableEq, Repr

namespace State

/-- Move one call. -/
def setCall (s : State) (i : ℕ) (call : Call) : State :=
  { s with calls := s.calls.set i call }

/-- Moving a call leaves the word. -/
@[simp] theorem setCall_word (s : State) (i : ℕ) (call : Call) :
    (s.setCall i call).word = s.word :=
  rfl

/-- The calls behind it. -/
@[simp] theorem setCall_calls (s : State) (i : ℕ) (call : Call) :
    (s.setCall i call).calls = s.calls.set i call :=
  rfl

/-- `PodMutex::lock`, then `MutexGuard::drop`. -/
def stepCall (s : State) (i : ℕ) : Call → Option State
  | .entry =>
    if s.word = unlocked then some ({ s with word := locked }.setCall i .guard)
    else some (s.setCall i (.slow s.word))
  | .slow state =>
    if state ≠ contended then
      if s.word = unlocked then some ({ s with word := contended }.setCall i .guard)
      else some ({ s with word := contended }.setCall i .waiting)
    else some (s.setCall i .waiting)
  | .waiting =>
    if s.word = contended then some (s.setCall i .asleep) else some (s.setCall i .woken)
  | .asleep => some (s.setCall i .woken)
  | .woken => some (s.setCall i (.slow s.word))
  | .guard =>
    if s.word = contended then some ({ s with word := unlocked }.setCall i .unlocking)
    else some ({ s with word := unlocked }.setCall i .done)
  | .unlocking => none
  | .done => none

/-- `wake_one` wakes a sleeper where there is one. -/
def stepWake (s : State) (i : ℕ) : Option ℕ → Option State
  | some j =>
    if s.calls[j]? = some .asleep then some ((s.setCall j .woken).setCall i .done) else none
  | none => if .asleep ∈ s.calls then none else some (s.setCall i .done)

/-- `none` where the step is not enabled. -/
def step (s : State) : Action → Option State
  | .lock => some { s with calls := s.calls ++ [.entry] }
  | .call i => (s.calls[i]?).bind (s.stepCall i)
  | .wakeOne i sleeper => if s.calls[i]? = some .unlocking then s.stepWake i sleeper else none

end State

/-! ## The owner -/

/-- The call that holds the guard is the owner, and the word is `unlocked` if there is none. -/
structure Represents (s : State) (owner : Option ℕ) : Prop where
  owns : Mutex.Owns Call.isGuard s.calls owner
  word : s.word = unlocked ↔ owner = none

section Represents

variable {s t : State} {owner : Option ℕ} {i : ℕ} {call call' : Call} {word : UInt32}

/-- A fresh mutex is free. -/
theorem represents_init : Represents .init none where
  owns := Mutex.owns_nil
  word := iff_of_true rfl rfl

/-- A step of a call that neither holds the guard before nor after it. -/
theorem Represents.set (h : Represents s owner) (hget : s.calls[i]? = some call)
    (hcall : call'.isGuard = call.isGuard) (hword : word = unlocked ↔ s.word = unlocked) :
    Represents ({ s with word }.setCall i call') owner where
  owns := h.owns.set hget hcall
  word := hword.trans h.word

/-- A call that takes the free word is the owner. -/
theorem Represents.acquire (h : Represents s none) (hget : s.calls[i]? = some call)
    (hword : word ≠ unlocked) : Represents ({ s with word }.setCall i .guard) (some i) where
  owns := h.owns.acquire hget rfl
  word := by simp [hword]

/-- Without its owner the word is free again. -/
theorem Represents.release (h : Represents s (some i)) (hget : s.calls[i]? = some call)
    (hcall' : call'.isGuard = false) :
    Represents ({ s with word := unlocked }.setCall i call') none where
  owns := h.owns.release hget hcall'
  word := iff_of_true rfl rfl

/-- An unlocked word has no owner. -/
theorem Represents.eq_none (h : Represents s owner) (hword : s.word = unlocked) : owner = none :=
  h.word.1 hword

/-- A step of a call is a step of the mutex, or none. -/
theorem Represents.stepCall (h : Represents s owner) (hget : s.calls[i]? = some call)
    (hstep : s.stepCall i call = some t) :
    ∃ es owner', Transition.run Mutex.step owner es = some owner' ∧ Represents t owner' := by
  have hacquire {word : UInt32} (hword : s.word = unlocked) (hne : word ≠ unlocked) :
      ∃ es owner', Transition.run Mutex.step owner es = some owner' ∧
        Represents ({ s with word }.setCall i .guard) owner' := by
    obtain rfl := h.eq_none hword
    exact ⟨[.acquire i], some i, rfl, h.acquire hget hne⟩
  cases call with
  | entry =>
    simp only [State.stepCall] at hstep
    split_ifs at hstep with hword
    · obtain rfl := Option.some.inj hstep
      exact hacquire hword (by decide)
    · obtain rfl := Option.some.inj hstep
      exact ⟨[], owner, rfl, h.set hget rfl Iff.rfl⟩
  | slow state =>
    simp only [State.stepCall] at hstep
    split_ifs at hstep with hstate hword
    · obtain rfl := Option.some.inj hstep
      exact hacquire hword (by decide)
    · obtain rfl := Option.some.inj hstep
      exact ⟨[], owner, rfl, h.set hget rfl (iff_of_false (by decide) hword)⟩
    · obtain rfl := Option.some.inj hstep
      exact ⟨[], owner, rfl, h.set hget rfl Iff.rfl⟩
  | waiting =>
    simp only [State.stepCall] at hstep
    split_ifs at hstep <;> obtain rfl := Option.some.inj hstep <;>
      exact ⟨[], owner, rfl, h.set hget rfl Iff.rfl⟩
  | asleep | woken =>
    obtain rfl := Option.some.inj hstep
    exact ⟨[], owner, rfl, h.set hget rfl Iff.rfl⟩
  | guard =>
    obtain rfl := h.owns.eq_some hget rfl
    have hrelease : Transition.run Mutex.step (some i) [.release i] = some none := by
      simp [Transition.run]
    simp only [State.stepCall] at hstep
    split_ifs at hstep <;> obtain rfl := Option.some.inj hstep <;>
      exact ⟨[.release i], none, hrelease, h.release hget rfl⟩
  | unlocking | done => cases hstep

/-- A wake-up does not touch the lock. -/
theorem Represents.stepWake (h : Represents s owner) {sleeper : Option ℕ}
    (hget : s.calls[i]? = some .unlocking) (hstep : s.stepWake i sleeper = some t) :
    Represents t owner := by
  cases sleeper with
  | none =>
    simp only [State.stepWake] at hstep
    split_ifs at hstep
    obtain rfl := Option.some.inj hstep
    exact h.set hget rfl Iff.rfl
  | some j =>
    simp only [State.stepWake] at hstep
    split_ifs at hstep with hasleep
    obtain rfl := Option.some.inj hstep
    have hij : j ≠ i := fun hij => by simp [hij, hget] at hasleep
    have hwoken : Represents (s.setCall j .woken) owner :=
      h.set hasleep rfl Iff.rfl
    have hi : (s.setCall j .woken).calls[i]? = some .unlocking := by
      simpa [List.getElem?_set_ne hij] using hget
    exact hwoken.set hi rfl Iff.rfl

/-- Every step is a short run of the abstract mutex. -/
theorem Represents.step {a : Action} (h : Represents s owner) (hstep : s.step a = some t) :
    ∃ es owner', Transition.run Mutex.step owner es = some owner' ∧ Represents t owner' := by
  cases a with
  | lock =>
    obtain rfl := Option.some.inj hstep
    exact ⟨[], owner, rfl, h.owns.append rfl, h.word⟩
  | call i =>
    obtain ⟨call, hget, hstep⟩ := Option.bind_eq_some_iff.1 hstep
    exact h.stepCall hget hstep
  | wakeOne i sleeper =>
    simp only [State.step] at hstep
    split_ifs at hstep with hget
    exact ⟨[], owner, rfl, h.stepWake hget hstep⟩

end Represents

/-- Every run of the lock is a run of a mutex. -/
theorem exists_mutex_run {as : List Action} {s : State}
    (hrun : Transition.run State.step .init as = some s) :
    ∃ es owner, Transition.run Mutex.step none es = some owner ∧ Represents s owner :=
  Transition.run_simulates (fun _ _ _ _ h hstep => h.step hstep) represents_init hrun

/-! ## The sleepers -/

/-- Nobody sleeps while the word does not say so, unless someone is about to look at the word
or to wake a sleeper. -/
def Served (s : State) : Prop :=
  1 ≤ s.calls.countP Call.isAsleep → s.word = contended ∨
    1 ≤ s.calls.countP Call.isAwake ∨ 1 ≤ s.calls.countP Call.isUnlocking

section Served

variable {s t : State} {i : ℕ} {call call' : Call} {word : UInt32}

/-- A call that is awake will take the word or find it taken. -/
theorem served_of_isAwake (hget : s.calls[i]? = some call) (hcall : call'.isAwake = true) :
    Served ({ s with word }.setCall i call') := fun _ =>
  Or.inr (Or.inl (Pool.countP_pos_of_getElem? (Pool.getElem?_set_of_getElem? hget) hcall))

/-- A call that was neither asleep nor serving a sleeper moves, and the word stays
`contended` if it was. -/
theorem Served.set (h : Served s) (hget : s.calls[i]? = some call)
    (hcall : call = .entry ∨ call = .guard) (hcall' : call'.isAsleep = false)
    (hword : s.word = contended → word = contended) :
    Served ({ s with word }.setCall i call') := by
  intro hasleep
  have hcounts : call.isAwake = false ∧ call.isUnlocking = false := by
    rcases hcall with rfl | rfl <;> exact ⟨rfl, rfl⟩
  have hawake := Pool.countP_set_add (p := Call.isAwake) (b := call') hget
  have hunlocking := Pool.countP_set_add (p := Call.isUnlocking) (b := call') hget
  have hle : s.calls.countP Call.isAsleep ≥ (s.calls.set i call').countP Call.isAsleep :=
    Pool.countP_set_le hget (by simp [hcall'])
  simp only [hcounts, Bool.false_eq_true, if_false] at hawake hunlocking
  rcases h (Nat.le_trans hasleep hle) with h | h | h
  · exact Or.inl (hword h)
  · exact Or.inr (Or.inl (show 1 ≤ (s.calls.set i call').countP _ by omega))
  · exact Or.inr (Or.inr (show 1 ≤ (s.calls.set i call').countP _ by omega))

/-- A step of a call strands nobody. -/
theorem Served.stepCall (h : Served s) (hget : s.calls[i]? = some call)
    (hstep : s.stepCall i call = some t) : Served t := by
  cases call with
  | entry =>
    simp only [State.stepCall] at hstep
    split_ifs at hstep with hword
    · obtain rfl := Option.some.inj hstep
      exact h.set hget (Or.inl rfl) rfl fun hc => absurd (hword.symm.trans hc) (by decide)
    · obtain rfl := Option.some.inj hstep
      exact served_of_isAwake hget rfl
  | slow state =>
    simp only [State.stepCall] at hstep
    split_ifs at hstep with hstate hword
    · obtain rfl := Option.some.inj hstep
      exact fun _ => Or.inl rfl
    · obtain rfl := Option.some.inj hstep
      exact served_of_isAwake hget rfl
    · obtain rfl := Option.some.inj hstep
      exact served_of_isAwake hget rfl
  | waiting =>
    simp only [State.stepCall] at hstep
    split_ifs at hstep with hword
    · obtain rfl := Option.some.inj hstep
      exact fun _ => Or.inl hword
    · obtain rfl := Option.some.inj hstep
      exact served_of_isAwake hget rfl
  | asleep | woken =>
    obtain rfl := Option.some.inj hstep
    exact served_of_isAwake hget rfl
  | guard =>
    simp only [State.stepCall] at hstep
    split_ifs at hstep with hword
    · obtain rfl := Option.some.inj hstep
      -- the one who unlocks a contended word still has to wake a sleeper
      exact fun _ => Or.inr (Or.inr
        (Pool.countP_pos_of_getElem? (Pool.getElem?_set_of_getElem? hget) rfl))
    · obtain rfl := Option.some.inj hstep
      exact h.set hget (Or.inr rfl) rfl fun hc => absurd hc hword
  | unlocking | done => cases hstep

/-- Nor does a wake-up. -/
theorem Served.stepWake {sleeper : Option ℕ} (hget : s.calls[i]? = some .unlocking)
    (hstep : s.stepWake i sleeper = some t) : Served t := by
  cases sleeper with
  | none =>
    simp only [State.stepWake] at hstep
    split_ifs at hstep with hasleep
    obtain rfl := Option.some.inj hstep
    intro h
    obtain ⟨j, call, hj, hcall⟩ := Pool.exists_of_countP_pos h
    obtain rfl : call = .asleep := by simpa [Call.isAsleep] using hcall
    rcases Pool.mem_of_getElem?_set hj with ⟨-, h⟩ | ⟨-, hj⟩
    · cases h
    · exact absurd (List.mem_of_getElem? hj) hasleep
  | some j =>
    simp only [State.stepWake] at hstep
    split_ifs at hstep with hasleep
    obtain rfl := Option.some.inj hstep
    have hij : i ≠ j := fun hij => by simp [← hij, hget] at hasleep
    refine fun _ => Or.inr (Or.inl (Pool.countP_pos_of_getElem? (i := j) (a := .woken) ?_ rfl))
    simp [List.getElem?_set_ne hij, Pool.getElem?_set_of_getElem? hasleep]

/-- Nor does any step. -/
theorem Served.step {a : Action} (h : Served s) (hstep : s.step a = some t) : Served t := by
  cases a with
  | lock =>
    obtain rfl := Option.some.inj hstep
    simp only [Served]
    rw [Pool.countP_append_of_eq_false rfl, Pool.countP_append_of_eq_false rfl,
      Pool.countP_append_of_eq_false rfl]
    exact h
  | call i =>
    obtain ⟨call, hget, hstep⟩ := Option.bind_eq_some_iff.1 hstep
    exact h.stepCall hget hstep
  | wakeOne i sleeper =>
    simp only [State.step] at hstep
    split_ifs at hstep with hget
    exact Served.stepWake hget hstep

end Served

/-- Nobody is stranded in a run from a fresh mutex. -/
theorem served_of_run {as : List Action} {s : State}
    (hrun : Transition.run State.step .init as = some s) : Served s :=
  Transition.run_invariant_of_step (fun _ _ _ h hstep => h.step hstep)
    (by simp [Served, State.init]) hrun

/-! ## The lock -/

/-- At most one guard is alive, none while the word is `unlocked`, and whoever sleeps will be
served : by the drop of a guard that finds the word `contended`, by another call that is about
to look at the word, or by an unlock that is about to wake a sleeper. -/
theorem lock_exclusive_and_served {as : List Action} {s : State}
    (hrun : Transition.run State.step .init as = some s) :
    (∀ i j : ℕ, s.calls[i]? = some .guard → s.calls[j]? = some .guard → i = j) ∧
      (s.word = unlocked → ∀ i : ℕ, s.calls[i]? ≠ some .guard) ∧
      ∀ i : ℕ, s.calls[i]? = some .asleep →
        (s.word = contended ∧ ∃ j : ℕ, s.calls[j]? = some .guard) ∨
          ∃ (j : ℕ) (call : Call), j ≠ i ∧ s.calls[j]? = some call ∧
            (call.isAwake = true ∨ call = .unlocking) := by
  obtain ⟨es, owner, -, h⟩ := exists_mutex_run hrun
  refine ⟨fun i j hi hj => ?_, fun hword i hi => ?_, fun i hi => ?_⟩
  · exact h.owns.unique hi rfl hj rfl
  · simpa [h.eq_none hword] using h.owns.eq_some hi rfl
  · have hne {j : ℕ} {call : Call} (hj : s.calls[j]? = some call) (hcall : call ≠ .asleep) :
        j ≠ i := by
      rintro rfl
      exact hcall (Option.some.inj (hj.symm.trans hi))
    rcases served_of_run hrun (Pool.countP_pos_of_getElem? hi rfl) with hword | hawake | hunlock
    · refine Or.inl ⟨hword, ?_⟩
      have howner : owner ≠ none := fun howner => absurd (h.word.2 howner) (by rw [hword]; decide)
      obtain ⟨j, rfl⟩ := Option.ne_none_iff_exists'.1 howner
      obtain ⟨call, hj, hcall⟩ := (h.owns j).1 rfl
      obtain rfl : call = .guard := by simpa [Call.isGuard] using hcall
      exact ⟨j, hj⟩
    · obtain ⟨j, call, hj, hcall⟩ := Pool.exists_of_countP_pos hawake
      refine Or.inr ⟨j, call, hne hj ?_, hj, Or.inl hcall⟩
      rintro rfl
      cases hcall
    · obtain ⟨j, call, hj, hcall⟩ := Pool.exists_of_countP_pos hunlock
      obtain rfl : call = .unlocking := by simpa [Call.isUnlocking] using hcall
      exact Or.inr ⟨j, .unlocking, hne hj (by simp), hj, Or.inr rfl⟩

/-- Two waiters asleep behind a guard : the drop hands the lock to one of them by way of the
word, and the other is still served. -/
theorem lock_exclusive_and_served_two_sleepers :
    ∃ s, Transition.run State.step .init
        [.lock, .lock, .lock, .call 0, .call 1, .call 2, .call 1, .call 2, .call 1, .call 2,
          .call 0, .wakeOne 0 (some 1), .call 1, .call 1] = some s ∧
      (∀ i j : ℕ, s.calls[i]? = some .guard → s.calls[j]? = some .guard → i = j) ∧
      (s.word = unlocked → ∀ i : ℕ, s.calls[i]? ≠ some .guard) ∧
      ∀ i : ℕ, s.calls[i]? = some .asleep →
        (s.word = contended ∧ ∃ j : ℕ, s.calls[j]? = some .guard) ∨
          ∃ (j : ℕ) (call : Call), j ≠ i ∧ s.calls[j]? = some call ∧
            (call.isAwake = true ∨ call = .unlocking) := by
  have hrun : Transition.run State.step .init
      [.lock, .lock, .lock, .call 0, .call 1, .call 2, .call 1, .call 2, .call 1, .call 2,
        .call 0, .wakeOne 0 (some 1), .call 1, .call 1] =
        some ⟨contended, [.done, .guard, .asleep]⟩ := rfl
  exact ⟨_, hrun, lock_exclusive_and_served hrun⟩

end PodMutex

end Diversion
