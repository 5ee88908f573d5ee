import Diversion.Lib.Pool
import Diversion.Lib.Transition
import Mathlib.Order.Nat
import Mathlib.Tactic.Common

/-!
# Scoped hooks and the end of their scope

The hooks of a scope (src/hook/scoped.rs), called by any number of threads while the exit
guard of the scope runs. The vector of the scope holds one strong reference to the box of
each hook, every call that has upgraded its weak reference holds another, and whoever drops
the last one with `Arc::into_inner` gets the box and drops it. The guard gives up its
reference to one hook after the other and waits until the strong count is zero.

The count is zero from the decrement on, and the box is dropped later. So the guard can go on
while a caller still has the box, and the scope can end before the destructor of the closure
has run (`not_clean`). A call that comes to a hook when its box is gone upgrades the handle of
the hook instead, to go to `call_original`. It panics if the last handle has been dropped by
then, as it keeps its clone of the thunk alive, but not the hook (`later_panics`).

In a run where the guard never reads the count of a hook whose box a caller has (`Waits`),
nothing is left of the hooks when the guard has finished. Later calls go to `call_original` if
they find a handle (`FindsHandle`, `clean_of_run`). The invariant is a relation between each
hook, the guard and the numbers of calls that hold a reference to it, its box or its closure
(`Fits`).
-/

namespace Diversion

namespace Scoped

/-! ## State -/

/-- `ScopedHook`, `ScopedHookMut` and `ScopedHookOnce`. -/
inductive Strategy where
  | hook
  | hookMut
  | hookOnce
deriving DecidableEq, Repr

/-- The closure value of a hook. -/
inductive Value where
  /-- In the strategy. -/
  | stored
  /-- In the call that has taken it. -/
  | moved
  | destroyed
deriving DecidableEq, Repr

/-- A hook of the scope, with the box its `Arc` points to. -/
structure Entry where
  strategy : Strategy
  /-- The strong count of the `Arc`. -/
  strong : ℕ
  /-- The strong count of the `Handle`, with the upgraded references of calls. -/
  handles : ℕ
  /-- `Hook::drop` has not removed the thunk from the list of the target. -/
  listed : Bool
  /-- The box has not been dropped. -/
  boxed : Bool
  value : Value
  /-- The flag of `ScopedHookOnce`. -/
  flag : Bool
  /-- The mutex of `ScopedHookMut` is held. -/
  locked : Bool
deriving DecidableEq, Repr

/-- `ScopedStrategy::hook` has pushed its only strong reference. -/
def Entry.new (strategy : Strategy) : Entry where
  strategy := strategy
  strong := 1
  handles := 1
  listed := true
  boxed := true
  value := .stored
  flag := true
  locked := false

/-- Drop the box, and the closure if it is there. -/
def Entry.dropBox (e : Entry) : Entry :=
  { e with boxed := false, value := if e.value = .stored then .destroyed else e.value }

theorem Entry.value_dropBox_ne_stored (e : Entry) : e.dropBox.value ≠ .stored := by
  simp only [dropBox]
  split_ifs with h
  · simp
  · exact h

theorem Entry.value_dropBox_eq_moved_iff (e : Entry) :
    e.dropBox.value = .moved ↔ e.value = .moved := by
  simp only [dropBox]
  split_ifs with h
  · simp [h]
  · rfl

/-- Where a call of a hook is. -/
inductive Phase where
  /-- Has a clone of the thunk, before `Weak::upgrade`. -/
  | entry
  /-- Before the upgrade of the handle, that of the box having failed. -/
  | original
  /-- In `ScopedStrategy::call`. -/
  | entered
  | running
  /-- Has loaded the flag as set. -/
  | taking
  /-- Has taken the closure. -/
  | storing
  | runningOnce
  /-- Before the upgrade of the handle, the closure having been taken. -/
  | fallback
  /-- In `call_original`, with a handle, and with a reference to the box if it is `inside`. -/
  | calling (inside : Bool)
  /-- Has dropped the last handle, in `Hook::drop`. -/
  | dropping (inside : Bool)
  /-- Has returned from the closure or from `call_original`, or unwinds. -/
  | exiting
  /-- Has the box. -/
  | holding
  | unparking
  | done
  /-- `unwrap` has panicked on the upgrade of the handle. -/
  | panicked
deriving DecidableEq, Repr

namespace Phase

/-- Holds a strong reference. -/
def holdsRef : Phase → Bool
  | entered | running | taking | storing | runningOnce | fallback | exiting => true
  | calling inside | dropping inside => inside
  | _ => false

/-- Holds an upgraded handle. -/
def holdsHandle : Phase → Bool
  | calling _ => true
  | _ => false

/-- Where a call is when it is done with `call_original`. -/
def ret (inside : Bool) : Phase :=
  if inside then exiting else done

/-- The most steps that a call has left on its way through `call_original`. -/
def stepsLeft : Phase → ℕ
  | entry => 4
  | original => 3
  | calling _ => 2
  | dropping _ => 1
  | _ => 0

/-- Has the box. -/
def holdsBox : Phase → Bool
  | holding => true
  | _ => false

/-- Has the closure of a `ScopedHookOnce`. -/
def holdsValue : Phase → Bool
  | storing | runningOnce => true
  | _ => false

/-- Runs the closure. -/
def isRunning : Phase → Bool
  | running | runningOnce => true
  | _ => false

end Phase

/-- A call of the hook `hook`. -/
structure Call where
  hook : ℕ
  phase : Phase
deriving DecidableEq, Repr

/-- Where the thread of the scope is. -/
inductive Guard where
  /-- In the body of the scope. -/
  | body
  /-- The body has returned or unwinds, the guard is dropped. -/
  | start
  /-- Before the next hook, with the first `k` left. -/
  | loop (k : ℕ)
  /-- Before `Arc::into_inner` of hook `k`, with the first `k` left. -/
  | downgraded (k : ℕ)
  /-- Has the box of hook `k`. -/
  | holding (k : ℕ)
  /-- Before `strong_count`. -/
  | checking (k : ℕ)
  | parked (k : ℕ)
  | finished
deriving DecidableEq, Repr

namespace Guard

/-- The vector has a strong reference to the hook `i`. -/
def owns (i : ℕ) : Guard → Bool
  | body | start => true
  | loop k | holding k | checking k | parked k => i < k
  | downgraded k => i ≤ k
  | finished => false

/-- The hook whose strong count is read next. -/
def checked : Guard → Option ℕ
  | checking k => some k
  | _ => none

/-- The guard is dropping the box of the hook. -/
def holdsBox (i : ℕ) : Guard → Bool
  | holding k => i = k
  | _ => false

/-- The guard is done with the hook `i`. -/
def settled (i : ℕ) : Guard → Bool
  | body | start => false
  | loop k => k ≤ i
  | downgraded k | holding k | checking k | parked k => k < i
  | finished => true

end Guard

/-- The hooks, the exit guard and the calls in progress. -/
structure State where
  /-- The hooks of the scope, in the order of the vector. -/
  entries : List Entry
  guard : Guard
  /-- The token of `thread::park`. -/
  token : Bool
  calls : List Call
deriving DecidableEq, Repr

/-- An empty scope, whose body runs. -/
def State.init : State where
  entries := []
  guard := .body
  token := false
  calls := []

/-! ## Steps -/

/-- What happens to the handle of a hook, apart from its calls. -/
inductive HandleOp where
  /-- A handle is cloned, or upgraded from a weak one. -/
  | clone
  /-- A handle is dropped that no call has. -/
  | release
  /-- `Hook::drop` removes the thunk from the list. -/
  | remove
deriving DecidableEq, Repr

/-- The hook afterwards, where calls have `held` of its handles. -/
def Entry.handle (e : Entry) (held : ℕ) : HandleOp → Option Entry
  | .clone => if 0 < e.handles then some { e with handles := e.handles + 1 } else none
  | .release => if held < e.handles then some { e with handles := e.handles - 1 } else none
  | .remove => if e.handles = 0 ∧ e.listed then some { e with listed := false } else none

/-- One step of the body, of the guard or of a call. -/
inductive Action where
  | register (strategy : Strategy)
  /-- The body returns or unwinds. -/
  | exit
  | call (hook : ℕ)
  /-- The next step of call `c`. -/
  | step (c : ℕ)
  /-- The next step of the guard. -/
  | guard
  /-- `thread::park` returns without a token. -/
  | spurious
  | handle (op : HandleOp) (hook : ℕ)
deriving DecidableEq, Repr

/-- The call that takes the step. -/
def Action.ofCall : Action → Option ℕ
  | step c => some c
  | _ => none

namespace State

/-- The state after a step of call `c` that leaves the hook `i` as `e`. -/
def update (s : State) (c i : ℕ) (phase : Phase) (e : Entry) : State :=
  { s with entries := s.entries.set i e, calls := s.calls.set c ⟨i, phase⟩ }

/-- The thunk of `ScopedStrategy::hook`, and `ScopedStrategy::call` of each strategy. -/
def stepCall (s : State) (c i : ℕ) (e : Entry) : Phase → Option State
  | .entry =>
    if e.strong = 0 then some (s.update c i .original e)
    else some (s.update c i .entered { e with strong := e.strong + 1 })
  | .original =>
    if e.handles = 0 then some (s.update c i .panicked e)
    else some (s.update c i (.calling false) { e with handles := e.handles + 1 })
  | .entered =>
    match e.strategy with
    | .hook => some (s.update c i .running e)
    | .hookMut => if e.locked then none else some (s.update c i .running { e with locked := true })
    | .hookOnce => if e.flag then some (s.update c i .taking e) else some (s.update c i .fallback e)
  | .running => some (s.update c i .exiting { e with locked := false })
  | .taking =>
    if e.value = .stored then some (s.update c i .storing { e with value := .moved })
    else some (s.update c i .fallback e)
  | .storing => some (s.update c i .runningOnce { e with flag := false })
  | .runningOnce => some (s.update c i .exiting { e with value := .destroyed })
  | .fallback =>
    -- the guard of the box is dropped all the same when `unwrap` panics
    if e.handles = 0 then some (s.update c i .exiting e)
    else some (s.update c i (.calling true) { e with handles := e.handles + 1 })
  | .calling inside =>
    if e.handles = 1 then some (s.update c i (.dropping inside) { e with handles := 0 })
    else some (s.update c i (.ret inside) { e with handles := e.handles - 1 })
  | .dropping inside => if e.listed then none else some (s.update c i (.ret inside) e)
  | .exiting =>
    if e.strong = 1 then some (s.update c i .holding { e with strong := 0 })
    else some (s.update c i .done { e with strong := e.strong - 1 })
  -- the box is a temporary of the condition, it is dropped before `unpark`
  | .holding => some (s.update c i .unparking e.dropBox)
  | .unparking => some ({ s with token := true }.update c i .done e)
  | .done | .panicked => none

/-- The state after a step of the guard that leaves the hook `k` as `e`. -/
def setGuard (s : State) (guard : Guard) (k : ℕ) (e : Entry) : State :=
  { s with guard, entries := s.entries.set k e }

/-- The exit guard of `scope_with_installer`. -/
def stepGuard (s : State) : Option State :=
  match s.guard with
  | .body => none
  | .start => some { s with guard := .loop s.entries.length }
  | .loop 0 => some { s with guard := .finished }
  | .loop (k + 1) => some { s with guard := .downgraded k }
  | .downgraded k =>
    (s.entries[k]?).map fun e =>
      if e.strong = 1 then s.setGuard (.holding k) k { e with strong := 0 }
      else s.setGuard (.checking k) k { e with strong := e.strong - 1 }
  | .holding k => (s.entries[k]?).map fun e => s.setGuard (.loop k) k e.dropBox
  | .checking k =>
    (s.entries[k]?).map fun e =>
      if e.strong = 0 then { s with guard := .loop k } else { s with guard := .parked k }
  | .parked k => if s.token then some { s with guard := .checking k, token := false } else none
  | .finished => none

/-- The number of calls of the hook `i` in a phase that satisfies `p`. -/
def count (s : State) (p : Phase → Bool) (i : ℕ) : ℕ :=
  s.calls.countP fun call => call.hook = i && p call.phase

/-- The state with the hook `i` as `e`. -/
def setEntry (s : State) (i : ℕ) (e : Entry) : State :=
  { s with entries := s.entries.set i e }

/-- `none` where the step is not enabled, as for a guard that waits. -/
def step (s : State) : Action → Option State
  | .register strategy =>
    if s.guard = .body then some { s with entries := s.entries ++ [.new strategy] } else none
  | .exit => if s.guard = .body then some { s with guard := .start } else none
  | .call hook =>
    (s.entries[hook]?).bind fun e =>
      if e.listed then some { s with calls := s.calls ++ [⟨hook, .entry⟩] } else none
  | .step c =>
    (s.calls[c]?).bind fun call =>
      (s.entries[call.hook]?).bind fun e => s.stepCall c call.hook e call.phase
  | .guard => s.stepGuard
  | .spurious =>
    match s.guard with
    | .parked k => some { s with guard := .checking k }
    | _ => none
  | .handle op hook =>
    (s.entries[hook]?).bind fun e =>
      (e.handle (s.count Phase.holdsHandle hook) op).map (s.setEntry hook)

/-! ## What is asked of a run -/

/-- Nothing is left of the hooks : no closure runs, every closure has been destroyed, and a
call that comes to a hook cannot enter it. -/
structure Clean (s : State) : Prop where
  idle : ∀ call ∈ s.calls, call.phase.isRunning = false
  destroyed : ∀ e ∈ s.entries, e.value = .destroyed
  closed : ∀ c i t, s.calls[c]? = some ⟨i, .entry⟩ → s.step (.step c) = some t →
    t.calls[c]? = some ⟨i, .original⟩

/-- The call `c` of the hook `i` was in `call_original`. -/
def CalledOriginal (s : State) (as : List Action) (c i : ℕ) : Prop :=
  Transition.Took State.step s as (.step c) fun u => u.calls[c]? = some ⟨i, .calling false⟩

/-- Where a call of the hook `i` is after the actions `as`, if it goes to `call_original` and
nowhere else. -/
inductive Forwards (s : State) (as : List Action) (c i : ℕ) : Phase → Prop where
  | entry : Forwards s as c i .entry
  | original : Forwards s as c i .original
  | calling : Forwards s as c i (.calling false)
  | dropping (hcalled : CalledOriginal s as c i) : Forwards s as c i (.dropping false)
  | done (hcalled : CalledOriginal s as c i) : Forwards s as c i .done

/-- The call `c` has not come to the box of its hook, if it has begun at all. -/
def IsLater (s : State) (c : ℕ) : Prop :=
  ∀ call, s.calls[c]? = some call → call.phase = .entry

/-- A later call goes to `call_original` in at most four steps. It can take the next one, unless
it waits for its own `Hook::drop`. -/
structure GoesOn (s : State) (as : List Action) (t : State) (c : ℕ) (call : Call) : Prop where
  forwards : Forwards s as c call.hook call.phase
  count_le : as.count (.step c) + call.phase.stepsLeft ≤ 4
  goesOn : call.phase = .done ∨ (t.step (.step c)).isSome ∨
    (call.phase = .dropping false ∧ (t.step (.handle .remove call.hook)).isSome)

/-- The guard does not read the strong count of a hook while a caller has its box. -/
def Waits (s : State) (a : Action) : Prop :=
  a = .guard → ∀ k ∈ s.guard.checked, s.count Phase.holdsBox k = 0

instance (s : State) (a : Action) : Decidable (s.Waits a) :=
  inferInstanceAs (Decidable (_ → _))

/-- The number of handles of the hook `i`. -/
def handles (s : State) (i : ℕ) : ℕ :=
  (s.entries[i]?).elim 0 Entry.handles

/-- A call that has come too late for the box of its hook finds a handle of it. -/
def FindsHandle (s : State) (a : Action) : Prop :=
  ∀ c ∈ a.ofCall, ∀ call ∈ s.calls[c]?, call.phase = .original → s.handles call.hook ≠ 0

instance (s : State) (a : Action) : Decidable (s.FindsHandle a) :=
  inferInstanceAs (Decidable (∀ c ∈ _, ∀ call ∈ _, _))

/-! ## The invariant -/

/-- The strong references to the hook `i`. -/
def refs (s : State) (i : ℕ) : ℕ :=
  s.count Phase.holdsRef i + if s.guard.owns i then 1 else 0

/-- The threads that have the box of the hook `i`. -/
def boxes (s : State) (i : ℕ) : ℕ :=
  s.count Phase.holdsBox i + if s.guard.holdsBox i then 1 else 0

/-- The calls that have the closure of the hook `i`. -/
def values (s : State) (i : ℕ) : ℕ :=
  s.count Phase.holdsValue i

/-- How a hook fits the numbers of those that hold a reference to it, its box or its closure. -/
structure Fits (e : Entry) (refs boxes values : ℕ) : Prop where
  strong : e.strong = refs
  /-- Once the last reference is gone somebody has the box, until it is dropped. -/
  boxed : (if e.boxed = true ∧ e.strong = 0 then 1 else 0) = boxes
  dropped : e.boxed = false → e.strong = 0 ∧ e.value ≠ .stored
  moved : (if e.value = .moved then 1 else 0) = values

/-- The box of the hook has been dropped. -/
def Gone (e : Entry) : Prop :=
  e.strong = 0 ∧ e.boxed = false

/-- The invariant : the references to each hook are counted, and the guard leaves nothing
behind. -/
structure Inv (s : State) : Prop where
  bound : ∀ call ∈ s.calls, call.hook < s.entries.length
  fits : ∀ i e, s.entries[i]? = some e → Fits e (s.refs i) (s.boxes i) (s.values i)
  settled : ∀ i e, s.entries[i]? = some e → s.guard.settled i = true → Gone e

section Fits

variable {e e' : Entry} {refs boxes values : ℕ}

/-- The scope holds the only reference to a new hook. -/
theorem fits_new (strategy : Strategy) : Fits (.new strategy) 1 0 0 where
  strong := rfl
  boxed := rfl
  dropped h := by cases h
  moved := rfl

/-- The flag and the mutex do not matter. -/
theorem Fits.congr (h : Fits e refs boxes values) (hstrong : e'.strong = e.strong)
    (hboxed : e'.boxed = e.boxed) (hvalue : e'.value = e.value) : Fits e' refs boxes values where
  strong := hstrong.trans h.strong
  boxed := by rw [hstrong, hboxed, h.boxed]
  dropped := by rw [hstrong, hboxed, hvalue]; exact h.dropped
  moved := by rw [hvalue, h.moved]

/-- While there is a reference the box is there. -/
theorem Fits.boxed_of_strong (h : Fits e refs boxes values) (hpos : e.strong ≠ 0) :
    e.boxed = true := by
  by_contra hboxed
  exact hpos (h.dropped (Bool.eq_false_iff.2 hboxed)).1

/-- Then nobody is dropping it. -/
theorem Fits.boxes_of_strong (h : Fits e refs boxes values) (hpos : e.strong ≠ 0) : boxes = 0 := by
  rw [← h.boxed, if_neg fun hzero => hpos hzero.2]

/-- Nobody has the box when the count is zero. -/
theorem Fits.gone (h : Fits e refs 0 values) (hzero : e.strong = 0) : Gone e := by
  refine ⟨hzero, Bool.eq_false_iff.2 fun hboxed => ?_⟩
  have := h.boxed
  rw [if_pos ⟨hboxed, hzero⟩] at this
  cases this

/-- A call takes one more reference. -/
theorem Fits.upgrade (h : Fits e refs boxes values) (hpos : e.strong ≠ 0) :
    Fits { e with strong := e.strong + 1 } (refs + 1) boxes values where
  strong := congrArg (· + 1) h.strong
  boxed := by
    rw [h.boxes_of_strong hpos, if_neg fun hzero => absurd hzero.2 (Nat.succ_ne_zero _)]
  dropped hboxed := absurd (h.dropped hboxed).1 hpos
  moved := h.moved

/-- A call takes the `FnOnce`. -/
theorem Fits.take (h : Fits e refs boxes values) (hstored : e.value = .stored) :
    Fits { e with value := .moved } refs boxes (values + 1) where
  strong := h.strong
  boxed := h.boxed
  dropped hboxed := absurd hstored (h.dropped hboxed).2
  moved := by rw [← h.moved, hstored]; rfl

/-- The closure of a `ScopedHookOnce` is destroyed by its run. -/
theorem Fits.destroy (h : Fits e refs boxes (values + 1)) :
    Fits { e with value := .destroyed } refs boxes values where
  strong := h.strong
  boxed := h.boxed
  dropped hboxed := ⟨(h.dropped hboxed).1, by simp⟩
  moved := by
    have := h.moved
    split_ifs at this
    simpa [eq_comm] using this

/-- `Arc::into_inner`, when there are other references. -/
theorem Fits.release (h : Fits e (refs + 1) boxes values) (hne : e.strong ≠ 1) :
    Fits { e with strong := e.strong - 1 } refs boxes values := by
  have hstrong := h.strong
  refine ⟨by simp only; omega, ?_, fun hboxed => absurd (h.dropped hboxed).1 (by omega), h.moved⟩
  rw [h.boxes_of_strong (by omega), if_neg fun hzero => absurd hzero.2 (by simp only; omega)]

/-- `Arc::into_inner` of the last reference. -/
theorem Fits.releaseLast (h : Fits e (refs + 1) boxes values) (hone : e.strong = 1) :
    Fits { e with strong := 0 } refs (boxes + 1) values := by
  have hstrong := h.strong
  have hboxed := h.boxed_of_strong (by omega)
  refine ⟨by simp only; omega, ?_, fun hfalse => ?_, h.moved⟩
  · rw [h.boxes_of_strong (by omega), if_pos ⟨hboxed, rfl⟩]
  · exact absurd (hboxed.symm.trans hfalse) (by simp)

/-- The box is dropped by the one that has it. -/
theorem Fits.dropBox (h : Fits e refs (boxes + 1) values) : Fits e.dropBox refs boxes values := by
  have hboxed := h.boxed
  split_ifs at hboxed with hheld
  refine ⟨h.strong, ?_, fun _ => ⟨hheld.2, e.value_dropBox_ne_stored⟩, ?_⟩
  · rw [if_neg (by simp [Entry.dropBox])]
    omega
  · simp only [e.value_dropBox_eq_moved_iff]
    exact h.moved

/-- Nothing is left then. -/
theorem Fits.gone_dropBox (h : Fits e refs (boxes + 1) values) : Gone e.dropBox := by
  have hboxed := h.boxed
  split_ifs at hboxed with hheld
  exact ⟨hheld.2, rfl⟩

/-- Nothing is left of the closure when nobody has a reference or the box. -/
theorem Fits.destroyed (h : Fits e refs boxes 0) (hgone : Gone e) : e.value = .destroyed := by
  have hstored := (h.dropped hgone.2).2
  have hmoved := h.moved
  cases hvalue : e.value with
  | stored => exact absurd hvalue hstored
  | moved => simp [hvalue] at hmoved
  | destroyed => rfl

end Fits

/-! ## Steps keep the invariant -/

section Inv

variable {s t : State} {c i j k : ℕ} {a b : Phase} {e e' : Entry} {g : Guard}

/-- What a step of call `c` does to the number of calls of its hook. -/
theorem count_update (hget : s.calls[c]? = some ⟨i, a⟩) (p : Phase → Bool) :
    (s.update c i b e).count p i + (if p a then 1 else 0) =
      s.count p i + (if p b then 1 else 0) := by
  have := Pool.countP_set_add (p := fun call : Call => call.hook = i && p call.phase)
    (b := ⟨i, b⟩) hget
  simpa [count, update] using this

/-- A step counts for its own hook only. -/
theorem count_update_of_ne (hget : s.calls[c]? = some ⟨i, a⟩) (hne : j ≠ i) (p : Phase → Bool) :
    (s.update c i b e).count p j = s.count p j :=
  Pool.countP_set_of_eq hget (by simp [Ne.symm hne])

/-- The references to a hook, when a call takes a step. -/
theorem refs_update (hget : s.calls[c]? = some ⟨i, a⟩) :
    (s.update c i b e).refs i + (if a.holdsRef then 1 else 0) =
      s.refs i + (if b.holdsRef then 1 else 0) := by
  have := count_update (b := b) (e := e) hget Phase.holdsRef
  change _ + (if s.guard.owns i then 1 else 0) + _ = _ + _ + _
  omega

/-- The same for those that have its box. -/
theorem boxes_update (hget : s.calls[c]? = some ⟨i, a⟩) :
    (s.update c i b e).boxes i + (if a.holdsBox then 1 else 0) =
      s.boxes i + (if b.holdsBox then 1 else 0) := by
  have := count_update (b := b) (e := e) hget Phase.holdsBox
  change _ + (if s.guard.holdsBox i then 1 else 0) + _ = _ + _ + _
  omega

/-- The other hooks stay. -/
theorem getElem?_update {x : Entry}
    (hx : (s.update c i b e').entries[j]? = some x) :
    (i = j ∧ x = e') ∨ (i ≠ j ∧ s.entries[j]? = some x) :=
  Pool.mem_of_getElem?_set hx

/-- A step of a call keeps the invariant if its hook fits the new numbers. -/
theorem Inv.update (h : Inv s) (hget : s.calls[c]? = some ⟨i, a⟩)
    (hentry : s.entries[i]? = some e) (hgone : Gone e → Gone e')
    (hfits : ∀ refs boxes values,
      refs + (if a.holdsRef then 1 else 0) = s.refs i + (if b.holdsRef then 1 else 0) →
      boxes + (if a.holdsBox then 1 else 0) = s.boxes i + (if b.holdsBox then 1 else 0) →
      values + (if a.holdsValue then 1 else 0) = s.values i + (if b.holdsValue then 1 else 0) →
      Fits e' refs boxes values) :
    Inv (s.update c i b e') := by
  refine ⟨fun call hcall => ?_, fun j x hx => ?_, fun j x hx hsettled => ?_⟩
  · simp only [State.update, List.length_set]
    rcases List.mem_or_eq_of_mem_set hcall with hcall | rfl
    · exact h.bound call hcall
    · exact (List.getElem?_eq_some_iff.1 hentry).1
  · rcases getElem?_update hx with ⟨rfl, rfl⟩ | ⟨hne, hx⟩
    · exact hfits _ _ _ (refs_update hget) (boxes_update hget) (count_update hget _)
    · have hcount := fun p => count_update_of_ne (b := b) (e := e') hget (Ne.symm hne) p
      simp only [State.refs, State.boxes, State.values, hcount]
      exact h.fits j x hx
  · rcases getElem?_update hx with ⟨rfl, rfl⟩ | ⟨-, hx⟩
    · exact hgone (h.settled _ e hentry hsettled)
    · exact h.settled j x hx hsettled

/-- A step of a call that changes neither the counts nor what it holds. -/
theorem Inv.move (h : Inv s) (hget : s.calls[c]? = some ⟨i, a⟩) (hentry : s.entries[i]? = some e)
    (hphase : b.holdsRef = a.holdsRef ∧ b.holdsBox = a.holdsBox ∧ b.holdsValue = a.holdsValue)
    (hsame : e'.strong = e.strong ∧ e'.boxed = e.boxed ∧ e'.value = e.value) :
    Inv (s.update c i b e') := by
  obtain ⟨hr, hb, hv⟩ := hphase
  obtain ⟨hstrong, hboxed, hvalue⟩ := hsame
  refine h.update hget hentry (fun hgone => ⟨hstrong.trans hgone.1, hboxed.trans hgone.2⟩)
    fun refs boxes values hrefs hboxes hvalues => ?_
  rw [hr] at hrefs
  rw [hb] at hboxes
  rw [hv] at hvalues
  rw [Nat.add_right_cancel hrefs, Nat.add_right_cancel hboxes, Nat.add_right_cancel hvalues]
  exact (h.fits i e hentry).congr hstrong hboxed hvalue

/-- A step of a call keeps the invariant. -/
theorem Inv.stepCall (h : Inv s) (hget : s.calls[c]? = some ⟨i, a⟩)
    (hentry : s.entries[i]? = some e) (hstep : s.stepCall c i e a = some t) : Inv t := by
  have hfits := h.fits i e hentry
  cases a with
  | entry =>
    simp only [State.stepCall] at hstep
    split_ifs at hstep with hzero <;> obtain rfl := Option.some.inj hstep
    · exact h.move hget hentry ⟨rfl, rfl, rfl⟩ ⟨rfl, rfl, rfl⟩
    · refine h.update hget hentry (fun hgone => absurd hgone.1 hzero) ?_
      rintro refs boxes values rfl rfl rfl
      exact hfits.upgrade hzero
  | original | fallback =>
    simp only [State.stepCall] at hstep
    split_ifs at hstep <;> obtain rfl := Option.some.inj hstep <;>
      exact h.move hget hentry ⟨rfl, rfl, rfl⟩ ⟨rfl, rfl, rfl⟩
  | calling inside =>
    simp only [State.stepCall] at hstep
    split_ifs at hstep <;> obtain rfl := Option.some.inj hstep <;> cases inside <;>
      exact h.move hget hentry ⟨rfl, rfl, rfl⟩ ⟨rfl, rfl, rfl⟩
  | dropping inside =>
    simp only [State.stepCall] at hstep
    split_ifs at hstep
    obtain rfl := Option.some.inj hstep
    cases inside <;> exact h.move hget hentry ⟨rfl, rfl, rfl⟩ ⟨rfl, rfl, rfl⟩
  | entered =>
    simp only [State.stepCall] at hstep
    split at hstep
    · obtain rfl := Option.some.inj hstep
      exact h.move hget hentry ⟨rfl, rfl, rfl⟩ ⟨rfl, rfl, rfl⟩
    all_goals
      split_ifs at hstep <;> obtain rfl := Option.some.inj hstep <;>
        exact h.move hget hentry ⟨rfl, rfl, rfl⟩ ⟨rfl, rfl, rfl⟩
  | running | storing =>
    obtain rfl := Option.some.inj hstep
    exact h.move hget hentry ⟨rfl, rfl, rfl⟩ ⟨rfl, rfl, rfl⟩
  | taking =>
    simp only [State.stepCall] at hstep
    split_ifs at hstep with hstored <;> obtain rfl := Option.some.inj hstep
    · refine h.update hget hentry id ?_
      rintro refs boxes values hrefs rfl rfl
      obtain rfl := Nat.add_right_cancel hrefs
      exact hfits.take hstored
    · exact h.move hget hentry ⟨rfl, rfl, rfl⟩ ⟨rfl, rfl, rfl⟩
  | runningOnce =>
    obtain rfl := Option.some.inj hstep
    refine h.update hget hentry id ?_
    rintro refs boxes values hrefs rfl hvalues
    obtain rfl := Nat.add_right_cancel hrefs
    exact Fits.destroy (hvalues ▸ hfits)
  | exiting =>
    simp only [State.stepCall] at hstep
    split_ifs at hstep with hone <;> obtain rfl := Option.some.inj hstep
    · refine h.update hget hentry (fun hgone => absurd hgone.1 (by omega)) ?_
      rintro refs boxes values hrefs rfl rfl
      exact Fits.releaseLast (hrefs ▸ hfits) hone
    · refine h.update hget hentry (fun hgone => ⟨by simp [hgone.1], hgone.2⟩) ?_
      rintro refs boxes values hrefs rfl rfl
      exact Fits.release (hrefs ▸ hfits) hone
  | holding =>
    obtain rfl := Option.some.inj hstep
    refine h.update hget hentry (fun hgone => ⟨hgone.1, rfl⟩) ?_
    rintro refs boxes values rfl hboxes rfl
    exact Fits.dropBox (hboxes ▸ hfits)
  | unparking =>
    obtain rfl := Option.some.inj hstep
    have hinv : Inv { s with token := true } := ⟨h.bound, h.fits, h.settled⟩
    exact hinv.move hget hentry ⟨rfl, rfl, rfl⟩ ⟨rfl, rfl, rfl⟩
  | done | panicked => cases hstep

/-- What happens to the handle does not matter to the box. -/
theorem Inv.handle {op : HandleOp} {held : ℕ} (h : Inv s) (hentry : s.entries[i]? = some e)
    (hop : e.handle held op = some e') : Inv (s.setEntry i e') := by
  have hsame : e'.strong = e.strong ∧ e'.boxed = e.boxed ∧ e'.value = e.value := by
    cases op <;> simp only [Entry.handle] at hop <;> split_ifs at hop <;>
      obtain rfl := Option.some.inj hop <;> exact ⟨rfl, rfl, rfl⟩
  obtain ⟨hstrong, hboxed, hvalue⟩ := hsame
  refine ⟨fun call hcall => ?_, fun j x hx => ?_, fun j x hx hsettled => ?_⟩
  · simpa [State.setEntry] using h.bound call hcall
  · rcases Pool.mem_of_getElem?_set hx with ⟨rfl, rfl⟩ | ⟨-, hx⟩
    · exact (h.fits i e hentry).congr hstrong hboxed hvalue
    · exact h.fits j x hx
  · rcases Pool.mem_of_getElem?_set hx with ⟨rfl, rfl⟩ | ⟨-, hx⟩
    · obtain ⟨hzero, hfalse⟩ := h.settled i e hentry hsettled
      exact ⟨hstrong.trans hzero, hboxed.trans hfalse⟩
    · exact h.settled j x hx hsettled

/-! ### Steps of the guard -/

/-- A step of the guard keeps the invariant if it does so at the hook `k` it is at, and the
rest of the hooks are to the new guard what they were to the old one. -/
theorem Inv.setGuard (h : Inv s)
    (howns : ∀ i, i ≠ k → g.owns i = s.guard.owns i)
    (hholds : ∀ i, i ≠ k → g.holdsBox i = s.guard.holdsBox i)
    (hsettled : ∀ i, i ≠ k → g.settled i = true → s.guard.settled i = true)
    (hfits : Fits e' (s.count Phase.holdsRef k + if g.owns k then 1 else 0)
      (s.count Phase.holdsBox k + if g.holdsBox k then 1 else 0) (s.values k))
    (hgone : g.settled k = true → Gone e') : Inv (s.setGuard g k e') := by
  refine ⟨fun call hcall => ?_, fun j x hx => ?_, fun j x hx hs => ?_⟩
  · simpa [State.setGuard] using h.bound call hcall
  · rcases Pool.mem_of_getElem?_set hx with ⟨rfl, rfl⟩ | ⟨hne, hx⟩
    · exact hfits
    · have := h.fits j x hx
      simp only [State.refs, State.boxes] at this ⊢
      rwa [← howns j (Ne.symm hne), ← hholds j (Ne.symm hne)] at this
  · rcases Pool.mem_of_getElem?_set hx with ⟨rfl, rfl⟩ | ⟨hne, hx⟩
    · exact hgone hs
    · exact h.settled j x hx (hsettled j (Ne.symm hne) hs)

/-- A step of the guard that touches no hook. -/
theorem Inv.moveGuard (h : Inv s) (token : Bool)
    (hsame : ∀ i, i < s.entries.length → g.owns i = s.guard.owns i ∧
      g.holdsBox i = s.guard.holdsBox i ∧ (g.settled i = true → s.guard.settled i = true)) :
    Inv { s with guard := g, token } := by
  refine ⟨h.bound, fun j x hx => ?_, fun j x hx hs => ?_⟩
  · obtain ⟨howns, hholds, -⟩ := hsame j (List.getElem?_eq_some_iff.1 hx).1
    have := h.fits j x hx
    simp only [State.refs, State.boxes] at this ⊢
    rwa [← howns, ← hholds] at this
  · exact h.settled j x hx ((hsame j (List.getElem?_eq_some_iff.1 hx).1).2.2 hs)

/-- The guard drops its reference, and has the box if it was the last. -/
theorem Inv.stepDowngraded (h : Inv s) (hguard : s.guard = .downgraded k)
    (hstep : s.stepGuard = some t) : Inv t := by
  simp only [stepGuard, hguard] at hstep
  obtain ⟨e, hentry, rfl⟩ := Option.map_eq_some_iff.1 hstep
  have hfits := h.fits k e hentry
  simp only [State.refs, State.boxes, hguard, Guard.owns, Guard.holdsBox, le_refl, decide_true,
    if_true, Bool.false_eq_true, if_false, Nat.add_zero] at hfits
  have howns : ∀ i, i ≠ k → (decide (i < k) : Bool) = s.guard.owns i := fun i hne => by
    simp only [hguard, Guard.owns]
    exact decide_eq_decide.2 ⟨fun hlt => hlt.le, fun hle => lt_of_le_of_ne hle hne⟩
  split_ifs with hone
  · refine h.setGuard howns (fun i hne => by simp [hguard, Guard.holdsBox, hne])
      (fun i _ hs => by simpa [hguard, Guard.settled] using hs) ?_ (by simp [Guard.settled])
    simp only [Guard.owns, Guard.holdsBox, lt_irrefl, decide_false, decide_true, if_true,
      Bool.false_eq_true, if_false, Nat.add_zero]
    exact hfits.releaseLast hone
  · refine h.setGuard howns (fun i _ => by simp [hguard, Guard.holdsBox])
      (fun i _ hs => by simpa [hguard, Guard.settled] using hs) ?_ (by simp [Guard.settled])
    simp only [Guard.owns, Guard.holdsBox, lt_irrefl, decide_false, Bool.false_eq_true, if_false,
      Nat.add_zero]
    exact hfits.release hone

/-- The guard drops the box. -/
theorem Inv.stepHolding (h : Inv s) (hguard : s.guard = .holding k)
    (hstep : s.stepGuard = some t) : Inv t := by
  simp only [stepGuard, hguard] at hstep
  obtain ⟨e, hentry, rfl⟩ := Option.map_eq_some_iff.1 hstep
  have hfits := h.fits k e hentry
  simp only [State.refs, State.boxes, hguard, Guard.owns, Guard.holdsBox, lt_irrefl, decide_false,
    decide_true, if_true, Bool.false_eq_true, if_false, Nat.add_zero] at hfits
  refine h.setGuard (fun i _ => by simp [hguard, Guard.owns])
    (fun i hne => by simp [hguard, Guard.holdsBox, hne])
    (fun i hne hs => by simpa [hguard, Guard.settled, lt_iff_le_and_ne, Ne.symm hne] using hs)
    ?_ ?_
  · simp only [Guard.owns, Guard.holdsBox, lt_irrefl, decide_false, Bool.false_eq_true, if_false,
      Nat.add_zero]
    exact hfits.dropBox
  · exact fun _ => hfits.gone_dropBox

/-- The guard is done with a hook whose count is zero and whose box no caller has. -/
theorem Inv.stepChecking (h : Inv s) (hguard : s.guard = .checking k)
    (hwaits : s.count Phase.holdsBox k = 0) (hstep : s.stepGuard = some t) : Inv t := by
  simp only [stepGuard, hguard] at hstep
  obtain ⟨e, hentry, rfl⟩ := Option.map_eq_some_iff.1 hstep
  have hfits := h.fits k e hentry
  simp only [State.boxes, hguard, hwaits, Guard.holdsBox, Bool.false_eq_true, if_false] at hfits
  split_ifs with hzero
  · have hset : s.setGuard (.loop k) k e = { s with guard := .loop k } := by
      obtain ⟨hk, rfl⟩ := List.getElem?_eq_some_iff.1 hentry
      rw [State.setGuard, List.set_getElem_self]
    rw [← hset]
    refine h.setGuard (fun i _ => by simp [hguard, Guard.owns])
      (fun i _ => by simp [hguard, Guard.holdsBox])
      (fun i hne hs => by simpa [hguard, Guard.settled, lt_iff_le_and_ne, Ne.symm hne] using hs)
      ?_ fun _ => hfits.gone hzero
    have := h.fits k e hentry
    simpa [State.refs, State.boxes, hguard, Guard.owns, Guard.holdsBox] using this
  · exact h.moveGuard s.token fun i _ => by simp [hguard, Guard.owns, Guard.holdsBox, Guard.settled]

/-- A step of the guard, which waits for the count to be 0. -/
theorem Inv.stepGuard (h : Inv s) (hwaits : Waits s .guard) (hstep : s.stepGuard = some t) :
    Inv t := by
  cases hguard : s.guard with
  | body | finished => simp [State.stepGuard, hguard] at hstep
  | start =>
    simp only [State.stepGuard, hguard] at hstep
    obtain rfl := Option.some.inj hstep
    exact h.moveGuard s.token fun i hi => by
      simp [hguard, Guard.owns, Guard.holdsBox, Guard.settled, hi]
  | loop k =>
    cases k with
    | zero =>
      simp only [State.stepGuard, hguard] at hstep
      obtain rfl := Option.some.inj hstep
      exact h.moveGuard s.token fun i _ => by
        simp [hguard, Guard.owns, Guard.holdsBox, Guard.settled]
    | succ k =>
      simp only [State.stepGuard, hguard] at hstep
      obtain rfl := Option.some.inj hstep
      refine h.moveGuard s.token fun i _ => ?_
      rw [hguard]
      exact ⟨decide_eq_decide.2 Nat.lt_succ_iff.symm, rfl,
        fun hs => decide_eq_true (Nat.succ_le_of_lt (of_decide_eq_true hs))⟩
  | downgraded k => exact h.stepDowngraded hguard hstep
  | holding k => exact h.stepHolding hguard hstep
  | checking k =>
    exact h.stepChecking hguard (hwaits rfl k (by simp [hguard, Guard.checked])) hstep
  | parked k =>
    simp only [State.stepGuard, hguard] at hstep
    split_ifs at hstep
    obtain rfl := Option.some.inj hstep
    exact h.moveGuard false fun i _ => by simp [hguard, Guard.owns, Guard.holdsBox, Guard.settled]

/-- It holds in an empty scope. -/
theorem inv_init : Inv init where
  bound := by simp [init]
  fits i e h := by simp [init] at h
  settled i e h := by simp [init] at h

/-- A hook is registered while the body runs. -/
theorem Inv.register (h : Inv s) (hguard : s.guard = .body) (strategy : Strategy) :
    Inv { s with entries := s.entries ++ [.new strategy] } := by
  have hnew : ∀ p : Phase → Bool, s.count p s.entries.length = 0 := fun p =>
    List.countP_eq_zero.2 fun call hcall => by simp [(h.bound call hcall).ne]
  have hcases : ∀ i e, (s.entries ++ [.new strategy])[i]? = some e →
      s.entries[i]? = some e ∨ (i = s.entries.length ∧ e = .new strategy) := fun i e hi => by
    rcases Nat.lt_or_ge i s.entries.length with hlt | hge
    · exact Or.inl (by rwa [List.getElem?_append_left hlt] at hi)
    · rw [List.getElem?_append_right hge, List.getElem?_singleton] at hi
      split_ifs at hi with heq
      exact Or.inr ⟨by omega, (Option.some.inj hi).symm⟩
  refine ⟨fun call hcall => ?_, fun i e hi => ?_, fun i e hi hs => ?_⟩
  · exact (h.bound call hcall).trans (by simp)
  · rcases hcases i e hi with hi | ⟨rfl, rfl⟩
    · exact h.fits i e hi
    · change Fits _ (s.count _ _ + if s.guard.owns _ then 1 else 0)
        (s.count _ _ + if s.guard.holdsBox _ then 1 else 0) (s.count _ _)
      rw [hnew, hnew, hnew, hguard]
      exact fits_new strategy
  · rw [hguard] at hs
    cases hs

/-- A call finds the hook. -/
theorem Inv.call {hook : ℕ} (h : Inv s) (hlt : hook < s.entries.length) :
    Inv { s with calls := s.calls ++ [⟨hook, .entry⟩] } := by
  have hcount : ∀ (p : Phase → Bool) (i : ℕ), p .entry = false →
      (s.calls ++ [Call.mk hook .entry]).countP (fun call => call.hook = i && p call.phase) =
        s.count p i := fun p i hp => by simp [State.count, hp]
  refine ⟨fun call hcall => ?_, fun i e hi => ?_, h.settled⟩
  · rcases List.mem_append.1 hcall with hcall | hcall
    · exact h.bound call hcall
    · rw [List.mem_singleton.1 hcall]
      exact hlt
  · have := h.fits i e hi
    simp only [State.refs, State.boxes, State.values] at this ⊢
    rw [← hcount Phase.holdsRef i rfl, ← hcount Phase.holdsBox i rfl,
      ← hcount Phase.holdsValue i rfl] at this
    exact this

/-- Every step that waits keeps the invariant. -/
theorem Inv.step {a : Action} (h : Inv s) (hwaits : Waits s a) (hstep : s.step a = some t) :
    Inv t := by
  cases a with
  | register strategy =>
    simp only [State.step] at hstep
    split_ifs at hstep with hguard
    obtain rfl := Option.some.inj hstep
    exact h.register hguard strategy
  | exit =>
    simp only [State.step] at hstep
    split_ifs at hstep with hguard
    obtain rfl := Option.some.inj hstep
    exact h.moveGuard s.token fun i _ => by simp [hguard, Guard.owns, Guard.holdsBox, Guard.settled]
  | call hook =>
    obtain ⟨e, hentry, hstep⟩ := Option.bind_eq_some_iff.1 hstep
    split_ifs at hstep
    obtain rfl := Option.some.inj hstep
    exact h.call (List.getElem?_eq_some_iff.1 hentry).1
  | step c =>
    obtain ⟨⟨i, phase⟩, hget, hstep⟩ := Option.bind_eq_some_iff.1 hstep
    obtain ⟨e, hentry, hstep⟩ := Option.bind_eq_some_iff.1 hstep
    exact h.stepCall hget hentry hstep
  | guard => exact h.stepGuard hwaits hstep
  | spurious =>
    simp only [State.step] at hstep
    split at hstep
    · obtain rfl := Option.some.inj hstep
      exact h.moveGuard s.token fun i _ => by
        simp [*, Guard.owns, Guard.holdsBox, Guard.settled]
    · cases hstep
  | handle op hook =>
    obtain ⟨e, hentry, hstep⟩ := Option.bind_eq_some_iff.1 hstep
    obtain ⟨e', hop, rfl⟩ := Option.map_eq_some_iff.1 hstep
    exact h.handle hentry hop

/-- Nothing is left of the hooks when the guard has finished. -/
theorem Inv.clean (h : Inv s) (hguard : s.guard = .finished) : Clean s := by
  have hgone : ∀ i e, s.entries[i]? = some e → Gone e := fun i e hi =>
    h.settled i e hi (by simp [hguard, Guard.settled])
  have hrefs : ∀ i e, s.entries[i]? = some e → s.count Phase.holdsRef i = 0 := fun i e hi => by
    have hstrong := (h.fits i e hi).strong
    rw [(hgone i e hi).1, State.refs] at hstrong
    omega
  have hnone : ∀ call ∈ s.calls, call.phase.holdsRef = false := fun call hcall => by
    have hentry := List.getElem?_eq_getElem (h.bound call hcall)
    have hzero := List.countP_eq_zero.1 (hrefs _ _ hentry) call hcall
    simpa using hzero
  have hphases : ∀ phase : Phase, phase.holdsRef = false →
      phase.isRunning = false ∧ phase.holdsValue = false := by
    intro phase hphase
    cases phase <;> first | exact ⟨rfl, rfl⟩ | cases hphase
  refine ⟨fun call hcall => (hphases _ (hnone call hcall)).1, fun e he => ?_,
    fun c i t hget hstep => ?_⟩
  · obtain ⟨i, hi⟩ := List.mem_iff_getElem?.1 he
    have hvalues : s.values i = 0 := List.countP_eq_zero.2 fun call hcall => by
      simp [(hphases _ (hnone call hcall)).2]
    have hfits := h.fits i e hi
    rw [hvalues] at hfits
    exact hfits.destroyed (hgone i e hi)
  · obtain ⟨call, hcall, hstep⟩ := Option.bind_eq_some_iff.1 hstep
    obtain rfl := Option.some.inj (hget.symm.trans hcall)
    obtain ⟨e, hentry, hstep⟩ := Option.bind_eq_some_iff.1 hstep
    change (if e.strong = 0 then _ else _) = _ at hstep
    rw [if_pos (hgone i e hentry).1] at hstep
    obtain rfl := Option.some.inj hstep
    exact Pool.getElem?_set_of_getElem? hget

end Inv

/-! ## After the end of the scope -/

section Later

variable {s t u : State} {as : List Action} {a : Action} {c i : ℕ} {e : Entry} {call : Call}

/-- What a step of a call changes. A dropped handle does not come back. -/
theorem stepCall_eq {phase : Phase} (hstep : s.stepCall c i e phase = some t) :
    t.guard = s.guard ∧ (∃ phase', t.calls = s.calls.set c ⟨i, phase'⟩) ∧
      ∃ e', t.entries = s.entries.set i e' ∧ (e.handles = 0 → e'.handles = 0) := by
  cases phase <;> simp only [stepCall] at hstep
  case entered =>
    split at hstep
    · obtain rfl := Option.some.inj hstep
      exact ⟨rfl, ⟨_, rfl⟩, _, rfl, id⟩
    all_goals
      split_ifs at hstep
      all_goals
        obtain rfl := Option.some.inj hstep
        exact ⟨rfl, ⟨_, rfl⟩, _, rfl, id⟩
  case done | panicked => cases hstep
  case original | fallback =>
    split_ifs at hstep with hzero <;> obtain rfl := Option.some.inj hstep
    · exact ⟨rfl, ⟨_, rfl⟩, _, rfl, id⟩
    · exact ⟨rfl, ⟨_, rfl⟩, _, rfl, fun h => absurd h hzero⟩
  case calling =>
    split_ifs at hstep
    all_goals
      obtain rfl := Option.some.inj hstep
      exact ⟨rfl, ⟨_, rfl⟩, _, rfl, fun h => by simp [h]⟩
  case entry | taking | exiting | dropping =>
    split_ifs at hstep
    all_goals
      obtain rfl := Option.some.inj hstep
      exact ⟨rfl, ⟨_, rfl⟩, _, rfl, id⟩
  all_goals
    obtain rfl := Option.some.inj hstep
    exact ⟨rfl, ⟨_, rfl⟩, _, rfl, id⟩

/-- The steps that are left when the guard has finished. -/
inductive Late (s t : State) : Action → Prop where
  | call {hook : ℕ} (hcalls : t.calls = s.calls ++ [⟨hook, .entry⟩])
      (hentries : t.entries = s.entries) : Late s t (.call hook)
  | step {c i : ℕ} {phase : Phase} {e : Entry} (hget : s.calls[c]? = some ⟨i, phase⟩)
      (hentry : s.entries[i]? = some e) (hstep : s.stepCall c i e phase = some t) :
      Late s t (.step c)
  | handle {op : HandleOp} {i : ℕ} {e e' : Entry} (hentry : s.entries[i]? = some e)
      (hzero : e.handles = 0 → e'.handles = 0) (hcalls : t.calls = s.calls)
      (hentries : t.entries = s.entries.set i e') : Late s t (.handle op i)

/-- After the guard has finished nothing is registered. -/
theorem late_of_step (hguard : s.guard = .finished) (hstep : s.step a = some t) :
    Late s t a ∧ t.guard = .finished := by
  cases a with
  | register _ | exit | guard | spurious => simp [State.step, State.stepGuard, hguard] at hstep
  | call hook =>
    obtain ⟨e, hentry, hstep⟩ := Option.bind_eq_some_iff.1 hstep
    split_ifs at hstep
    obtain rfl := Option.some.inj hstep
    exact ⟨.call rfl rfl, hguard⟩
  | step c =>
    obtain ⟨⟨i, phase⟩, hget, hstep⟩ := Option.bind_eq_some_iff.1 hstep
    obtain ⟨e, hentry, hstep⟩ := Option.bind_eq_some_iff.1 hstep
    exact ⟨.step hget hentry hstep, (stepCall_eq hstep).1.trans hguard⟩
  | handle op hook =>
    obtain ⟨e, hentry, hstep⟩ := Option.bind_eq_some_iff.1 hstep
    obtain ⟨e', hop, rfl⟩ := Option.map_eq_some_iff.1 hstep
    refine ⟨.handle hentry (fun hzero => ?_) rfl rfl, hguard⟩
    cases op <;> rw [Entry.handle] at hop <;> split_ifs at hop <;> obtain rfl := Option.some.inj hop
    · omega
    · omega
    · exact hzero

/-- A handle that is gone stays gone. -/
theorem handles_of_late (h : Late s t a) (hzero : s.handles i = 0) (hlt : i < s.entries.length) :
    t.handles i = 0 := by
  have hset : ∀ j e e', s.entries[j]? = some e → (e.handles = 0 → e'.handles = 0) →
      t.entries = s.entries.set j e' → t.handles i = 0 := by
    intro j e e' hentry he' hentries
    rw [State.handles, hentries]
    by_cases hj : j = i
    · subst hj
      rw [State.handles, hentry] at hzero
      rw [Pool.getElem?_set_of_getElem? hentry]
      exact he' hzero
    · rwa [List.getElem?_set_ne hj]
  cases h with
  | call _ hentries => rwa [State.handles, hentries]
  | step _ hentry hstep =>
    obtain ⟨-, -, e', hentries, he'⟩ := stepCall_eq hstep
    exact hset _ _ e' hentry he' hentries
  | handle hentry he' _ hentries => exact hset _ _ _ hentry he' hentries

/-- What is known of the later calls, `as` after the guard has finished in the state `r`. -/
structure LaterInv (r : State) (as : List Action) (s : State) : Prop where
  inv : Inv s
  guard : s.guard = .finished
  fresh : ∀ c, s.calls[c]? = none → as.count (.step c) = 0
  later : ∀ c call, r.IsLater c → s.calls[c]? = some call →
    Forwards r as c call.hook call.phase ∧ as.count (.step c) + call.phase.stepsLeft ≤ 4 ∧
      (call.phase = .dropping false → s.handles call.hook = 0)

/-- What was called in a run was called in a longer one. -/
theorem Forwards.append {phase : Phase} (h : Forwards s as c i phase) (bs : List Action) :
    Forwards s (as ++ bs) c i phase := by
  cases h with
  | entry => exact .entry
  | original => exact .original
  | calling => exact .calling
  | dropping hcalled => exact .dropping (hcalled.append bs)
  | done hcalled => exact .done (hcalled.append bs)

/-- No reference is left for a later call to upgrade. -/
theorem LaterInv.closed (h : LaterInv s as t) (hentry : t.entries[i]? = some e) : e.strong = 0 :=
  (h.inv.settled i e hentry (by simp [h.guard, Guard.settled])).1

/-- A step of a later call takes it closer to the end of `call_original`. -/
theorem Forwards.step {phase : Phase} (h : Forwards s as c i phase) (hinv : LaterInv s as t)
    (hrun : Transition.run State.step s as = some t) (hget : t.calls[c]? = some ⟨i, phase⟩)
    (hentry : t.entries[i]? = some e) (hfinds : t.FindsHandle (.step c))
    (hstep : t.stepCall c i e phase = some u) :
    ∃ phase', u.calls[c]? = some ⟨i, phase'⟩ ∧ Forwards s (as ++ [.step c]) c i phase' ∧
      phase'.stepsLeft + 1 ≤ phase.stepsLeft ∧ (phase' = .dropping false → u.handles i = 0) := by
  have hset : ∀ {phase' e'}, (t.update c i phase' e').calls[c]? = some ⟨i, phase'⟩ :=
    Pool.getElem?_set_of_getElem? hget
  cases h with
  | entry =>
    rw [stepCall, if_pos (hinv.closed hentry)] at hstep
    obtain rfl := Option.some.inj hstep
    exact ⟨_, hset, .original, le_rfl, nofun⟩
  | original =>
    have hhandles : e.handles ≠ 0 := by
      have := hfinds c rfl _ hget rfl
      rwa [State.handles, hentry] at this
    rw [stepCall, if_neg hhandles] at hstep
    obtain rfl := Option.some.inj hstep
    exact ⟨_, hset, .calling, le_rfl, nofun⟩
  | calling =>
    have hcalled : CalledOriginal s (as ++ [.step c]) c i := Transition.took_snoc hrun hget
    rw [stepCall] at hstep
    split_ifs at hstep <;> obtain rfl := Option.some.inj hstep
    · refine ⟨_, hset, .dropping hcalled, le_rfl, fun _ => ?_⟩
      rw [State.handles, State.update, Pool.getElem?_set_of_getElem? hentry]
      rfl
    · exact ⟨_, hset, .done hcalled, Nat.le_succ 1, nofun⟩
  | dropping hcalled =>
    rw [stepCall] at hstep
    split_ifs at hstep
    obtain rfl := Option.some.inj hstep
    exact ⟨_, hset, .done (hcalled.append _), le_rfl, nofun⟩
  | done => cases hstep

/-- The state when the guard finishes. -/
theorem laterInv_nil (h : Inv s) (hguard : s.guard = .finished) : LaterInv s [] s where
  inv := h
  guard := hguard
  fresh _ _ := rfl
  later c call hlater hget := by
    have hphase := hlater call hget
    rw [hphase]
    exact ⟨.entry, le_rfl, nofun⟩

/-- A later step keeps this, if it finds its handle. -/
theorem LaterInv.step (h : LaterInv s as t) (hrun : Transition.run State.step s as = some t)
    (hfinds : t.FindsHandle a) (hstep : t.step a = some u) : LaterInv s (as ++ [a]) u := by
  obtain ⟨hlate, hguard⟩ := late_of_step h.guard hstep
  have hwaits : Waits t a := fun _ k hk => by simp [h.guard, Guard.checked] at hk
  have hother : ∀ c, a ≠ .step c → (as ++ [a]).count (.step c) = as.count (.step c) := by
    intro c hne
    rw [List.count_append, List.count_singleton, if_neg (by simpa using hne), Nat.add_zero]
  -- a call that does not move is where it was, with the handle as it was
  have hkeep : ∀ c call, a ≠ .step c → s.IsLater c → t.calls[c]? = some call →
      Forwards s (as ++ [a]) c call.hook call.phase ∧
        (as ++ [a]).count (.step c) + call.phase.stepsLeft ≤ 4 ∧
          (call.phase = .dropping false → u.handles call.hook = 0) := by
    intro c call hne hlater hget
    obtain ⟨hforwards, hcount, hdropping⟩ := h.later c call hlater hget
    have hlt := h.inv.bound call (List.mem_of_getElem? hget)
    rw [hother c hne]
    exact ⟨hforwards.append _, hcount, fun hphase => handles_of_late hlate (hdropping hphase) hlt⟩
  refine ⟨h.inv.step hwaits hstep, hguard, fun c hnone => ?_, fun c call hlater hget => ?_⟩
  · cases hlate with
    | call hcalls =>
      rw [hother c nofun]
      refine h.fresh c (List.getElem?_eq_none ?_)
      have := List.getElem?_eq_none_iff.1 hnone
      rw [hcalls, List.length_append] at this
      omega
    | @step c' i phase e hget hentry hstep' =>
      obtain ⟨-, ⟨phase', hcalls⟩, -⟩ := stepCall_eq hstep'
      have hlen := List.getElem?_eq_none_iff.1 hnone
      rw [hcalls, List.length_set] at hlen
      have hne : c' ≠ c := by
        rintro rfl
        rw [List.getElem?_eq_none hlen] at hget
        cases hget
      rw [hother c (by simpa using hne)]
      exact h.fresh c (List.getElem?_eq_none hlen)
    | handle _ _ hcalls =>
      rw [hother c nofun]
      exact h.fresh c (hcalls ▸ hnone)
  · cases hlate with
    | call hcalls =>
      rw [hcalls] at hget
      rcases Pool.getElem?_of_append hget with ⟨rfl, rfl⟩ | hget
      · rw [hother _ nofun, h.fresh _ (List.getElem?_eq_none le_rfl)]
        exact ⟨.entry, le_rfl, nofun⟩
      · exact hkeep c call nofun hlater hget
    | @step c' i phase e hget' hentry hstep' =>
      obtain ⟨-, ⟨phase', hcalls⟩, -⟩ := stepCall_eq hstep'
      by_cases hc : c' = c
      · subst hc
        obtain ⟨hforwards, hcount, -⟩ := h.later _ _ hlater hget'
        obtain ⟨phase', hcall, hforwards', hleft, hdropping⟩ :=
          hforwards.step h hrun hget' hentry hfinds hstep'
        obtain rfl := Option.some.inj (hget.symm.trans hcall)
        refine ⟨hforwards', ?_, hdropping⟩
        have hle : as.count (.step c') + phase.stepsLeft ≤ 4 := hcount
        rw [List.count_append, List.count_singleton_self]
        change _ + phase'.stepsLeft ≤ 4
        omega
      · rw [hcalls, List.getElem?_set_ne hc] at hget
        exact hkeep c call (by simpa using hc) hlater hget
    | handle _ _ hcalls =>
      rw [hcalls] at hget
      exact hkeep c call nofun hlater hget

/-- A later call is never stuck, but for its own `Hook::drop`. -/
theorem LaterInv.goesOn (h : LaterInv s as t) (hlater : s.IsLater c)
    (hget : t.calls[c]? = some call) : GoesOn s as t c call := by
  obtain ⟨hforwards, hcount, hdropping⟩ := h.later c call hlater hget
  refine ⟨hforwards, hcount, ?_⟩
  obtain ⟨i, phase⟩ := call
  obtain ⟨e, hentry⟩ : ∃ e, t.entries[i]? = some e :=
    ⟨_, List.getElem?_eq_getElem (h.inv.bound _ (List.mem_of_getElem? hget))⟩
  have hstep : t.step (.step c) = t.stepCall c i e phase := by
    rw [State.step, hget, Option.bind_some, hentry, Option.bind_some]
  cases hforwards with
  | entry | original | calling =>
    refine Or.inr (Or.inl ?_)
    rw [hstep, stepCall]
    split_ifs <;> rfl
  | dropping =>
    refine Or.inr ?_
    have hzero := hdropping rfl
    rw [State.handles, hentry] at hzero
    cases hlisted : e.listed with
    | false =>
      refine Or.inl ?_
      rw [hstep, stepCall, hlisted]
      rfl
    | true =>
      refine Or.inr ⟨rfl, ?_⟩
      rw [State.step, hentry, Option.bind_some, Entry.handle, if_pos ⟨hzero, hlisted⟩]
      rfl
  | done => exact Or.inl rfl

end Later

/-- In a run in which the guard never reads the strong count of a hook whose box a caller has,
nothing is left of the hooks when the guard has finished. As long as a call that comes too late
for a box finds a handle, all later calls go to `call_original`. -/
theorem clean_of_run {as₁ as₂ : List Action} {s₁ s₂ : State}
    (h₁ : Transition.run step init as₁ = some s₁)
    (hwaits : Transition.Meets step Waits init as₁) (hguard : s₁.guard = .finished)
    (h₂ : Transition.run step s₁ as₂ = some s₂)
    (hfinds : Transition.Meets step FindsHandle s₁ as₂) :
    Clean s₂ ∧ ∀ c call, s₁.IsLater c → s₂.calls[c]? = some call → GoesOn s₁ as₂ s₂ c call := by
  have hinv := Transition.run_invariant (fun _ _ _ => Inv.step) inv_init hwaits h₁
  have hlater := Transition.run_history
    (P := fun as u => Transition.Meets step FindsHandle s₁ as → LaterInv s₁ as u)
    (fun _ => laterInv_nil hinv hguard)
    (fun as a t u hrun ih hstep hmeets => by
      obtain ⟨hmeets, hlast⟩ := (Transition.meets_append_iff hrun).1 hmeets
      exact (ih hmeets).step hrun hlast.1 hstep)
    as₂ h₂ hfinds
  exact ⟨hlater.inv.clean hlater.guard, fun c call hc hget => hlater.goesOn hc hget⟩

/-- A step that does not wait takes the guard past a hook whose box is still there. -/
theorem Inv.boxed_of_not_waits {s t : State} {a : Action} (h : Inv s) (hwaits : ¬Waits s a)
    (hstep : s.step a = some t) :
    ∃ k e, t.guard = .loop k ∧ t.entries[k]? = some e ∧ e.boxed = true := by
  simp only [Waits, Classical.not_forall] at hwaits
  obtain ⟨rfl, k, hk, hcount⟩ := hwaits
  have hguard : s.guard = .checking k := by
    cases hguard : s.guard <;> simp_all [Guard.checked]
  simp only [State.step, State.stepGuard, hguard] at hstep
  obtain ⟨e, hentry, rfl⟩ := Option.map_eq_some_iff.1 hstep
  have hboxed := (h.fits k e hentry).boxed
  have hheld : e.boxed = true ∧ e.strong = 0 := by
    by_contra hno
    rw [if_neg hno, State.boxes] at hboxed
    omega
  rw [if_pos hheld.2]
  exact ⟨k, e, rfl, hentry, hheld.1⟩

/-- A step in which a call does not find a handle panics. -/
theorem panicked_of_not_findsHandle {s t : State} {a : Action} (hfinds : ¬FindsHandle s a)
    (hstep : s.step a = some t) : ∃ c i, a = .step c ∧ t.calls[c]? = some ⟨i, .panicked⟩ := by
  simp only [FindsHandle, Classical.not_forall, not_not] at hfinds
  obtain ⟨c, hc, ⟨i, phase⟩, hget, rfl, hzero⟩ := hfinds
  have hget : s.calls[c]? = some ⟨i, .original⟩ := hget
  obtain rfl : a = .step c := by
    cases a <;> simp [Action.ofCall] at hc
    rw [hc]
  rw [State.step, hget, Option.bind_some] at hstep
  obtain ⟨e, hentry, hstep⟩ := Option.bind_eq_some_iff.1 hstep
  have hzero : e.handles = 0 := by
    rwa [State.handles, hentry] at hzero
  rw [stepCall, if_pos hzero] at hstep
  obtain rfl := Option.some.inj hstep
  exact ⟨c, i, rfl, Pool.getElem?_set_of_getElem? hget⟩

/-- Two hooks, each entered by a call when the body of the scope ends. The guard waits for the
calls one after the other. -/
def sampleActions : List Action :=
  [.register .hookMut, .register .hookOnce, .call 0, .call 1, .step 0, .step 0, .step 1, .step 1,
    .step 1, .exit, .guard, .guard, .guard, .guard, .spurious, .guard, .step 1, .step 1, .step 1,
    .step 1, .step 1, .guard, .guard, .guard, .guard, .guard, .step 0, .step 0, .step 0, .step 0,
    .guard, .guard, .guard]

/-- A third call comes after the end, and drops the last handle. -/
def laterActions : List Action :=
  [.call 1, .step 2, .step 2, .handle .release 1, .step 2, .handle .remove 1, .step 2]

theorem clean_sampleActions : ∃ s t, Transition.run step init sampleActions = some s ∧
    s.guard = .finished ∧ Transition.run step s laterActions = some t ∧
      t.calls = [⟨0, .done⟩, ⟨1, .done⟩, ⟨1, .done⟩] ∧ Clean t ∧
        CalledOriginal s laterActions 2 1 := by
  obtain ⟨hclean, hlater⟩ := @clean_of_run sampleActions laterActions _ _ rfl (by decide) rfl rfl
    (by decide)
  have hcall := (hlater 2 ⟨1, .done⟩ nofun rfl).forwards
  cases hcall with
  | done hcalled => exact ⟨_, _, rfl, rfl, rfl, rfl, hclean, hcalled⟩

/-- The guard reads the strong count between `Arc::into_inner` of a call and the drop of the
box. The scope ends, and the closure has not been destroyed. -/
theorem not_clean : ∃ s, Transition.run step init [.register .hook, .call 0, .step 0, .step 0,
      .exit, .guard, .guard, .guard, .step 0, .step 0, .guard, .guard] = some s ∧
    s.guard = .finished ∧ s.calls = [⟨0, .holding⟩] ∧ s.entries.map Entry.value = [.stored] ∧
    ¬Clean s := by
  refine ⟨_, rfl, rfl, rfl, rfl, fun h => ?_⟩
  exact absurd (h.destroyed _ List.mem_cons_self) (by decide)

/-- The last handle is dropped between the clone of the thunk by a call and its upgrades, which
come after the end of the scope. Nothing is left of the hook, and the call panics. -/
theorem later_panics : ∃ s t, Transition.run step init [.register .hook, .call 0, .exit, .guard,
      .guard, .guard, .guard, .guard] = some s ∧ s.guard = .finished ∧ s.IsLater 0 ∧
    Transition.run step s [.handle .release 0, .handle .remove 0, .step 0, .step 0] = some t ∧
    t.calls = [⟨0, .panicked⟩] :=
  ⟨_, _, rfl, rfl, fun call h => by obtain rfl := Option.some.inj h; rfl, rfl, rfl⟩

end State

end Scoped

end Diversion
