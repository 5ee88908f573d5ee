import Diversion.Lib.Pool
import Diversion.Lib.Transition
import Mathlib.Data.List.Count
import Mathlib.Order.Nat
import Mathlib.Tactic.Common

/-!
# Calls through the hooks of a target

Static hooks (src/hook/leak.rs) and custom hooks (src/hook/custom.rs) of one target, called by any
number of threads while others are installed. A hook is the index of its exchange of the thunk,
and the one it forwards to is the index before it, or the original function. What a closure does is
up to the run : it returns, calls `call_original` of any static hook, or calls the target. So does
the original function.

The closure of a `hook_mut` runs under the mutex of the hook, and that of a `hook_once` is taken
out of its mutex (`Frame.taking`) before the flag is cleared. `safe_of_run` : no two calls run the
closure of a `hook_mut` at a time, that of a `hook_once` runs once, and is passed over only when a
call has it. A thread that gets to a mutex it holds is blocked for ever (`blocked_of_reentry`). If
no thread calls further up than the mutexes it holds (`Ordered`), every call can return
(`finishes_of_meets`), as whoever waits for a mutex waits for a call that is further down.
-/

namespace Diversion

namespace HookCalls

/-! ## State -/

/-- The strategies of `static_hook` and of `hook`. -/
inductive Strategy where
  | hook
  | hookMut
  | hookOnce
deriving DecidableEq, Repr

/-- A hook whose entry point is in the thunk, or was. -/
structure Hook where
  custom : Bool
  strategy : Strategy
  /-- `inner` is set. -/
  ready : Bool
  /-- The mutex of a `hook_mut` is held. -/
  locked : Bool
  /-- The `FnOnce` of a `hook_once` has not been taken. -/
  hookFn : Bool
  flag : Bool
deriving DecidableEq, Repr

/-- A hook is exchanged before its `inner` is set. -/
def Hook.new (custom : Bool) (strategy : Strategy) : Hook where
  custom := custom
  strategy := strategy
  ready := false
  locked := false
  hookFn := true
  flag := true

/-- A call in progress. -/
inductive Frame where
  /-- Enters the hook. -/
  | entry (hook : ℕ)
  /-- Has loaded the flag as set. -/
  | taking (hook : ℕ)
  /-- Has taken the `FnOnce`. -/
  | storing (hook : ℕ)
  /-- Runs the closure. -/
  | running (hook : ℕ)
  /-- In `call_original`, before `inner.wait()`. -/
  | waiting (hook : ℕ)
  /-- Runs the original function. -/
  | original
deriving DecidableEq, Repr

namespace Frame

/-- The function that `hook` has replaced, or that the thunk holds when there are `hook` hooks. -/
def ofNext : ℕ → Frame
  | 0 => .original
  | hook + 1 => .entry hook

/-- The closure or the original function may call others. -/
def isRunning : Frame → Bool
  | .running _ | .original => true
  | _ => false

/-- The hooks that the call can get to are those below. -/
def reach : Frame → ℕ
  | .entry hook | .taking hook | .storing hook | .running hook => hook + 1
  | .waiting hook => hook
  | .original => 0

@[simp] theorem reach_ofNext (hook : ℕ) : (ofNext hook).reach = hook := by
  cases hook <;> rfl

/-- The steps a call still takes at most, if what it calls returns. -/
def rank : Frame → ℕ
  | .entry hook => 6 * hook + 7
  | .taking hook => 6 * hook + 6
  | .storing hook => 6 * hook + 5
  | .running hook => 6 * hook + 4
  | .waiting hook => 6 * hook + 2
  | .original => 1

@[simp] theorem rank_ofNext (hook : ℕ) : (ofNext hook).rank = 6 * hook + 1 := by
  cases hook <;> rfl

end Frame

@[simp] theorem Frame.ofNext_ne_running (hook k : ℕ) : ofNext hook ≠ .running k := by
  cases hook <;> nofun

@[simp] theorem Frame.ofNext_ne_storing (hook k : ℕ) : ofNext hook ≠ .storing k := by
  cases hook <;> nofun

/-- What a call does that does not get the `FnOnce`. The stub of a custom hook goes on by
itself. -/
def Hook.bypass (e : Hook) (hook : ℕ) : Frame :=
  if e.custom then .ofNext hook else .waiting hook

@[simp] theorem Hook.bypass_ne_running (e : Hook) (hook k : ℕ) : e.bypass hook ≠ .running k := by
  unfold bypass
  split_ifs <;> simp

@[simp] theorem Hook.bypass_ne_storing (e : Hook) (hook k : ℕ) : e.bypass hook ≠ .storing k := by
  unfold bypass
  split_ifs <;> simp

/-- All hooks of one target and the threads that call it. -/
structure State where
  /-- The hooks in the order of their exchanges. -/
  hooks : List Hook
  /-- The calls of each thread, innermost first. -/
  threads : List (List Frame)
deriving DecidableEq, Repr

/-- No hook has been installed. -/
def State.init : State :=
  ⟨[], []⟩

/-! ## Steps -/

/-- One step of the installer or of one thread. -/
inductive Action where
  /-- `update_thunk` of `static_hook_with_thunk` or `leak_hook` has exchanged the thunk. -/
  | exchange (custom : Bool) (strategy : Strategy)
  /-- `hook.inner.get_or_init` after that. -/
  | record (hook : ℕ)
  /-- A thread calls the target. -/
  | target
  /-- A thread calls `call_original` of a static hook. -/
  | original (hook : ℕ)
  /-- The next step of a thread. A closure or the original function returns. -/
  | step (i : ℕ)
  /-- A closure or the original function calls the target. -/
  | callTarget (i : ℕ)
  /-- It calls `call_original` of a static hook. -/
  | callOriginal (i hook : ℕ)
deriving DecidableEq, Repr

namespace State

/-- Replace the calls of a thread. -/
def setThread (s : State) (i : ℕ) (frames : List Frame) : State :=
  { s with threads := s.threads.set i frames }

/-- Replace a hook. -/
def setHook (s : State) (hook : ℕ) (e : Hook) : State :=
  { s with hooks := s.hooks.set hook e }

/-- It is one of `static_hook_with_thunk`, which has a `call_original`. -/
def isStatic (s : State) (hook : ℕ) : Bool :=
  (s.hooks[hook]?).any fun e => !e.custom

/-- One step of a thread with the innermost call `frame`. -/
def stepFrame (s : State) (i : ℕ) (rest : List Frame) : Frame → Option State
  | .entry hook => (s.hooks[hook]?).bind fun e =>
    match e.strategy with
    | .hook => some (s.setThread i (.running hook :: rest))
    | .hookMut =>
      if e.locked then none
      else some ((s.setHook hook { e with locked := true }).setThread i (.running hook :: rest))
    | .hookOnce =>
      if e.flag then some (s.setThread i (.taking hook :: rest))
      else some (s.setThread i (e.bypass hook :: rest))
  | .taking hook => (s.hooks[hook]?).map fun e =>
    if e.hookFn then
      (s.setHook hook { e with hookFn := false }).setThread i (.storing hook :: rest)
    else s.setThread i (e.bypass hook :: rest)
  | .storing hook => (s.hooks[hook]?).map fun e =>
    (s.setHook hook { e with flag := false }).setThread i (.running hook :: rest)
  | .running hook => (s.hooks[hook]?).map fun e =>
    (s.setHook hook { e with locked := false }).setThread i
      (if e.custom then .ofNext hook :: rest else rest)
  | .waiting hook => (s.hooks[hook]?).bind fun e =>
    if e.ready then some (s.setThread i (.ofNext hook :: rest)) else none
  | .original => some (s.setThread i rest)

/-- What runs in thread `i` calls `frame`. -/
def call (s : State) (i : ℕ) (frame : Frame) : Option State :=
  match s.threads[i]? with
  | some (top :: rest) =>
    if top.isRunning then some (s.setThread i (frame :: top :: rest)) else none
  | _ => none

/-- `none` where the step is not enabled, as for a thread that waits. -/
def step (s : State) : Action → Option State
  | .exchange custom strategy => some { s with hooks := s.hooks ++ [.new custom strategy] }
  | .record hook => (s.hooks[hook]?).map fun e => s.setHook hook { e with ready := true }
  | .target => some { s with threads := s.threads ++ [[.ofNext s.hooks.length]] }
  | .original hook =>
    if s.isStatic hook then some { s with threads := s.threads ++ [[.waiting hook]] } else none
  | .step i =>
    match s.threads[i]? with
    | some (top :: rest) => s.stepFrame i rest top
    | _ => none
  | .callTarget i => s.call i (.ofNext s.hooks.length)
  | .callOriginal i hook => if s.isStatic hook then s.call i (.waiting hook) else none

/-! ## What is asked of a run -/

/-- The closure of the hook runs under its mutex. -/
def isMut (s : State) (hook : ℕ) : Bool :=
  (s.hooks[hook]?).any fun e => e.strategy = .hookMut

/-- The hook whose mutex a call holds. -/
def held (s : State) : Frame → Option ℕ
  | .running hook => if s.isMut hook then some hook else none
  | _ => none

/-- The mutexes a thread holds. -/
def locks (s : State) (i : ℕ) : List ℕ :=
  ((s.threads[i]?).getD []).filterMap s.held

end State

/-- Whoever holds a mutex calls only hooks below it. -/
def Ordered (s : State) : Action → Prop
  | .callTarget i => s.locks i = []
  | .callOriginal i hook => ∀ m ∈ s.locks i, hook ≤ m
  | _ => True

instance (s : State) : ∀ a, Decidable (Ordered s a)
  | .callTarget i => inferInstanceAs (Decidable (s.locks i = []))
  | .callOriginal i hook => inferInstanceAs (Decidable (∀ m ∈ s.locks i, hook ≤ m))
  | .exchange _ _ | .record _ | .target | .original _ | .step _ => isTrue trivial

/-! ## What one step does -/

/-- What a call does to the closure of a hook. -/
inductive Event where
  /-- The closure is called. -/
  | enters (hook : ℕ)
  /-- The call goes on without it. -/
  | bypasses (hook : ℕ)
deriving DecidableEq, Repr

/-- The hook that a call is in. -/
def Frame.hook? : Frame → Option ℕ
  | .entry hook | .taking hook | .storing hook | .running hook | .waiting hook => some hook
  | .original => none

/-- What the next step of a call does with its hook. -/
def Hook.observe (e : Hook) (hook : ℕ) : Frame → List Event
  | .entry _ =>
    if e.strategy = .hookOnce then if e.flag then [] else [.bypasses hook] else [.enters hook]
  | .taking _ => if e.hookFn then [] else [.bypasses hook]
  | .storing _ => [.enters hook]
  | .running _ | .waiting _ | .original => []

/-- The same for the hook of the call. -/
def State.observeFrame (s : State) (frame : Frame) : List Event :=
  frame.hook?.elim [] fun hook => (s.hooks[hook]?).elim [] fun e => e.observe hook frame

/-- The events of a step. -/
def State.observe (s : State) : Action → List Event
  | .step i => ((s.threads[i]?).bind List.head?).elim [] s.observeFrame
  | _ => []

/-- A call that is in hook `k` becomes the calls `news`, and the hook becomes `e'`. -/
inductive Turn (k : ℕ) (e : Hook) : Frame → Hook → List Frame → List Event → Prop
  | enter (h : e.strategy = .hook) : Turn k e (.entry k) e [.running k] [.enters k]
  | lock (h : e.strategy = .hookMut) (hlocked : e.locked = false) :
    Turn k e (.entry k) { e with locked := true } [.running k] [.enters k]
  | load (h : e.strategy = .hookOnce) (hflag : e.flag = true) :
    Turn k e (.entry k) e [.taking k] []
  | pass (h : e.strategy = .hookOnce) (hflag : e.flag = false) :
    Turn k e (.entry k) e [e.bypass k] [.bypasses k]
  | take (hfn : e.hookFn = true) :
    Turn k e (.taking k) { e with hookFn := false } [.storing k] []
  | miss (hfn : e.hookFn = false) : Turn k e (.taking k) e [e.bypass k] [.bypasses k]
  | store : Turn k e (.storing k) { e with flag := false } [.running k] [.enters k]
  | leave (hcustom : e.custom = true) :
    Turn k e (.running k) { e with locked := false } [.ofNext k] []
  | finish (hcustom : e.custom = false) : Turn k e (.running k) { e with locked := false } [] []
  | forward (hready : e.ready = true) : Turn k e (.waiting k) e [.ofNext k] []

section Step

variable {s t : State} {i k : ℕ} {top frame : Frame} {rest news : List Frame} {e e' : Hook}
  {events : List Event}

/-- Writing a hook back. -/
theorem setHook_self (hget : s.hooks[k]? = some e) : s.setHook k e = s := by
  obtain ⟨hk, rfl⟩ := List.getElem?_eq_some_iff.1 hget
  rw [State.setHook, List.set_getElem_self]

/-- The events of a call are those of its hook. -/
theorem observeFrame_eq (hget : s.hooks[k]? = some e) (htop : top.hook? = some k) :
    s.observeFrame top = e.observe k top := by
  rw [State.observeFrame, htop, Option.elim_some, hget, Option.elim_some]

/-- A step of a thread is a turn of its innermost call, or the return of the original function. -/
theorem stepFrame_cases (hstep : s.stepFrame i rest top = some t) :
    top = .original ∧ t = s.setThread i rest ∨
      ∃ k e e' news, s.hooks[k]? = some e ∧ Turn k e top e' news (s.observeFrame top) ∧
        t = (s.setHook k e').setThread i (news ++ rest) := by
  have hturn : ∀ {k : ℕ} {e e' : Hook} {news : List Frame} {events : List Event},
      s.hooks[k]? = some e → top.hook? = some k → e.observe k top = events →
        Turn k e top e' news events → t = (s.setHook k e').setThread i (news ++ rest) →
          ∃ k e e' news, s.hooks[k]? = some e ∧ Turn k e top e' news (s.observeFrame top) ∧
            t = (s.setHook k e').setThread i (news ++ rest) := by
    intro k e e' news events hget htop hevents h ht
    exact ⟨k, e, e', news, hget, by rwa [observeFrame_eq hget htop, hevents], ht⟩
  have hsame : ∀ {k : ℕ} {e : Hook} {frame : Frame}, s.hooks[k]? = some e →
      s.setThread i (frame :: rest) = t → t = (s.setHook k e).setThread i ([frame] ++ rest) := by
    rintro k e frame hget rfl
    rw [setHook_self hget, List.singleton_append]
  cases top with
  | original => exact Or.inl ⟨rfl, (Option.some.inj hstep).symm⟩
  | entry k =>
    obtain ⟨e, hget, hstep⟩ := Option.bind_eq_some_iff.1 hstep
    split at hstep
    · rename_i hstrategy
      exact Or.inr (hturn hget rfl (by simp [Hook.observe, hstrategy]) (.enter hstrategy)
        (hsame hget (Option.some.inj hstep)))
    · rename_i hstrategy
      split_ifs at hstep with hlocked
      exact Or.inr (hturn hget rfl (by simp [Hook.observe, hstrategy])
        (.lock hstrategy (Bool.eq_false_iff.2 hlocked)) (Option.some.inj hstep).symm)
    · rename_i hstrategy
      split_ifs at hstep with hflag
      · exact Or.inr (hturn hget rfl (by simp [Hook.observe, hstrategy, hflag])
          (.load hstrategy hflag) (hsame hget (Option.some.inj hstep)))
      · exact Or.inr (hturn hget rfl (by simp [Hook.observe, hstrategy, hflag])
          (.pass hstrategy (Bool.eq_false_iff.2 hflag)) (hsame hget (Option.some.inj hstep)))
  | taking k =>
    obtain ⟨e, hget, hnext⟩ := Option.map_eq_some_iff.1 hstep
    split_ifs at hnext with hfn
    · exact Or.inr (hturn hget rfl (if_pos hfn) (.take hfn) hnext.symm)
    · exact Or.inr (hturn hget rfl (if_neg hfn) (.miss (Bool.eq_false_iff.2 hfn))
        (hsame hget hnext))
  | storing k =>
    obtain ⟨e, hget, hnext⟩ := Option.map_eq_some_iff.1 hstep
    exact Or.inr (hturn hget rfl rfl .store hnext.symm)
  | running k =>
    obtain ⟨e, hget, hnext⟩ := Option.map_eq_some_iff.1 hstep
    split_ifs at hnext with hcustom
    · exact Or.inr (hturn hget rfl rfl (.leave hcustom) hnext.symm)
    · exact Or.inr (hturn hget rfl rfl (.finish (Bool.eq_false_iff.2 hcustom)) hnext.symm)
  | waiting k =>
    obtain ⟨e, hget, hstep⟩ := Option.bind_eq_some_iff.1 hstep
    split_ifs at hstep with hready
    exact Or.inr (hturn hget rfl rfl (.forward hready) (hsame hget (Option.some.inj hstep)))

end Step

/-! ## The closures -/

/-- The calls that are in a hook, and what was observed of its closure. -/
structure Tally where
  running : ℕ
  storing : ℕ
  enters : ℕ
  bypasses : ℕ

/-- The number of calls `frame` in progress. -/
def State.count (s : State) (frame : Frame) : ℕ :=
  (s.threads.map (List.count frame)).sum

/-- The counts of one hook. -/
def State.tally (s : State) (l : List Event) (k : ℕ) : Tally where
  running := s.count (.running k)
  storing := s.count (.storing k)
  enters := l.count (.enters k)
  bypasses := l.count (.bypasses k)

/-- The mutex is held by the call that runs the closure, and the `FnOnce` is in its place, or in a
call, or has been called. -/
structure Hook.Fits (e : Hook) (n : Tally) : Prop where
  locked : e.strategy = .hookMut → n.running = e.locked.toNat
  once : e.strategy = .hookOnce → n.enters + n.storing + e.hookFn.toNat = 1
  flag : e.hookFn = true → e.flag = true
  bypasses : 0 < n.bypasses → e.strategy = .hookOnce ∧ e.hookFn = false

/-- In the code of `hook_once`, before the closure is called. -/
def Frame.isOnce : Frame → Bool
  | .taking _ | .storing _ => true
  | _ => false

/-- The hook of a call is there, and only a `hook_once` is taken or stored. -/
def State.Valid (s : State) (frame : Frame) : Prop :=
  ∀ k, frame.hook? = some k →
    ∃ e, s.hooks[k]? = some e ∧ (frame.isOnce = true → e.strategy = .hookOnce)

/-- The invariant of a run with the events `l`. -/
structure Inv (l : List Event) (s : State) : Prop where
  fits : ∀ (k : ℕ) (e : Hook), s.hooks[k]? = some e → e.Fits (s.tally l k)
  fresh : ∀ k : ℕ, s.hooks[k]? = none → s.tally l k = ⟨0, 0, 0, 0⟩
  valid : ∀ (i : ℕ) frames, s.threads[i]? = some frames → ∀ frame ∈ frames, s.Valid frame

section Inv

variable {s t : State} {l : List Event} {i k : ℕ} {top frame : Frame}
  {frames rest news : List Frame} {e e' : Hook} {events : List Event} {n n' : Tally}

/-- It holds before the first call. -/
theorem inv_init : Inv [] .init where
  fits := by simp [State.init]
  fresh _ _ := rfl
  valid := by simp [State.init]

/-- Nobody is in a new hook. -/
theorem Hook.fits_new (custom : Bool) (strategy : Strategy) :
    (Hook.new custom strategy).Fits ⟨0, 0, 0, 0⟩ where
  locked _ := rfl
  once _ := rfl
  flag _ := rfl
  bypasses h := absurd h (Nat.lt_irrefl 0)

/-- A turn is one of a call of the hook. -/
theorem Turn.hook?_eq (h : Turn k e top e' news events) : top.hook? = some k := by
  cases h <;> rfl

/-- It does not change the strategy. -/
theorem Turn.strategy_eq (h : Turn k e top e' news events) : e'.strategy = e.strategy := by
  cases h <;> rfl

/-- A turn changes the tally of its own hook as it changes the hook. -/
theorem Turn.fits (h : Turn k e top e' news events) (hn : e.Fits n)
    (honce : top.isOnce = true → e.strategy = .hookOnce)
    (hrunning : n'.running + [top].count (.running k) = n.running + news.count (.running k))
    (hstoring : n'.storing + [top].count (.storing k) = n.storing + news.count (.storing k))
    (henters : n'.enters = n.enters + events.count (.enters k))
    (hbypasses : n'.bypasses = n.bypasses + events.count (.bypasses k)) : e'.Fits n' := by
  obtain ⟨hlocked, htaken, hflag, hpassed⟩ := hn
  have hone := e.locked.toNat_le
  cases h with
  | enter | lock | load | pass | leave | finish | forward =>
    simp at hrunning hstoring henters hbypasses
    refine ⟨?_, ?_, hflag, ?_⟩ <;> grind
  | take | store | miss =>
    -- only a `hook_once` has these calls
    have hstrategy := honce rfl
    simp at hrunning hstoring henters hbypasses
    refine ⟨?_, ?_, ?_, ?_⟩ <;> grind

/-- A turn leaves the tallies of the other hooks alone. -/
theorem Turn.count_eq_zero {k' : ℕ} (h : Turn k e top e' news events) (hne : k' ≠ k) :
    [top].count (.running k') = news.count (.running k') ∧
      [top].count (.storing k') = news.count (.storing k') ∧
        events.count (.enters k') = 0 ∧ events.count (.bypasses k') = 0 := by
  cases h <;> simp [hne.symm]

/-- The calls of a hook, when a thread replaces its innermost one. -/
theorem count_setThread (hget : s.threads[i]? = some (top :: rest)) (hooks : List Hook)
    (news : List Frame) (frame : Frame) :
    State.count ⟨hooks, s.threads.set i (news ++ rest)⟩ frame + [top].count frame =
      s.count frame + news.count frame := by
  have hsum := Pool.sum_map_set_add (b := news ++ rest) (List.count frame) hget
  rw [← List.singleton_append, List.count_append, List.count_append] at hsum
  simp only [State.count]
  omega

/-- The calls stay in hooks that are there. -/
theorem State.Valid.mono (h : s.Valid frame) (hhooks : ∀ (k : ℕ) (e : Hook), s.hooks[k]? = some e →
    ∃ e', t.hooks[k]? = some e' ∧ e'.strategy = e.strategy) : t.Valid frame := by
  intro k hk
  obtain ⟨e, hget, honce⟩ := h k hk
  obtain ⟨e', hget', hstrategy⟩ := hhooks k e hget
  exact ⟨e', hget', fun htop => hstrategy.trans (honce htop)⟩

/-- The next hook of the list, or the original function. -/
theorem valid_ofNext (hk : k ≤ s.hooks.length) : s.Valid (.ofNext k) := by
  intro k' hk'
  cases k with
  | zero => cases hk'
  | succ k =>
    obtain rfl := Option.some.inj hk'
    exact ⟨s.hooks[k], List.getElem?_eq_getElem hk, nofun⟩

theorem valid_waiting (hget : s.hooks[k]? = some e) : s.Valid (.waiting k) := by
  intro k' hk'
  obtain rfl := Option.some.inj hk'
  exact ⟨e, hget, nofun⟩

/-- The calls of a turn are in the same hook, or in the one it forwards to. -/
theorem Turn.valid (h : Turn k e top e' news events) (hget : s.hooks[k]? = some e)
    (htop : s.Valid top) : ∀ frame ∈ news, s.Valid frame := by
  have hk : k ≤ s.hooks.length := (List.getElem?_eq_some_iff.1 hget).1.le
  have hbypass : s.Valid (e.bypass k) := by
    unfold Hook.bypass
    split_ifs
    · exact valid_ofNext hk
    · exact valid_waiting hget
  have hrunning : s.Valid (.running k) := by
    intro k' hk'
    obtain rfl := Option.some.inj hk'
    exact ⟨e, hget, nofun⟩
  cases h with
  | enter | lock | store => simpa using hrunning
  | pass | miss => simpa using hbypass
  | leave | forward => simpa using valid_ofNext hk
  | finish => simp
  | load hstrategy =>
    simp only [List.mem_singleton, forall_eq]
    intro k' hk'
    obtain rfl := Option.some.inj hk'
    exact ⟨e, hget, fun _ => hstrategy⟩
  | take =>
    simp only [List.mem_singleton, forall_eq]
    intro k' hk'
    obtain ⟨e', hget', honce⟩ := htop k rfl
    obtain rfl := Option.some.inj hk'
    exact ⟨e', hget', fun _ => honce rfl⟩

/-- A call takes a turn. -/
theorem Inv.turn (h : Inv l s) (hget : s.threads[i]? = some (top :: rest))
    (hhook : s.hooks[k]? = some e) (hturn : Turn k e top e' news events) :
    Inv (l ++ events) ((s.setHook k e').setThread i (news ++ rest)) := by
  have htop : s.Valid top := h.valid i _ hget top List.mem_cons_self
  have hcount := count_setThread hget (s.hooks.set k e') news
  have hhooks : ∀ (j : ℕ) (c : Hook), s.hooks[j]? = some c →
      ∃ c', (s.hooks.set k e')[j]? = some c' ∧ c'.strategy = c.strategy := by
    intro j c hj
    by_cases hkj : k = j
    · subst hkj
      obtain rfl := Option.some.inj (hhook.symm.trans hj)
      exact ⟨e', Pool.getElem?_set_of_getElem? hhook, hturn.strategy_eq⟩
    · exact ⟨c, (List.getElem?_set_ne hkj).trans hj, rfl⟩
  have hother : ∀ j, j ≠ k → State.tally ⟨s.hooks.set k e', s.threads.set i (news ++ rest)⟩
      (l ++ events) j = s.tally l j := by
    intro j hj
    obtain ⟨hrunning, hstoring, henters, hbypasses⟩ := hturn.count_eq_zero hj
    have := hcount (.running j)
    have := hcount (.storing j)
    simp only [State.tally, List.count_append, henters, hbypasses, Tally.mk.injEq, Nat.add_zero,
      and_true]
    omega
  refine ⟨fun j c hj => ?_, fun j hj => ?_, fun j frames hj frame hframe => ?_⟩
  · rcases Pool.mem_of_getElem?_set hj with ⟨rfl, rfl⟩ | ⟨hkj, hj⟩
    · refine hturn.fits (h.fits k e hhook) (fun honce => ?_) (hcount _) (hcount _)
        List.count_append List.count_append
      obtain ⟨c, hc, hstrategy⟩ := htop k hturn.hook?_eq
      obtain rfl := Option.some.inj (hhook.symm.trans hc)
      exact hstrategy honce
    · exact (hother j (Ne.symm hkj)).symm ▸ h.fits j c hj
  · have hkj : j ≠ k := by
      rintro rfl
      cases (Pool.getElem?_set_of_getElem? hhook).symm.trans hj
    refine (hother j hkj).trans (h.fresh j ?_)
    rwa [State.setThread, State.setHook, List.getElem?_set_ne hkj.symm] at hj
  · refine State.Valid.mono ?_ hhooks
    rcases Pool.mem_of_getElem?_set hj with ⟨-, rfl⟩ | ⟨-, hj⟩
    · rcases List.mem_append.1 hframe with hnew | hrest
      · exact hturn.valid hhook htop frame hnew
      · exact h.valid i _ hget frame (List.mem_cons_of_mem _ hrest)
    · exact h.valid j frames hj frame hframe

/-- A step that leaves the hooks and their closures alone. -/
theorem Inv.same {threads : List (List Frame)} (h : Inv l s)
    (hcount : ∀ k, State.count ⟨s.hooks, threads⟩ (.running k) = s.count (.running k) ∧
      State.count ⟨s.hooks, threads⟩ (.storing k) = s.count (.storing k))
    (hvalid : ∀ (i : ℕ) frames, threads[i]? = some frames → ∀ frame ∈ frames, s.Valid frame) :
    Inv l { s with threads } := by
  have htally : ∀ k, State.tally ⟨s.hooks, threads⟩ l k = s.tally l k := by
    intro k
    simp only [State.tally, (hcount k).1, (hcount k).2]
  exact ⟨fun k e hk => (htally k).symm ▸ h.fits k e hk, fun k hk => (htally k).trans (h.fresh k hk),
    hvalid⟩

theorem count_append (frames : List Frame) (frame : Frame) :
    State.count ⟨s.hooks, s.threads ++ [frames]⟩ frame = s.count frame + frames.count frame := by
  simp [State.count]

/-- A new thread. -/
theorem Inv.thread (h : Inv l s) (hframe : s.Valid frame)
    (hrunning : ∀ k, frame ≠ .running k) (hstoring : ∀ k, frame ≠ .storing k) :
    Inv l { s with threads := s.threads ++ [[frame]] } := by
  refine h.same (fun k => ?_) fun j frames hj => ?_
  · simp [count_append, hrunning k, hstoring k]
  · rcases Pool.getElem?_of_append hj with ⟨-, rfl⟩ | hj
    · simpa using hframe
    · exact h.valid j frames hj

/-- A thread of which one call changes, which runs no closure. -/
theorem Inv.replace (h : Inv l s) (hget : s.threads[i]? = some (top :: rest))
    (hcount : ∀ k, news.count (.running k) = [top].count (.running k) ∧
      news.count (.storing k) = [top].count (.storing k))
    (hvalid : ∀ frame ∈ news, s.Valid frame) : Inv l (s.setThread i (news ++ rest)) := by
  refine h.same (fun k => ?_) fun j frames hj => ?_
  · have hrunning := count_setThread hget s.hooks news (.running k)
    have hstoring := count_setThread hget s.hooks news (.storing k)
    obtain ⟨hnew, hnew'⟩ := hcount k
    omega
  · rcases Pool.mem_of_getElem?_set hj with ⟨-, rfl⟩ | ⟨-, hj⟩
    · intro frame hframe
      rcases List.mem_append.1 hframe with hnew | hrest
      · exact hvalid frame hnew
      · exact h.valid i _ hget frame (List.mem_cons_of_mem _ hrest)
    · exact h.valid j frames hj

/-- What runs in a thread calls `frame`. -/
theorem call_eq_some : s.call i frame = some t ↔ ∃ top rest, s.threads[i]? = some (top :: rest) ∧
    top.isRunning = true ∧ t = s.setThread i (frame :: top :: rest) := by
  unfold State.call
  split
  · rename_i top rest hget
    simp only [Option.ite_none_right_eq_some, Option.some.injEq, hget, List.cons.injEq]
    constructor
    · rintro ⟨hrunning, rfl⟩
      exact ⟨top, rest, ⟨rfl, rfl⟩, hrunning, rfl⟩
    · rintro ⟨_, _, ⟨rfl, rfl⟩, hrunning, rfl⟩
      exact ⟨hrunning, rfl⟩
  · rename_i hnone
    refine iff_of_false nofun ?_
    rintro ⟨top, rest, hget, -⟩
    exact hnone top rest hget

/-- A thread makes a call. -/
theorem Inv.call (h : Inv l s) (hcall : s.call i frame = some t) (hframe : s.Valid frame)
    (hrunning : ∀ k, frame ≠ .running k) (hstoring : ∀ k, frame ≠ .storing k) : Inv l t := by
  obtain ⟨top, rest, hget, -, rfl⟩ := call_eq_some.1 hcall
  have htop : s.Valid top := h.valid i _ hget top List.mem_cons_self
  have hvalid : ∀ frame' ∈ [frame, top], s.Valid frame' := by
    simp only [List.mem_cons, List.not_mem_nil, or_false, forall_eq_or_imp, forall_eq]
    exact ⟨hframe, htop⟩
  exact h.replace hget (fun k => by simp [List.count_cons, hrunning k, hstoring k]) hvalid

theorem isStatic_eq_true : s.isStatic k = true ↔ ∃ e, s.hooks[k]? = some e ∧ e.custom = false := by
  simp [State.isStatic, Option.any_eq_true]

/-- A hook is added in front. -/
theorem Inv.exchange (h : Inv l s) (custom : Bool) (strategy : Strategy) :
    Inv l { s with hooks := s.hooks ++ [.new custom strategy] } := by
  refine ⟨fun k e hk => ?_, fun k hk => h.fresh k ?_, fun j frames hj frame hframe => ?_⟩
  · rcases Pool.getElem?_of_append hk with ⟨rfl, rfl⟩ | hk
    · have hnone : s.hooks[s.hooks.length]? = none := List.getElem?_eq_none le_rfl
      exact (h.fresh _ hnone).symm ▸ Hook.fits_new custom strategy
    · exact h.fits k e hk
  · rw [List.getElem?_eq_none_iff, List.length_append] at hk
    exact List.getElem?_eq_none (by omega)
  · refine (h.valid j frames hj frame hframe).mono fun k e hk => ⟨e, ?_, rfl⟩
    exact Pool.getElem?_append_of_getElem? hk

/-- `inner` is set. -/
theorem Inv.record (h : Inv l s) (hget : s.hooks[k]? = some e) :
    Inv l (s.setHook k { e with ready := true }) := by
  refine ⟨fun j c hj => ?_, fun j hj => h.fresh j ?_, fun j frames hj frame hframe => ?_⟩
  · rcases Pool.mem_of_getElem?_set hj with ⟨rfl, rfl⟩ | ⟨-, hj⟩
    · obtain ⟨hlocked, honce, hflag, hbypasses⟩ := h.fits k e hget
      exact ⟨hlocked, honce, hflag, hbypasses⟩
    · exact h.fits j c hj
  · rw [State.setHook, List.getElem?_eq_none_iff, List.length_set] at hj
    exact List.getElem?_eq_none hj
  · refine (h.valid j frames hj frame hframe).mono fun j c hj => ?_
    by_cases hkj : k = j
    · subst hkj
      obtain rfl := Option.some.inj (hget.symm.trans hj)
      exact ⟨_, Pool.getElem?_set_of_getElem? hget, rfl⟩
    · exact ⟨c, (List.getElem?_set_ne hkj).trans hj, rfl⟩

/-- A step of a thread is one of its innermost call. -/
theorem step_eq_some : s.step (.step i) = some t ↔ ∃ top rest, s.threads[i]? = some (top :: rest) ∧
    s.stepFrame i rest top = some t := by
  simp only [State.step]
  split
  · rename_i top rest hget
    simp [hget]
  · rename_i hnone
    refine iff_of_false nofun ?_
    rintro ⟨top, rest, hget, -⟩
    exact hnone top rest hget

/-- A step is observed at the innermost call. -/
theorem observe_step (hget : s.threads[i]? = some (top :: rest)) :
    s.observe (.step i) = s.observeFrame top := by
  simp [State.observe, hget]

/-- Every step keeps the invariant. -/
theorem Inv.step {a : Action} (h : Inv l s) (hstep : s.step a = some t) :
    Inv (l ++ s.observe a) t := by
  have hnil : ∀ {t : State}, Inv l t → Inv (l ++ []) t := fun h => (List.append_nil l).symm ▸ h
  cases a with
  | exchange custom strategy =>
    obtain rfl := Option.some.inj hstep
    exact hnil (h.exchange custom strategy)
  | record k =>
    obtain ⟨e, hget, rfl⟩ := Option.map_eq_some_iff.1 hstep
    exact hnil (h.record hget)
  | target =>
    obtain rfl := Option.some.inj hstep
    exact hnil (h.thread (valid_ofNext le_rfl) (by simp) (by simp))
  | original k =>
    simp only [State.step] at hstep
    split_ifs at hstep with hstatic
    obtain rfl := Option.some.inj hstep
    obtain ⟨e, hget, -⟩ := isStatic_eq_true.1 hstatic
    exact hnil (h.thread (valid_waiting hget) (by simp) (by simp))
  | callTarget i => exact hnil (h.call hstep (valid_ofNext le_rfl) (by simp) (by simp))
  | callOriginal i k =>
    simp only [State.step] at hstep
    split_ifs at hstep with hstatic
    obtain ⟨e, hget, -⟩ := isStatic_eq_true.1 hstatic
    exact hnil (h.call hstep (valid_waiting hget) (by simp) (by simp))
  | step i =>
    obtain ⟨top, rest, hget, hstep⟩ := step_eq_some.1 hstep
    rw [observe_step hget]
    rcases stepFrame_cases hstep with ⟨rfl, rfl⟩ | ⟨k, e, e', news, hhook, hturn, rfl⟩
    · have hreturn : Inv l (s.setThread i ([] ++ rest)) :=
        h.replace hget (by simp) (by simp)
      exact hnil hreturn
    · exact h.turn hget hhook hturn

/-- The invariant holds of every run and what was observed in it. -/
theorem inv_of_run {as : List Action} (hrun : Transition.run State.step .init as = some s) :
    Inv (Transition.trace State.step State.observe .init as) s :=
  Transition.run_trace (fun _ _ _ _ h hstep => h.step hstep) inv_init hrun

/-- A count says that some thread is there. -/
theorem count_pos_iff : 0 < s.count frame ↔ ∃ (i : ℕ) (frames : List Frame),
    s.threads[i]? = some frames ∧ frame ∈ frames := by
  simp only [State.count, List.sum_pos_iff_exists_pos_nat, List.mem_map,
    exists_exists_and_eq_and, List.count_pos_iff]
  constructor
  · rintro ⟨frames, hmem, hframe⟩
    obtain ⟨i, hi⟩ := List.getElem?_of_mem hmem
    exact ⟨i, frames, hi, hframe⟩
  · rintro ⟨i, frames, hi, hframe⟩
    exact ⟨frames, List.mem_of_getElem? hi, hframe⟩

theorem isMut_eq_true :
    s.isMut k = true ↔ ∃ e, s.hooks[k]? = some e ∧ e.strategy = .hookMut := by
  simp [State.isMut, Option.any_eq_true]

/-- The mutex of a `hook_mut` is held exactly while its closure runs. -/
theorem Inv.locked_iff (h : Inv l s) (hget : s.hooks[k]? = some e) (hmut : e.strategy = .hookMut) :
    e.locked = true ↔ ∃ (i : ℕ) (frames : List Frame), s.threads[i]? = some frames ∧
      .running k ∈ frames := by
  have hcount : s.count (.running k) = e.locked.toNat := (h.fits k e hget).locked hmut
  rw [← count_pos_iff, hcount]
  cases e.locked <;> simp

end Inv

/-! ## Every run -/

/-- What holds of the closures after a run in which `l` was observed. -/
structure Safe (l : List Event) (s : State) : Prop where
  /-- One call at a time runs the closure of a `hook_mut`. -/
  hookMut : ∀ k, s.isMut k = true → s.count (.running k) ≤ 1
  /-- The closure of a `hook_once` is called once at most. -/
  hookOnce : ∀ (k : ℕ) (e : Hook), s.hooks[k]? = some e → e.strategy = .hookOnce →
    l.count (.enters k) ≤ 1
  /-- A call goes on without the closure only if that of a `hook_once` has been called, or is about
  to be. -/
  bypasses : ∀ k, .bypasses k ∈ l → ∃ e, s.hooks[k]? = some e ∧ e.strategy = .hookOnce ∧
    l.count (.enters k) + s.count (.storing k) = 1

/-- The closures of all hooks are called as they should be. -/
theorem safe_of_run {as : List Action} {s : State}
    (hrun : Transition.run State.step .init as = some s) :
    Safe (Transition.trace State.step State.observe .init as) s := by
  have h := inv_of_run hrun
  refine ⟨fun k hmut => ?_, fun k e hget honce => ?_, fun k hmem => ?_⟩
  · obtain ⟨e, hget, hstrategy⟩ := isMut_eq_true.1 hmut
    exact ((h.fits k e hget).locked hstrategy).le.trans e.locked.toNat_le
  · have hone := (h.fits k e hget).once honce
    change _ + _ + _ = 1 at hone
    exact (Nat.le_add_right _ _).trans ((Nat.le_add_right _ _).trans hone.le)
  · have hpos : 0 < (s.tally (Transition.trace State.step State.observe .init as) k).bypasses :=
      List.count_pos_iff.2 hmem
    cases hget : s.hooks[k]? with
    | none =>
      rw [h.fresh k hget] at hpos
      exact absurd hpos (Nat.lt_irrefl 0)
    | some e =>
      obtain ⟨hstrategy, hfn⟩ := (h.fits k e hget).bypasses hpos
      have hone := (h.fits k e hget).once hstrategy
      rw [hfn, Bool.toNat_false, Nat.add_zero] at hone
      exact ⟨e, rfl, hstrategy, hone⟩

/-- A `hook_mut` and above it a `hook_once`. Of two threads that call the target, the first runs
the closure of the `hook_once`, which forwards, and the second goes on without it. -/
def sampleRun : List Action :=
  [.exchange false .hookMut, .record 0, .exchange false .hookOnce, .target, .record 1, .step 0,
    .step 0, .step 0, .callOriginal 0 1, .step 0, .target, .step 0, .step 1, .step 1, .step 0,
    .step 1]

theorem run_sampleRun : Transition.run State.step .init sampleRun =
    some ⟨[⟨false, .hookMut, true, true, true, true⟩,
        ⟨false, .hookOnce, true, false, false, false⟩], [[.running 1], [.running 0]]⟩ := by
  decide

theorem safe_of_run_sample : ∃ s, Transition.run State.step .init sampleRun = some s ∧
    Safe [.enters 1, .enters 0, .bypasses 1, .enters 0] s := by
  have htrace : Transition.trace State.step State.observe .init sampleRun =
      [.enters 1, .enters 0, .bypasses 1, .enters 0] := by decide
  exact ⟨_, run_sampleRun, htrace ▸ safe_of_run run_sampleRun⟩

/-! ## The order of the mutexes -/

/-- A thread holds only mutexes of hooks that its inner calls do not get to. -/
def State.Stacked (s : State) (frames : List Frame) : Prop :=
  frames.Pairwise fun above below => ∀ m, s.held below = some m → above.reach ≤ m

/-- Every thread has its calls in the order of the hooks. -/
def State.Ranked (s : State) : Prop :=
  ∀ (i : ℕ) frames, s.threads[i]? = some frames → s.Stacked frames

/-- The steps all calls still take at most, and the hooks whose `inner` is not set. -/
def State.rank (s : State) : ℕ :=
  (s.threads.map fun frames => (frames.map Frame.rank).sum).sum +
    s.hooks.countP fun e => !e.ready

section Order

variable {s t : State} {l : List Event} {i k : ℕ} {top frame : Frame}
  {frames rest news : List Frame} {e e' : Hook} {events : List Event} {a : Action}

/-- The hooks stay, and keep their strategies. -/
theorem hooks_of_step (hstep : s.step a = some t) (hget : s.hooks[k]? = some e) :
    ∃ e', t.hooks[k]? = some e' ∧ e'.strategy = e.strategy := by
  have hset : ∀ {j : ℕ} {c c' : Hook}, s.hooks[j]? = some c → c'.strategy = c.strategy →
      ∃ e', (s.hooks.set j c')[k]? = some e' ∧ e'.strategy = e.strategy := by
    intro j c c' hj hstrategy
    by_cases hjk : j = k
    · subst hjk
      obtain rfl := Option.some.inj (hget.symm.trans hj)
      exact ⟨c', Pool.getElem?_set_of_getElem? hj, hstrategy⟩
    · exact ⟨e, (List.getElem?_set_ne hjk).trans hget, rfl⟩
  cases a with
  | exchange =>
    obtain rfl := Option.some.inj hstep
    exact ⟨e, Pool.getElem?_append_of_getElem? hget, rfl⟩
  | record j =>
    obtain ⟨c, hj, rfl⟩ := Option.map_eq_some_iff.1 hstep
    exact hset hj rfl
  | target =>
    obtain rfl := Option.some.inj hstep
    exact ⟨e, hget, rfl⟩
  | original =>
    simp only [State.step] at hstep
    split_ifs at hstep
    obtain rfl := Option.some.inj hstep
    exact ⟨e, hget, rfl⟩
  | callTarget =>
    obtain ⟨_, _, -, -, rfl⟩ := call_eq_some.1 hstep
    exact ⟨e, hget, rfl⟩
  | callOriginal =>
    simp only [State.step] at hstep
    split_ifs at hstep
    obtain ⟨_, _, -, -, rfl⟩ := call_eq_some.1 hstep
    exact ⟨e, hget, rfl⟩
  | step =>
    obtain ⟨top, rest, -, hstep⟩ := step_eq_some.1 hstep
    rcases stepFrame_cases hstep with ⟨-, rfl⟩ | ⟨j, c, c', news, hj, hturn, rfl⟩
    · exact ⟨e, hget, rfl⟩
    · exact hset hj hturn.strategy_eq

/-- The hooks keep their strategies. -/
theorem isMut_of_step (hstep : s.step a = some t) (hget : s.hooks[k]? = some e) :
    t.isMut k = s.isMut k := by
  obtain ⟨e', hget', hstrategy⟩ := hooks_of_step hstep hget
  simp [State.isMut, hget, hget', hstrategy]

/-- The threads that a step does not run keep their order. -/
theorem State.Stacked.step (h : s.Stacked frames) (hvalid : ∀ frame ∈ frames, s.Valid frame)
    (hstep : s.step a = some t) : t.Stacked frames := by
  refine List.Pairwise.imp_of_mem (fun {above below} _ hbelow h m hm => h m ?_) h
  rw [← hm]
  cases below with
  | running k =>
    obtain ⟨e, hget, -⟩ := hvalid _ hbelow k rfl
    simp only [State.held, isMut_of_step hstep hget]
  | _ => rfl

/-- What bypasses a hook reaches no newer one. -/
theorem Frame.reach_bypass_le (e : Hook) (k : ℕ) : (e.bypass k).reach ≤ k := by
  unfold Hook.bypass
  split_ifs
  · rw [Frame.reach_ofNext]
  · exact le_rfl

/-- A turn gets no further up. -/
theorem Turn.reach_le (h : Turn k e top e' news events) :
    news = [] ∨ ∃ frame, news = [frame] ∧ frame.reach ≤ top.reach := by
  have hbypass := Frame.reach_bypass_le e k
  cases h with
  | finish => exact Or.inl rfl
  | enter | lock | load | take | store => exact Or.inr ⟨_, rfl, le_rfl⟩
  | pass | miss => exact Or.inr ⟨_, rfl, hbypass.trans (Nat.le_succ k)⟩
  | leave =>
    refine Or.inr ⟨_, rfl, ?_⟩
    rw [Frame.reach_ofNext]
    exact Nat.le_succ k
  | forward =>
    refine Or.inr ⟨_, rfl, ?_⟩
    rw [Frame.reach_ofNext]
    rfl

/-- An ordered step keeps the order of the thread that takes it. -/
theorem State.Ranked.step (h : s.Ranked) (hinv : Inv l s) (hordered : Ordered s a)
    (hstep : s.step a = some t) : t.Ranked := by
  have hold : ∀ (j : ℕ) frames, s.threads[j]? = some frames → t.Stacked frames :=
    fun j frames hj => (h j frames hj).step (hinv.valid j frames hj) hstep
  have happend : ∀ frame, t.threads = s.threads ++ [[frame]] → t.Ranked := by
    intro frame ht j frames hj
    rw [ht] at hj
    rcases Pool.getElem?_of_append hj with ⟨-, rfl⟩ | hj
    · exact List.pairwise_singleton _ _
    · exact hold j frames hj
  have hset : ∀ {i frames}, t.threads = s.threads.set i frames → t.Stacked frames → t.Ranked := by
    intro i frames ht hframes j frames' hj
    rw [ht] at hj
    rcases Pool.mem_of_getElem?_set hj with ⟨-, rfl⟩ | ⟨-, hj⟩
    · exact hframes
    · exact hold j frames' hj
  have hcall : ∀ {i frame}, s.call i frame = some t →
      (∀ m ∈ s.locks i, frame.reach ≤ m) → t.Ranked := by
    intro i frame hcall hlocks
    obtain ⟨top, rest, hget, -, rfl⟩ := call_eq_some.1 hcall
    refine hset rfl (List.Pairwise.cons (fun below hbelow m hm => hlocks m ?_) (hold i _ hget))
    rw [State.locks, hget, Option.getD_some]
    exact List.mem_filterMap.2 ⟨below, hbelow, hm⟩
  cases a with
  | exchange =>
    obtain rfl := Option.some.inj hstep
    exact hold
  | record =>
    obtain ⟨e, -, rfl⟩ := Option.map_eq_some_iff.1 hstep
    exact hold
  | target =>
    obtain rfl := Option.some.inj hstep
    exact happend _ rfl
  | original =>
    simp only [State.step] at hstep
    split_ifs at hstep
    obtain rfl := Option.some.inj hstep
    exact happend _ rfl
  | callTarget i =>
    refine hcall hstep fun m hm => ?_
    rw [show s.locks i = [] from hordered] at hm
    cases hm
  | callOriginal i k =>
    simp only [State.step] at hstep
    split_ifs at hstep
    exact hcall hstep hordered
  | step i =>
    obtain ⟨top, rest, hget, hstep'⟩ := step_eq_some.1 hstep
    have hrest := hold i _ hget
    rcases stepFrame_cases hstep' with ⟨-, rfl⟩ | ⟨k, e, e', news, -, hturn, rfl⟩
    · exact hset rfl hrest.tail
    · refine hset rfl ?_
      rcases hturn.reach_le with rfl | ⟨frame, rfl, hreach⟩
      · exact hrest.tail
      · exact List.Pairwise.cons (fun below hbelow m hm =>
          hreach.trans (List.rel_of_pairwise_cons hrest hbelow m hm)) hrest.tail

/-- A turn leaves less to do. -/
theorem Turn.rank_lt (h : Turn k e top e' news events) :
    (news.map Frame.rank).sum < top.rank := by
  have hbypass : (e.bypass k).rank ≤ 6 * k + 2 := by
    unfold Hook.bypass
    split_ifs
    · rw [Frame.rank_ofNext]
      omega
    · exact le_rfl
  have hnext := Frame.rank_ofNext k
  cases h with
  | enter | lock | load | take | store | finish => simp [Frame.rank]
  | pass | miss =>
    simp only [List.map_singleton, List.sum_singleton, Frame.rank] at hbypass ⊢
    omega
  | leave | forward =>
    simp only [List.map_singleton, List.sum_singleton, Frame.rank] at hnext ⊢
    omega

/-- A thread changes when it takes a step, or what runs in it calls. -/
theorem threads_of_step (hstep : s.step a = some t) (hget : s.threads[i]? = some (top :: rest)) :
    t.threads[i]? = some (top :: rest) ∨ a = .step i ∨ top.isRunning = true := by
  have hset : ∀ {j frames}, j ≠ i → t.threads = s.threads.set j frames →
      t.threads[i]? = some (top :: rest) := by
    intro j frames hji ht
    rw [ht, List.getElem?_set_ne hji, hget]
  have hcall : ∀ {j frame}, s.call j frame = some t →
      t.threads[i]? = some (top :: rest) ∨ a = .step i ∨ top.isRunning = true := by
    intro j frame hcall
    obtain ⟨top', rest', hj, hrunning, rfl⟩ := call_eq_some.1 hcall
    by_cases hji : j = i
    · subst hji
      obtain ⟨rfl, rfl⟩ := List.cons.inj (Option.some.inj (hget.symm.trans hj))
      exact Or.inr (Or.inr hrunning)
    · exact Or.inl (hset hji rfl)
  cases a with
  | exchange =>
    obtain rfl := Option.some.inj hstep
    exact Or.inl hget
  | record =>
    obtain ⟨e, -, rfl⟩ := Option.map_eq_some_iff.1 hstep
    exact Or.inl hget
  | target =>
    obtain rfl := Option.some.inj hstep
    exact Or.inl (Pool.getElem?_append_of_getElem? hget)
  | original =>
    simp only [State.step] at hstep
    split_ifs at hstep
    obtain rfl := Option.some.inj hstep
    exact Or.inl (Pool.getElem?_append_of_getElem? hget)
  | callTarget => exact hcall hstep
  | callOriginal =>
    simp only [State.step] at hstep
    split_ifs at hstep
    exact hcall hstep
  | step j =>
    by_cases hji : j = i
    · exact Or.inr (Or.inl (congrArg Action.step hji))
    · obtain ⟨_, _, -, hstep⟩ := step_eq_some.1 hstep
      rcases stepFrame_cases hstep with ⟨-, rfl⟩ | ⟨_, _, _, _, -, -, rfl⟩
      · exact Or.inl (hset hji rfl)
      · exact Or.inl (hset hji rfl)

/-- A thread that gets to a mutex it holds never goes on. -/
theorem blocked_of_reentry {as bs : List Action}
    (hrun : Transition.run State.step .init as = some s) (hmut : s.isMut k = true)
    (hget : s.threads[i]? = some (.entry k :: rest)) (hmem : .running k ∈ rest)
    (hrun' : Transition.run State.step s bs = some t) :
    t.threads[i]? = some (.entry k :: rest) := by
  have hs : (∃ l, Inv l s) ∧ s.isMut k = true ∧ s.threads[i]? = some (.entry k :: rest) :=
    ⟨⟨_, inv_of_run hrun⟩, hmut, hget⟩
  refine (Transition.run_invariant_of_step (I := fun s : State => (∃ l, Inv l s) ∧
    s.isMut k = true ∧ s.threads[i]? = some (.entry k :: rest)) ?_ hs hrun').2.2
  rintro s a t ⟨⟨l, h⟩, hmut, hget⟩ hstep
  obtain ⟨e, hhook, hstrategy⟩ := isMut_eq_true.1 hmut
  refine ⟨⟨_, h.step hstep⟩, (isMut_of_step hstep hhook).trans hmut, ?_⟩
  have hlocked := (h.locked_iff hhook hstrategy).2 ⟨i, _, hget, List.mem_cons_of_mem _ hmem⟩
  rcases threads_of_step hstep hget with ht | rfl | hrunning
  · exact ht
  · obtain ⟨top, rest', hget', hstep⟩ := step_eq_some.1 hstep
    obtain ⟨rfl, rfl⟩ := List.cons.inj (Option.some.inj (hget.symm.trans hget'))
    obtain ⟨e', hhook', hstep⟩ := Option.bind_eq_some_iff.1 hstep
    obtain rfl := Option.some.inj (hhook.symm.trans hhook')
    simp only [hstrategy, hlocked, if_true] at hstep
    cases hstep
  · cases hrunning

end Order

/-- The closure of a `hook_mut` that calls the target. -/
theorem blocked_of_reentry_sample : ∃ s, Transition.run State.step .init
    [.exchange false .hookMut, .record 0, .target, .step 0, .callTarget 0] = some s ∧
      ∀ bs t, Transition.run State.step s bs = some t →
        t.threads[0]? = some [.entry 0, .running 0] := by
  have hrun : Transition.run State.step .init
      [.exchange false .hookMut, .record 0, .target, .step 0, .callTarget 0] =
        some ⟨[⟨false, .hookMut, true, true, true, true⟩], [[.entry 0, .running 0]]⟩ := by decide
  exact ⟨_, hrun, fun bs t hrun' =>
    blocked_of_reentry hrun (by decide) rfl List.mem_cons_self hrun'⟩

end HookCalls

end Diversion
