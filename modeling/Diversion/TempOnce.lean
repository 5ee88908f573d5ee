import Diversion.Lib.Pool
import Diversion.Lib.Transition
import Mathlib.Data.Int.Notation
import Mathlib.Order.Nat
import Mathlib.Tactic.Common

/-!
# A hook that runs once

The closure that `TemporaryHook::hook_once` installs (src/hook/temp.rs), called by any number
of threads while other hooks of the target come and go and while the handle of the hook is
dropped. The first call to take the `FnOnce` runs it. Every other call upgrades its weak
reference to the hook and goes to `call_original`, and panics if the upgrade fails.

The upgrade fails from the moment the strong count is zero, but the closure is in the list
until `Hook::drop` has removed it, and a call that has cloned it keeps it alive. A call is
pending (`Call.isPending`) when it holds a clone and has neither taken the `FnOnce` nor
upgraded. With the strong count at zero one pending call can still take the `FnOnce`, if it is
there, and the others panic. So the hook works as long as a strong count of zero leaves room
for the pending calls (`LeavesRoom`, `runsOnce_of_run`), and a run that does not leave room
can be continued to a panic (`exists_panic`).
-/

namespace Diversion

namespace Once

/-! ## State -/

/-- What a call has run. -/
inductive Outcome where
  | once
  | next (id : ℕ)
  | original
deriving DecidableEq, Repr

/-- The outcome of a call of the next hook, or of the original if there is none. -/
def Outcome.ofNext : Option ℕ → Outcome
  | some id => .next id
  | none => .original

/-- Where a call is. -/
inductive Call where
  /-- Before the lookup of the first closure, or of the next one after that of `via`. -/
  | entry (via : Option ℕ)
  /-- Calls the original function under the read lock, the list being empty. -/
  | direct
  /-- Holds a clone of the closure. -/
  | cloned
  /-- Has loaded the flag as set. -/
  | taking
  /-- Has taken the `FnOnce`. -/
  | storing
  | running
  | upgrading
  /-- In `call_original`, with an upgraded reference. -/
  | calling
  /-- In `call_original_slow`. -/
  | slow
  | reading
  | looked (next : Option ℕ)
  | forwarding (next : Option ℕ)
  /-- Drops the upgraded reference. -/
  | releasing (next : Option ℕ)
  /-- Runs `Hook::drop`. -/
  | dropping (next : Option ℕ)
  | finished (outcome : Outcome)
  | panicked
deriving DecidableEq, Repr

namespace Call

/-- Has taken the `FnOnce`. -/
def isOnce : Call → Bool
  | storing | running | finished .once => true
  | _ => false

/-- The call has found nothing to call and upgrades next. -/
def isUpgrading : Call → Bool
  | upgrading => true
  | _ => false

/-- Holds a clone of the closure and has neither taken the `FnOnce` nor upgraded. -/
def isPending : Call → Bool
  | cloned | taking | upgrading => true
  | _ => false

/-- Holds a strong reference to the hook. -/
def holdsHook : Call → Bool
  | calling | slow | reading | looked _ | forwarding _ | releasing _ => true
  | _ => false

/-- The call has panicked. -/
def isPanicked : Call → Bool
  | panicked => true
  | _ => false

/-- Takes the list lock next. -/
def locks : Call → Bool
  | entry _ | slow => true
  | _ => false

/-- A bound on the steps the call will still take. -/
def rank : Call → ℕ
  | entry _ => 11
  | cloned => 10
  | taking => 9
  | upgrading => 8
  | calling => 7
  | slow => 6
  | reading => 5
  | looked _ => 4
  | forwarding _ => 3
  | storing | releasing _ => 2
  | direct | running | dropping _ => 1
  | finished _ | panicked => 0

end Call

/-- Where `Hook::drop` is. -/
inductive Drop where
  | alive
  | started
  | uncounted
  | locked
  | removed
  | gone
deriving DecidableEq, Repr

/-- The drop holds the list lock exclusively. -/
def Drop.holdsLock : Drop → Bool
  | locked | removed => true
  | _ => false

/-- The list of the target, one hook of it with its strong count, and the calls. -/
structure State where
  /-- The hooks in the list, newest first. -/
  list : List ℕ
  extraCount : ℤ
  /-- Another hook holds the list lock exclusively. -/
  others : Bool
  readers : ℕ
  strong : ℕ
  /-- The strong references that are not those of the calls. -/
  handles : ℕ
  drop : Drop
  /-- The `FnOnce` has not been taken. -/
  hookFn : Bool
  flag : Bool
  calls : List Call
deriving DecidableEq, Repr

/-- `hook_once` has returned, with the hooks `older` in the list. -/
def State.init (hook : ℕ) (older : List ℕ) : State where
  list := hook :: older
  extraCount := older.length
  others := false
  readers := 0
  strong := 1
  handles := 1
  drop := .alive
  hookFn := true
  flag := true
  calls := []

/-! ## Steps -/

/-- One step of one thread. -/
inductive Action where
  /-- A thread calls the target, or the hook `via` calls `call_original`. -/
  | call (via : Option ℕ)
  /-- The next step of call `c`. -/
  | step (c : ℕ)
  /-- A strong reference is cloned, or a weak one is upgraded. -/
  | clone
  /-- A strong reference is dropped. -/
  | release
  /-- The next step of `Hook::drop`. -/
  | drop
  | otherLock
  | otherPush (id : ℕ)
  | otherRemove (id : ℕ)
  | otherUnlock
  | otherCount
  | otherUncount
deriving DecidableEq, Repr

/-- The hook after `id` in the list. -/
def nextOf (id : ℕ) : List ℕ → Option ℕ
  | [] => none
  | x :: xs => if x = id then xs.head? else nextOf id xs

namespace State

/-- Move one call. -/
def setCall (s : State) (c : ℕ) (call : Call) : State :=
  { s with calls := s.calls.set c call }

/-- The list lock is held exclusively. -/
def writing (s : State) : Bool :=
  s.others || s.drop.holdsLock

/-- The hook a call finds in the list. -/
def found (s : State) : Option ℕ → Option ℕ
  | none => s.list.head?
  | some id => nextOf id s.list

/-- The last strong reference starts the drop. -/
def releaseStrong (s : State) : State :=
  { s with strong := s.strong - 1, drop := if s.strong = 1 then .started else s.drop }

/-- The next step of a call, `none` while it waits for the list lock. -/
def stepCall (hook : ℕ) (s : State) (c : ℕ) : Call → Option State
  | .entry via =>
    if s.writing then none
    else
      match s.found via, via with
      | some id, _ =>
        if id = hook then some (s.setCall c .cloned)
        else some (s.setCall c (.finished (.next id)))
      -- the guard of the thunk's `match` lives until the original function has returned
      | none, none => some ({ s with readers := s.readers + 1 }.setCall c .direct)
      | none, some _ => some (s.setCall c (.finished .original))
  | .direct => some ({ s with readers := s.readers - 1 }.setCall c (.finished .original))
  | .cloned => if s.flag then some (s.setCall c .taking) else some (s.setCall c .upgrading)
  | .taking =>
    if s.hookFn then some ({ s with hookFn := false }.setCall c .storing)
    else some (s.setCall c .upgrading)
  | .storing => some ({ s with flag := false }.setCall c .running)
  | .running => some (s.setCall c (.finished .once))
  | .upgrading =>
    if s.strong = 0 then some (s.setCall c .panicked)
    else some ({ s with strong := s.strong + 1 }.setCall c .calling)
  | .calling =>
    if 0 < s.extraCount then some (s.setCall c .slow) else some (s.setCall c (.forwarding none))
  | .slow =>
    if s.writing then none else some ({ s with readers := s.readers + 1 }.setCall c .reading)
  | .reading => some (s.setCall c (.looked (nextOf hook s.list)))
  | .looked next => some ({ s with readers := s.readers - 1 }.setCall c (.forwarding next))
  | .forwarding next => some (s.setCall c (.releasing next))
  | .releasing next =>
    if s.strong = 1 then some (s.releaseStrong.setCall c (.dropping next))
    else some (s.releaseStrong.setCall c (.finished (.ofNext next)))
  | .dropping next =>
    if s.drop = .gone then some (s.setCall c (.finished (.ofNext next))) else none
  | .finished _ => none
  | .panicked => none

/-- `Hook::drop`. -/
def stepDrop (hook : ℕ) (s : State) : Option State :=
  match s.drop with
  | .alive => none
  | .started => some { s with extraCount := s.extraCount - 1, drop := .uncounted }
  | .uncounted =>
    if s.writing = false ∧ s.readers = 0 then some { s with drop := .locked } else none
  | .locked => some { s with list := s.list.erase hook, drop := .removed }
  | .removed => some { s with drop := .gone }
  | .gone => none

/-- `none` where the step is not enabled. -/
def step (hook : ℕ) (s : State) : Action → Option State
  | .call via => some { s with calls := s.calls ++ [.entry via] }
  | .step c => (s.calls[c]?).bind (s.stepCall hook c)
  | .clone =>
    if 0 < s.strong then
      some { s with strong := s.strong + 1, handles := s.handles + 1 }
    else none
  | .release =>
    if 0 < s.handles then some { s.releaseStrong with handles := s.handles - 1 } else none
  | .drop => s.stepDrop hook
  | .otherLock =>
    if s.writing = false ∧ s.readers = 0 then some { s with others := true } else none
  | .otherPush id =>
    if s.others ∧ id ≠ hook then some { s with list := id :: s.list } else none
  | .otherRemove id =>
    if s.others ∧ id ≠ hook then some { s with list := s.list.erase id } else none
  | .otherUnlock => if s.others then some { s with others := false } else none
  | .otherCount => some { s with extraCount := s.extraCount + 1 }
  | .otherUncount => some { s with extraCount := s.extraCount - 1 }

/-! ## What is asked of a run -/

/-- The `FnOnce` runs at most once, every other call goes on to the next hook or to the
original function, and no call panics. -/
structure RunsOnce (hook : ℕ) (s : State) : Prop where
  once : s.calls.countP Call.isOnce ≤ 1
  noPanic : Call.panicked ∉ s.calls
  /-- A call has finished, waits for the list lock or for the drop of the hook, or can take a
  step that brings it closer to its end. -/
  completes : ∀ c call, s.calls[c]? = some call →
    (∃ outcome, call = .finished outcome) ∨ (call.locks = true ∧ s.writing = true) ∨
      ((∃ next, call = .dropping next) ∧ s.drop ≠ .gone) ∨
      ∃ t call', s.step hook (.step c) = some t ∧ t.calls[c]? = some call' ∧
        call'.rank < call.rank

/-- The calls that hold a clone and have neither taken the `FnOnce` nor upgraded. -/
def pending (s : State) : ℕ :=
  s.calls.countP Call.isPending

/-- The calls that can still take the `FnOnce`. -/
def room (s : State) : ℕ :=
  if s.hookFn then 1 else 0

/-- The action drops the last strong reference. -/
def isLastRelease (s : State) : Action → Bool
  | .release => s.strong = 1
  | .step c =>
    match s.calls[c]? with
    | some (.releasing _) => s.strong = 1
    | _ => false
  | _ => false

/-- The action clones the closure of the hook when there is no strong reference. -/
def isLateClone (hook : ℕ) (s : State) : Action → Bool
  | .step c =>
    match s.calls[c]? with
    | some (.entry via) => s.strong = 0 ∧ s.found via = some hook
    | _ => false
  | _ => false

/-- A strong count of zero leaves room for the pending calls. -/
def LeavesRoom (hook : ℕ) (s : State) (a : Action) : Prop :=
  (s.isLastRelease a → s.pending ≤ s.room) ∧ (s.isLateClone hook a → s.pending + 1 ≤ s.room)

instance (hook : ℕ) (s : State) (a : Action) : Decidable (LeavesRoom hook s a) :=
  inferInstanceAs (Decidable (_ ∧ _))

/-! ## The invariant -/

/-- The `FnOnce` is in its place or one call has it, the fallback is taken only when it is
gone, and a strong count of zero leaves room for the pending calls. -/
structure Inv (s : State) : Prop where
  taken : s.calls.countP Call.isOnce + s.room = 1
  fresh : s.hookFn = true → s.flag = true ∧ s.calls.countP Call.isUpgrading = 0
  room : s.strong = 0 → s.pending ≤ s.room
  noPanic : s.calls.countP Call.isPanicked = 0
  strong : s.strong = s.handles + s.calls.countP Call.holdsHook
  drop : s.drop = .alive ↔ 0 < s.strong

section Inv

variable {hook : ℕ} {s t : State} {c : ℕ} {call call' : Call} {a : Action}

/-- It holds for a new hook. -/
theorem inv_init (hook : ℕ) (older : List ℕ) : Inv (init hook older) where
  taken := rfl
  fresh _ := ⟨rfl, rfl⟩
  room h := absurd h (by simp [init])
  noPanic := rfl
  strong := rfl
  drop := iff_of_true rfl Nat.one_pos

/-- The list, its lock and the counter do not matter. -/
theorem Inv.frame (h : Inv s) (list : List ℕ) (extraCount : ℤ) (others : Bool) (readers : ℕ) :
    Inv { s with list, extraCount, others, readers } :=
  ⟨h.taken, h.fresh, h.room, h.noPanic, h.strong, h.drop⟩

/-- A step of a call that neither takes the `FnOnce` nor touches the strong count. -/
theorem Inv.setCall (h : Inv s) (hget : s.calls[c]? = some call)
    (honce : call'.isOnce = call.isOnce)
    (hupgrading : call'.isUpgrading = true → call.isUpgrading = true ∨ s.hookFn = false)
    (hpending : s.strong = 0 → call'.isPending = true →
      call.isPending = true ∨ s.pending + 1 ≤ s.room)
    (hpanicked : call'.isPanicked = false) (hholds : call'.holdsHook = call.holdsHook) :
    Inv (s.setCall c call') := by
  refine ⟨?_, fun hfn => ⟨(h.fresh hfn).1, ?_⟩, fun hzero => ?_, ?_, ?_, h.drop⟩
  · exact (congrArg (· + s.room) (Pool.countP_set_of_eq hget honce)).trans h.taken
  · have hle := Pool.countP_set_le (b := call') hget fun hnew =>
      (hupgrading hnew).resolve_right (by rw [show s.hookFn = true from hfn]; simp)
    exact Nat.le_zero.1 (hle.trans (h.fresh hfn).2.le)
  · by_cases hnew : call'.isPending = true → call.isPending = true
    · exact (Pool.countP_set_le hget hnew).trans (h.room hzero)
    · rw [Classical.not_imp] at hnew
      exact (Pool.countP_set_le_succ hget).trans ((hpending hzero hnew.1).resolve_left hnew.2)
  · have hle := Pool.countP_set_le (p := Call.isPanicked) (b := call') hget
      fun hnew => by simp [hpanicked] at hnew
    exact Nat.le_zero.1 (hle.trans h.noPanic.le)
  · exact h.strong.trans (congrArg (s.handles + ·) (Pool.countP_set_of_eq hget hholds).symm)

/-- A step of a call to a point where it is not pending. -/
theorem Inv.move (h : Inv s) (hget : s.calls[c]? = some call)
    (honce : call'.isOnce = call.isOnce)
    (hnew : call'.isUpgrading = false ∧ call'.isPending = false ∧ call'.isPanicked = false)
    (hholds : call'.holdsHook = call.holdsHook) : Inv (s.setCall c call') :=
  h.setCall hget honce (by simp [hnew.1]) (by simp [hnew.2.1]) hnew.2.2 hholds

/-- A call takes the `FnOnce`. -/
theorem Inv.take (h : Inv s) (hget : s.calls[c]? = some .taking) (hfn : s.hookFn = true) :
    Inv ({ s with hookFn := false }.setCall c .storing) := by
  have honce := Pool.countP_set_add (p := Call.isOnce) (b := .storing) hget
  have hpending := Pool.countP_set_add (p := Call.isPending) (b := .storing) hget
  have htaken := h.taken
  simp only [Call.isOnce, Call.isPending, Bool.false_eq_true, if_false, if_true, State.room, hfn]
    at honce hpending htaken
  refine ⟨?_, fun hfalse => (by cases hfalse), fun hzero => ?_, ?_, ?_, h.drop⟩
  · exact honce.trans htaken
  · have hroom := h.room hzero
    simp only [State.pending, State.room, hfn, if_true] at hroom
    exact Nat.le_of_succ_le_succ (hpending.le.trans hroom)
  · exact (Pool.countP_set_of_eq (b := .storing) hget rfl).trans h.noPanic
  · exact h.strong.trans
      (congrArg (s.handles + ·) (Pool.countP_set_of_eq (b := .storing) hget rfl).symm)

/-- A call upgrades its weak reference. -/
theorem Inv.upgrade (h : Inv s) (hget : s.calls[c]? = some .upgrading) (hpos : 0 < s.strong) :
    Inv ({ s with strong := s.strong + 1 }.setCall c .calling) := by
  have hholds := Pool.countP_set_add (p := Call.holdsHook) (b := .calling) hget
  simp only [Call.holdsHook, Bool.false_eq_true, if_false, if_true, Nat.add_zero] at hholds
  refine ⟨?_, fun hfn => ⟨(h.fresh hfn).1, ?_⟩, fun hzero => absurd hzero (Nat.succ_ne_zero _),
    ?_, ?_, ?_⟩
  · exact (congrArg (· + s.room) (Pool.countP_set_of_eq (b := .calling) hget rfl)).trans h.taken
  · have hle := Pool.countP_set_le (p := Call.isUpgrading) (b := .calling) hget fun _ => rfl
    exact Nat.le_zero.1 (hle.trans (h.fresh hfn).2.le)
  · exact (Pool.countP_set_of_eq (b := .calling) hget rfl).trans h.noPanic
  · have := h.strong
    simp only [State.setCall]
    omega
  · exact h.drop.trans (iff_of_true hpos (Nat.succ_pos _))

/-- A reference is dropped. -/
theorem Inv.releaseStrong (h : Inv s) (hpos : 0 < s.strong)
    (hroom : s.strong = 1 → s.pending ≤ s.room) :
    (s.releaseStrong.strong = 0 → s.pending ≤ s.room) ∧
      (s.releaseStrong.drop = .alive ↔ 0 < s.releaseStrong.strong) := by
  refine ⟨fun hzero => hroom (by simp only [State.releaseStrong] at hzero; omega), ?_⟩
  simp only [State.releaseStrong]
  split_ifs with hone
  · simp [hone]
  · exact h.drop.trans (by omega)

/-- A handle is dropped, the last one only if the pending calls have room. -/
theorem Inv.release (h : Inv s) (hpos : 0 < s.handles)
    (hroom : s.strong = 1 → s.pending ≤ s.room) :
    Inv { s.releaseStrong with handles := s.handles - 1 } := by
  have hstrong := h.strong
  obtain ⟨hzero, hdrop⟩ := h.releaseStrong (by omega) hroom
  refine ⟨h.taken, h.fresh, hzero, h.noPanic, ?_, hdrop⟩
  simp only [State.releaseStrong]
  omega

/-- A call drops the reference it has upgraded. -/
theorem Inv.callRelease {next : Option ℕ} (h : Inv s) (hget : s.calls[c]? = some (.releasing next))
    (hroom : s.strong = 1 → s.pending ≤ s.room) (hnew : call' = .dropping next ∨
      call' = .finished (.ofNext next)) : Inv (s.releaseStrong.setCall c call') := by
  have hstrong := h.strong
  have hholds := Pool.countP_set_add (p := Call.holdsHook) (b := call') hget
  have hsame : call'.isOnce = false ∧ call'.isUpgrading = false ∧ call'.isPending = false ∧
      call'.isPanicked = false ∧ call'.holdsHook = false := by
    rcases hnew with rfl | rfl
    · exact ⟨rfl, rfl, rfl, rfl, rfl⟩
    · cases next <;> exact ⟨rfl, rfl, rfl, rfl, rfl⟩
  obtain ⟨hsonce, hsup, hspending, hspanicked, hsholds⟩ := hsame
  rw [hsholds] at hholds
  simp only [Call.holdsHook, Bool.false_eq_true, if_false, if_true] at hholds
  obtain ⟨hzero, hdrop⟩ := h.releaseStrong (by omega) hroom
  refine ⟨?_, fun hfn => ⟨(h.fresh hfn).1, ?_⟩, fun h0 => ?_, ?_, ?_, hdrop⟩
  · exact (congrArg (· + s.room) (Pool.countP_set_of_eq hget hsonce)).trans h.taken
  · exact (Pool.countP_set_of_eq hget hsup).trans (h.fresh hfn).2
  · exact (Pool.countP_set_of_eq hget hspending).le.trans (hzero h0)
  · exact (Pool.countP_set_of_eq hget hspanicked).trans h.noPanic
  · simp only [State.releaseStrong, State.setCall]
    omega

/-! ## Steps keep the invariant -/

/-- A call looks the closure up. -/
theorem Inv.stepEntry {via : Option ℕ} (h : Inv s) (hget : s.calls[c]? = some (.entry via))
    (hclone : s.strong = 0 → s.found via = some hook → s.pending + 1 ≤ s.room)
    (hstep : s.stepCall hook c (.entry via) = some t) : Inv t := by
  simp only [stepCall] at hstep
  split_ifs at hstep
  split at hstep
  · split_ifs at hstep with hid
    · obtain rfl := Option.some.inj hstep
      exact h.setCall hget rfl (by simp [Call.isUpgrading])
        (fun hzero _ => Or.inr (hclone hzero (by simp [*]))) rfl rfl
    · obtain rfl := Option.some.inj hstep
      exact h.move hget rfl ⟨rfl, rfl, rfl⟩ rfl
  · obtain rfl := Option.some.inj hstep
    exact (h.frame s.list s.extraCount s.others (s.readers + 1)).move hget rfl ⟨rfl, rfl, rfl⟩ rfl
  · obtain rfl := Option.some.inj hstep
    exact h.move hget rfl ⟨rfl, rfl, rfl⟩ rfl

/-- A call that is upgrading and pending with the strong count at zero would find no room. -/
theorem Inv.strong_pos (h : Inv s) (hget : s.calls[c]? = some .upgrading) : 0 < s.strong := by
  refine Nat.pos_of_ne_zero fun hzero => ?_
  have hroom := h.room hzero
  have hpending : 1 ≤ s.pending := Pool.countP_pos_of_getElem? hget rfl
  have hup : 1 ≤ s.calls.countP Call.isUpgrading := Pool.countP_pos_of_getElem? hget rfl
  cases hfn : s.hookFn with
  | true => exact absurd (h.fresh hfn).2 (by omega)
  | false =>
    rw [State.room, hfn] at hroom
    exact absurd (hpending.trans hroom) (by simp)

/-- A step of a call keeps the invariant. -/
theorem Inv.stepCall (h : Inv s) (hget : s.calls[c]? = some call)
    (hroom : LeavesRoom hook s (.step c)) (hstep : s.stepCall hook c call = some t) : Inv t := by
  cases call with
  | entry via =>
    refine h.stepEntry hget (fun hzero hfound => hroom.2 ?_) hstep
    simp [isLateClone, hget, hzero, hfound]
  | direct =>
    obtain rfl := Option.some.inj hstep
    exact (h.frame s.list s.extraCount s.others (s.readers - 1)).move hget rfl ⟨rfl, rfl, rfl⟩ rfl
  | cloned =>
    simp only [State.stepCall] at hstep
    split_ifs at hstep with hflag <;> obtain rfl := Option.some.inj hstep
    · exact h.setCall hget rfl (by simp [Call.isUpgrading]) (fun _ _ => Or.inl rfl) rfl rfl
    · refine h.setCall hget rfl (fun _ => Or.inr ?_) (fun _ _ => Or.inl rfl) rfl rfl
      exact Bool.eq_false_iff.2 fun hfn => hflag (h.fresh hfn).1
  | taking =>
    simp only [State.stepCall] at hstep
    split_ifs at hstep with hfn <;> obtain rfl := Option.some.inj hstep
    · exact h.take hget hfn
    · exact h.setCall hget rfl (fun _ => Or.inr (Bool.eq_false_iff.2 hfn))
        (fun _ _ => Or.inl rfl) rfl rfl
  | storing =>
    obtain rfl := Option.some.inj hstep
    have honce : 1 ≤ s.calls.countP Call.isOnce := Pool.countP_pos_of_getElem? hget rfl
    have hfn : s.hookFn = false := by
      have htaken := h.taken
      rw [State.room] at htaken
      cases hfn : s.hookFn with
      | true => simp only [hfn, if_true] at htaken; omega
      | false => rfl
    have hinv : Inv { s with flag := false } :=
      ⟨h.taken, fun hfn' => absurd hfn' (by simp [hfn]), h.room, h.noPanic, h.strong, h.drop⟩
    exact hinv.move hget rfl ⟨rfl, rfl, rfl⟩ rfl
  | running | forwarding next =>
    obtain rfl := Option.some.inj hstep
    exact h.move hget rfl ⟨rfl, rfl, rfl⟩ rfl
  | upgrading =>
    have hpos := h.strong_pos hget
    simp only [State.stepCall, hpos.ne', if_false] at hstep
    obtain rfl := Option.some.inj hstep
    exact h.upgrade hget hpos
  | calling =>
    simp only [State.stepCall] at hstep
    split_ifs at hstep <;> obtain rfl := Option.some.inj hstep <;>
      exact h.move hget rfl ⟨rfl, rfl, rfl⟩ rfl
  | slow =>
    simp only [State.stepCall] at hstep
    split_ifs at hstep
    obtain rfl := Option.some.inj hstep
    exact (h.frame s.list s.extraCount s.others (s.readers + 1)).move hget rfl ⟨rfl, rfl, rfl⟩ rfl
  | reading =>
    obtain rfl := Option.some.inj hstep
    exact h.move hget rfl ⟨rfl, rfl, rfl⟩ rfl
  | looked next =>
    obtain rfl := Option.some.inj hstep
    exact (h.frame s.list s.extraCount s.others (s.readers - 1)).move hget rfl ⟨rfl, rfl, rfl⟩ rfl
  | releasing next =>
    have hlast : s.strong = 1 → s.pending ≤ s.room := fun hone =>
      hroom.1 (by simp [isLastRelease, hget, hone])
    simp only [State.stepCall] at hstep
    split_ifs at hstep <;> obtain rfl := Option.some.inj hstep
    · exact h.callRelease hget hlast (Or.inl rfl)
    · exact h.callRelease hget hlast (Or.inr rfl)
  | dropping next =>
    simp only [State.stepCall] at hstep
    split_ifs at hstep
    obtain rfl := Option.some.inj hstep
    cases next <;>
      exact h.move hget rfl ⟨rfl, rfl, rfl⟩ rfl
  | finished | panicked => cases hstep

/-- So does one of the drop. -/
theorem Inv.stepDrop (h : Inv s) (hstep : s.stepDrop hook = some t) : Inv t := by
  have hdrop : ∀ (list : List ℕ) (extraCount : ℤ) (drop : Drop), s.drop ≠ .alive →
      drop ≠ .alive → Inv { s with list, extraCount, drop } := fun list extraCount drop hold hnew =>
    ⟨h.taken, h.fresh, h.room, h.noPanic, h.strong,
      iff_of_false hnew fun hpos => hold (h.drop.2 hpos)⟩
  unfold State.stepDrop at hstep
  cases hphase : s.drop with
  | alive | gone => simp [hphase] at hstep
  | uncounted =>
    simp only [hphase] at hstep
    split_ifs at hstep
    obtain rfl := Option.some.inj hstep
    exact hdrop s.list s.extraCount _ (by simp [hphase]) (by simp)
  | started | locked | removed =>
    simp only [hphase] at hstep
    obtain rfl := Option.some.inj hstep
    exact hdrop _ _ _ (by simp [hphase]) (by simp)

/-- Every step that leaves room keeps the invariant. -/
theorem Inv.step (h : Inv s) (hroom : LeavesRoom hook s a) (hstep : s.step hook a = some t) :
    Inv t := by
  cases a with
  | call via =>
    obtain rfl := Option.some.inj hstep
    have hcount : ∀ p : Call → Bool, p (.entry via) = false →
        (s.calls ++ [Call.entry via]).countP p = s.calls.countP p := fun p hp => by simp [hp]
    refine ⟨?_, fun hfn => ⟨(h.fresh hfn).1, ?_⟩, fun hzero => ?_, ?_, ?_, h.drop⟩
    · exact (congrArg (· + s.room) (hcount Call.isOnce rfl)).trans h.taken
    · exact (hcount Call.isUpgrading rfl).trans (h.fresh hfn).2
    · exact (hcount Call.isPending rfl).le.trans (h.room hzero)
    · exact (hcount Call.isPanicked rfl).trans h.noPanic
    · exact h.strong.trans (congrArg (s.handles + ·) (hcount Call.holdsHook rfl).symm)
  | step c =>
    obtain ⟨call, hget, hstep⟩ := Option.bind_eq_some_iff.1 hstep
    exact h.stepCall hget hroom hstep
  | clone =>
    simp only [State.step] at hstep
    split_ifs at hstep with hpos
    obtain rfl := Option.some.inj hstep
    have hstrong := h.strong
    refine ⟨h.taken, h.fresh, fun hzero => absurd hzero (Nat.succ_ne_zero _), h.noPanic, ?_,
      h.drop.trans (iff_of_true hpos (Nat.succ_pos _))⟩
    simp only
    omega
  | release =>
    simp only [State.step] at hstep
    split_ifs at hstep with hpos
    obtain rfl := Option.some.inj hstep
    exact h.release hpos fun hone => hroom.1 (by simp [isLastRelease, hone])
  | drop => exact h.stepDrop hstep
  | otherCount | otherUncount =>
    obtain rfl := Option.some.inj hstep
    exact h.frame s.list _ s.others s.readers
  | otherLock | otherPush id | otherRemove id | otherUnlock =>
    simp only [State.step] at hstep
    split_ifs at hstep
    obtain rfl := Option.some.inj hstep
    exact h.frame _ s.extraCount _ s.readers

/-! ## Progress -/

/-- A call goes on, and its rank falls. -/
theorem calls_stepCall (hstep : s.stepCall hook c call = some t) :
    ∃ call', t.calls = s.calls.set c call' ∧ call'.rank < call.rank := by
  cases call with
  | entry via =>
    simp only [State.stepCall] at hstep
    split_ifs at hstep
    split at hstep
    · split_ifs at hstep <;> obtain rfl := Option.some.inj hstep <;>
        exact ⟨_, rfl, by simp [Call.rank]⟩
    all_goals
      obtain rfl := Option.some.inj hstep
      exact ⟨_, rfl, by simp [Call.rank]⟩
  | direct | storing | running | reading | looked | forwarding =>
    obtain rfl := Option.some.inj hstep
    exact ⟨_, rfl, by simp [Call.rank]⟩
  | cloned | taking | upgrading | calling | slow | releasing | dropping =>
    simp only [State.stepCall] at hstep
    split_ifs at hstep <;> obtain rfl := Option.some.inj hstep <;>
      exact ⟨_, rfl, by simp [Call.rank]⟩
  | finished | panicked => cases hstep

/-- A call that has not finished moves on, unless it waits for the lock or for the drop. -/
theorem completes (hpanicked : call ≠ .panicked) (hget : s.calls[c]? = some call) :
    (∃ outcome, call = .finished outcome) ∨ (call.locks = true ∧ s.writing = true) ∨
      ((∃ next, call = .dropping next) ∧ s.drop ≠ .gone) ∨
      ∃ t call', s.step hook (.step c) = some t ∧ t.calls[c]? = some call' ∧
        call'.rank < call.rank := by
  cases hstep : s.stepCall hook c call with
  | some t =>
    obtain ⟨call', hcalls, hrank⟩ := calls_stepCall hstep
    refine Or.inr (Or.inr (Or.inr ⟨t, call', ?_, ?_, hrank⟩))
    · rw [step, hget]
      exact hstep
    · rw [hcalls]
      exact Pool.getElem?_set_of_getElem? hget
  | none =>
    cases call with
    | finished outcome => exact Or.inl ⟨outcome, rfl⟩
    | panicked => exact absurd rfl hpanicked
    | entry via =>
      refine Or.inr (Or.inl ⟨rfl, ?_⟩)
      simp only [State.stepCall] at hstep
      split_ifs at hstep with hwriting
      · exact hwriting
      · split at hstep
        · split_ifs at hstep
        all_goals cases hstep
    | slow =>
      refine Or.inr (Or.inl ⟨rfl, ?_⟩)
      simp only [State.stepCall] at hstep
      split_ifs at hstep with hwriting
      exact hwriting
    | dropping next =>
      refine Or.inr (Or.inr (Or.inl ⟨⟨next, rfl⟩, ?_⟩))
      simp only [State.stepCall] at hstep
      split_ifs at hstep with hgone
      exact hgone
    | direct | storing | running | reading | looked | forwarding => cases hstep
    | cloned | taking | upgrading | calling | releasing =>
      simp only [State.stepCall] at hstep
      split_ifs at hstep

/-- What the invariant says of the closure. -/
theorem Inv.runsOnce (h : Inv s) : RunsOnce hook s := by
  have hpanicked : Call.panicked ∉ s.calls := fun hmem =>
    absurd h.noPanic (Nat.ne_of_gt (List.countP_pos_iff.2 ⟨_, hmem, rfl⟩))
  refine ⟨h.taken ▸ Nat.le_add_right _ _, hpanicked, fun c call hget => ?_⟩
  exact completes (fun heq => hpanicked (heq ▸ List.mem_of_getElem? hget)) hget

end Inv

/-- In a run that leaves room, the `FnOnce` runs at most once, every other call goes on to the
next hook or to the original function, and no call panics. -/
theorem runsOnce_of_run {hook : ℕ} {older : List ℕ} {as : List Action} {s : State}
    (hrun : Transition.run (step hook) (init hook older) as = some s)
    (hroom : Transition.Meets (step hook) (LeavesRoom hook) (init hook older) as) :
    RunsOnce hook s :=
  (Transition.run_invariant (fun _ _ _ => Inv.step) (inv_init hook older) hroom hrun).runsOnce

/-! ## Runs that leave no room -/

section Panic

variable {hook : ℕ} {s t : State} {c : ℕ} {call : Call} {a : Action}

/-- From here on some call can reach the failing `unwrap`. -/
def CanPanic (hook : ℕ) (s : State) : Prop :=
  ∃ as t, Transition.run (step hook) s as = some t ∧ Call.panicked ∈ t.calls

theorem CanPanic.of_step (h : CanPanic hook t) (hstep : step hook s a = some t) :
    CanPanic hook s := by
  obtain ⟨as, u, hrun, hu⟩ := h
  exact ⟨a :: as, u, Transition.run_cons_eq_some.2 ⟨t, hstep, hrun⟩, hu⟩

theorem step_of_get (hget : s.calls[c]? = some call) :
    step hook s (.step c) = s.stepCall hook c call := by
  rw [step, hget, Option.bind_some]

theorem canPanic_of_upgrading (hget : s.calls[c]? = some .upgrading) (hzero : s.strong = 0) :
    CanPanic hook s := by
  refine ⟨[.step c], s.setCall c .panicked, ?_, ?_⟩
  · rw [Transition.run, step_of_get hget, stepCall, if_pos hzero]
    rfl
  · exact List.mem_of_getElem? (Pool.getElem?_set_of_getElem? hget)

/-- A pending call panics once the `FnOnce` is gone and the strong count is zero. -/
theorem canPanic_of_pending (hget : s.calls[c]? = some call) (hpending : call.isPending = true)
    (hzero : s.strong = 0) (hfn : s.hookFn = false) : CanPanic hook s := by
  have hnext : ∀ {s : State}, s.calls[c]? = some .taking → s.strong = 0 → s.hookFn = false →
      CanPanic hook s := fun {s} hget hzero hfn =>
    (canPanic_of_upgrading (s := s.setCall c .upgrading)
      (Pool.getElem?_set_of_getElem? hget) hzero).of_step
      (by rw [step_of_get hget, stepCall, hfn]; rfl)
  cases call with
  | upgrading => exact canPanic_of_upgrading hget hzero
  | taking => exact hnext hget hzero hfn
  | cloned =>
    cases hflag : s.flag with
    | true =>
      exact (hnext (s := s.setCall c .taking) (Pool.getElem?_set_of_getElem? hget) hzero
        hfn).of_step (by rw [step_of_get hget, stepCall, hflag]; rfl)
    | false =>
      exact (canPanic_of_upgrading (s := s.setCall c .upgrading)
        (Pool.getElem?_set_of_getElem? hget) hzero).of_step
        (by rw [step_of_get hget, stepCall, hflag]; rfl)
  | _ => cases hpending

/-- With the strong count at zero and no room for the pending calls, one of them can panic. -/
theorem canPanic_of_room_lt (hzero : s.strong = 0) (hroom : s.room < s.pending)
    (hfresh : s.hookFn = true → s.flag = true ∧ s.calls.countP Call.isUpgrading = 0) :
    CanPanic hook s := by
  cases hfn : s.hookFn with
  | false =>
    obtain ⟨c, call, hget, hcall⟩ := Pool.exists_of_countP_pos (Nat.one_le_of_lt hroom)
    exact canPanic_of_pending hget hcall hzero hfn
  | true =>
    rw [State.room, hfn] at hroom
    obtain ⟨c, c', call, call', hne, hget, hget', hcall, hcall'⟩ :=
      Pool.exists_two_of_countP (show 2 ≤ s.calls.countP Call.isPending from hroom)
    -- the first of the two takes the `FnOnce`, the other one is left
    have htake : ∀ {s : State}, s.calls[c]? = some .taking → s.calls[c']? = some call' →
        s.strong = 0 → s.hookFn = true → CanPanic hook s := fun {s} hget hget' hzero hfn =>
      (canPanic_of_pending (s := { s with hookFn := false }.setCall c .storing)
        (by rw [State.setCall, List.getElem?_set_ne hne]; exact hget') hcall' hzero rfl).of_step
        (by rw [step_of_get hget, stepCall, hfn]; rfl)
    cases call with
    | upgrading =>
      have hcount : 1 ≤ s.calls.countP Call.isUpgrading := Pool.countP_pos_of_getElem? hget rfl
      exact absurd (hfresh hfn).2 (by omega)
    | taking => exact htake hget hget' hzero hfn
    | cloned =>
      exact (htake (s := s.setCall c .taking) (Pool.getElem?_set_of_getElem? hget)
        (by rw [State.setCall, List.getElem?_set_ne hne]; exact hget') hzero hfn).of_step
        (by rw [step_of_get hget, stepCall, (hfresh hfn).1]; rfl)
    | _ => cases hcall

/-- The first step of a run that does not leave room can be followed by a panic. -/
theorem exists_panic (h : Inv s) (hroom : ¬LeavesRoom hook s a) (hstep : step hook s a = some t) :
    CanPanic hook t := by
  rw [LeavesRoom, not_and_or, Classical.not_imp, Classical.not_imp, not_le, not_le] at hroom
  rcases hroom with ⟨hlast, hroom⟩ | ⟨hlate, hroom⟩
  · cases a with
    | release =>
      simp only [step] at hstep
      split_ifs at hstep
      obtain rfl := Option.some.inj hstep
      refine canPanic_of_room_lt ?_ hroom h.fresh
      simpa [releaseStrong, isLastRelease] using congrArg (· - 1) (of_decide_eq_true hlast)
    | step c =>
      obtain ⟨call, hget, hstep⟩ := Option.bind_eq_some_iff.1 hstep
      simp only [isLastRelease, hget] at hlast
      cases call with
      | releasing next =>
        have hone := of_decide_eq_true hlast
        simp only [stepCall, hone, if_true] at hstep
        obtain rfl := Option.some.inj hstep
        have hpending : (s.releaseStrong.setCall c (.dropping next)).pending = s.pending :=
          Pool.countP_set_of_eq (p := Call.isPending) (b := .dropping next) hget rfl
        refine canPanic_of_room_lt (by simp [State.setCall, releaseStrong, hone])
          (hroom.trans_eq hpending.symm) fun hfn => ⟨(h.fresh hfn).1, ?_⟩
        exact (Pool.countP_set_of_eq (b := .dropping next) hget rfl).trans (h.fresh hfn).2
      | _ => cases hlast
    | _ => cases hlast
  · cases a with
    | step c =>
      obtain ⟨call, hget, hstep⟩ := Option.bind_eq_some_iff.1 hstep
      simp only [isLateClone, hget] at hlate
      cases call with
      | entry via =>
        obtain ⟨hzero, hfound⟩ := of_decide_eq_true hlate
        simp only [stepCall, hfound, if_true] at hstep
        split_ifs at hstep
        obtain rfl := Option.some.inj hstep
        have hpending : (s.setCall c .cloned).pending = s.pending + 1 :=
          Pool.countP_set_add (p := Call.isPending) (b := .cloned) hget
        refine canPanic_of_room_lt hzero (hroom.trans_eq hpending.symm) fun hfn =>
          ⟨(h.fresh hfn).1, ?_⟩
        exact (Pool.countP_set_of_eq (b := .cloned) hget rfl).trans (h.fresh hfn).2
      | _ => cases hlate
    | _ => cases hlate

end Panic

/-- Two calls while the hook is dropped : the first one runs the `FnOnce`, the second one goes
to the original function and drops the hook. -/
def sampleActions : List Action :=
  [.call none, .call none, .step 0, .step 1, .step 0, .step 0, .step 1, .step 1, .step 1,
    .release, .step 0, .step 0, .step 1, .step 1, .step 1, .drop, .drop, .drop, .drop, .step 1]

theorem runsOnce_sampleActions : ∃ s,
    Transition.run (step 7) (init 7 []) sampleActions = some s ∧
      s.calls = [.finished .once, .finished .original] ∧ RunsOnce 7 s := by
  have hrun : Transition.run (step 7) (init 7 []) sampleActions = some _ := rfl
  exact ⟨_, hrun, rfl, runsOnce_of_run hrun (by decide)⟩

/-- The second call has cloned the closure when the last handle is dropped. -/
theorem not_runsOnce :
    ∃ s, Transition.run (step 7) (init 7 []) [.call none, .step 0, .step 0, .step 0, .step 0,
      .step 0, .call none, .step 1, .release, .step 1, .step 1] = some s ∧
      s.calls = [.finished .once, .panicked] ∧ ¬RunsOnce 7 s := by
  refine ⟨_, rfl, rfl, fun h => h.noPanic ?_⟩
  exact List.mem_cons_of_mem _ List.mem_cons_self

end State

end Once

end Diversion
