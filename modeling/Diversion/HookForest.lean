import Diversion.Temp
import Mathlib.Computability.StateTransition

/-!
# Hooks that own hooks

`Hook::drop` (src/hook/temp.rs) when closures own handles of other hooks of the target, or
values whose destructors call it. A thread that drops a last handle is a machine with a stack
of what it still has to do. The list lock is not reentrant, so a thread that holds it as a
writer and takes it once more is blocked, as a reader too.

The closure that `remove` returns is a temporary of its statement, so it is dropped before the
guard is. What it owns is dropped under the lock, and the first handle or the first call of the
target among it blocks the thread (`completes_iff`). Only a closure that owns nothing, or one
that a call in progress still holds, is dropped as it should be (`dropsCleanly_iff`).
-/

namespace Diversion

open StateTransition

/-- A value that a closure owns. -/
inductive Capture where
  /-- The last handle of a hook of the target. -/
  | handle (id : ℕ)
  /-- A value whose destructor calls the target. -/
  | caller
  /-- Any other value with a destructor. -/
  | other
deriving DecidableEq, Repr

/-- Hooks of one target, each handle of which is owned by one closure or by the program, and a
hook `root` whose last handle is dropped. -/
structure HookForest where
  target : Target
  /-- What the closure of a hook owns, in the order it is dropped in. -/
  captures : ℕ → List Capture
  /-- A call in progress of the thread holds a clone of the closure. -/
  inUse : ℕ → Bool
  root : ℕ
  /-- How high up in its tree a hook is. -/
  rank : ℕ → ℕ
  reached : ∃ ops, Transition.run Target.step Target.new ops = some target
  live_root : ∃ hook, target.handles root = some hook
  root_not_owned : ∀ i, .handle root ∉ captures i
  live : ∀ i j, .handle j ∈ captures i → ∃ hook, target.handles j = some hook
  count_le_one : ∀ i j, (captures i).count (.handle j) ≤ 1
  one_owner : ∀ i i' j, .handle j ∈ captures i → .handle j ∈ captures i' → i = i'
  rank_lt : ∀ i j, .handle j ∈ captures i → rank j < rank i

/-! ## The machine -/

/-- What the thread still has to do. -/
inductive Frame where
  /-- `Hook::drop`. -/
  | drop (id : ℕ)
  /-- Has uncounted the hook and takes the list lock. -/
  | lock (id : ℕ)
  /-- Holds the lock. -/
  | remove (id : ℕ)
  /-- Drops the `Arc` that `remove` returned. -/
  | release (closure : ℕ)
  /-- Drops what the closure owns. -/
  | destroy (captures : List Capture)
  /-- Calls the target. -/
  | call
  /-- Drops the guard, and then the handle is gone. -/
  | unlock (id : ℕ)
deriving DecidableEq, Repr

namespace HookForest

/-- The list of the target and the hooks that are being dropped, innermost first. -/
structure State where
  target : Target
  /-- The thread holds the list lock as a writer. -/
  writing : Bool
  stack : List Frame

variable (f : HookForest)

/-- One step of the thread. It is `none` if the thread is blocked, or has nothing to do. -/
def next (s : State) : Option State :=
  match s.stack with
  | [] => none
  | .drop id :: stack =>
    some { s with
      target := { s.target with extraCount := s.target.extraCount - 1 }
      stack := .lock id :: stack }
  | .lock id :: stack =>
    if s.writing then none else some { s with writing := true, stack := .remove id :: stack }
  | .remove id :: stack =>
    (s.target.handles id).map fun hook =>
      let (removed, closures) := s.target.closures.remove hook.key
      { s with
        target := { s.target with closures }
        stack := removed.toList.map .release ++ .unlock id :: stack }
  | .release closure :: stack =>
    -- a clone keeps the closure
    if f.inUse closure then some { s with stack }
    else some { s with stack := .destroy (f.captures closure) :: stack }
  | .destroy [] :: stack => some { s with stack }
  | .destroy (.handle id :: captures) :: stack =>
    some { s with stack := .drop id :: .destroy captures :: stack }
  | .destroy (.caller :: captures) :: stack =>
    some { s with stack := .call :: .destroy captures :: stack }
  | .destroy (.other :: captures) :: stack => some { s with stack := .destroy captures :: stack }
  | .call :: stack =>
    -- the thunk reads the list, and what it calls returns
    if s.writing then none else some { s with stack }
  | .unlock id :: stack =>
    some {
      target := { s.target with handles := Function.update s.target.handles id none }
      writing := false
      stack }

/-- The last handle of the root is dropped. -/
def start : State :=
  ⟨f.target, false, [.drop f.root]⟩

namespace State

/-- The thread has nothing left to do. -/
def Done (s : State) : Prop :=
  s.stack = []

/-- The next step runs the destructor of a value that a closure owns. -/
def RunsDestructor (s : State) : Prop :=
  ∃ capture captures stack, s.stack = .destroy (capture :: captures) :: stack

/-- The hook has no handle, and its closure is not in the list. -/
def Removed (s : State) (id : ℕ) : Prop :=
  s.target.handles id = none ∧ ∀ key, s.target.closures.get key ≠ some id

end State

/-- The closure of `i` owns `j`, or owns a hook that does. -/
def Owns (i j : ℕ) : Prop :=
  Relation.TransGen (fun i j => .handle j ∈ f.captures i) i j

/-- The drop returns. -/
def Completes : Prop :=
  ∃ s, Reaches f.next f.start s ∧ s.Done

/-- The drop returns and has removed the hook and every hook it owned, and no destructor runs
under the lock. -/
structure DropsCleanly : Prop where
  removes : ∃ s, Reaches f.next f.start s ∧ s.Done ∧ s.Removed f.root ∧
    ∀ j, f.Owns f.root j → s.Removed j
  unlocked : ∀ s, Reaches f.next f.start s → s.writing = true → ¬s.RunsDestructor

/-! ## Runs of a machine -/

section Machine

variable {σ : Type*} {next : σ → Option σ} {s t u : σ}

theorem reaches_head (h : next s = some t) (hu : Reaches next t u) : Reaches next s u :=
  Relation.ReflTransGen.head h hu

/-- What holds in every state from `s` on, one step later. -/
theorem forall_reaches_iff {P : σ → Prop} (h : next s = some t) :
    (∀ u, Reaches next s u → P u) ↔ P s ∧ ∀ u, Reaches next t u → P u := by
  constructor
  · exact fun hall => ⟨hall s .refl, fun u hu => hall u (reaches_head h hu)⟩
  · rintro ⟨hs, hall⟩ u hu
    rcases Relation.ReflTransGen.cases_head hu with rfl | ⟨t', ht', hu⟩
    · exact hs
    · obtain rfl := Option.some.inj (h.symm.trans ht')
      exact hall u hu

theorem forall_reaches_of_none {P : σ → Prop} (h : next s = none) (hs : P s) (u : σ)
    (hu : Reaches next s u) : P u := by
  rcases Relation.ReflTransGen.cases_head hu with rfl | ⟨t, ht, -⟩
  · exact hs
  · cases h.symm.trans ht

/-- A machine stops in one state. -/
theorem reaches_unique (ht : Reaches next s t) (hstop : next t = none) (hu : Reaches next s u)
    (hstop' : next u = none) : u = t :=
  Part.mem_unique (mem_eval.2 ⟨hu, hstop'⟩) (mem_eval.2 ⟨ht, hstop⟩)

end Machine

/-! ## The drop of the root -/

section Drop

variable {f} {hook : Hook} {s u : State} {stack : List Frame} {captures : List Capture}
  {target : Target}

theorem next_of_done (h : s.Done) : f.next s = none := by
  unfold State.Done at h
  simp [next, h]

/-- The target once the root is uncounted. -/
def uncounted (f : HookForest) : Target :=
  { f.target with extraCount := f.target.extraCount - 1 }

/-- The target after the removal, while the handle is still there. -/
def unlisted (f : HookForest) (hook : Hook) : Target :=
  { f.uncounted with closures := (f.target.closures.remove hook.key).2 }

/-- The removed closure is about to be dropped. -/
def releasing (f : HookForest) (hook : Hook) : State :=
  ⟨f.unlisted hook, true, [.release f.root, .unlock f.root]⟩

/-- The drop has returned. -/
def dropped (f : HookForest) (hook : Hook) : State :=
  ⟨f.target.dropHook f.root hook, false, []⟩

/-- The handle the root has, which the list holds its closure under. -/
structure IsHandle (f : HookForest) (hook : Hook) : Prop where
  handle : f.target.handles f.root = some hook
  remove : (f.target.closures.remove hook.key).1 = some f.root
  removed : (f.dropped hook).Removed f.root

theorem exists_isHandle (f : HookForest) : ∃ hook, f.IsHandle hook := by
  obtain ⟨ops, hrun⟩ := f.reached
  obtain ⟨l, hinv⟩ := Target.exists_inv hrun
  obtain ⟨hook, hhook⟩ := f.live_root
  obtain ⟨l₁, l₂, rfl⟩ := List.append_of_mem ((hinv.handles _ _).1 hhook)
  have hnone : (f.target.dropHook f.root hook).handles f.root = none := Function.update_self ..
  refine ⟨hook, hhook, (LinkedSlab.represents_remove hinv.closures).1, hnone, fun key hkey => ?_⟩
  obtain ⟨hook', hhook'⟩ := hinv.drop.exists_handle hkey
  rw [hnone] at hhook'
  cases hhook'

theorem next_remove (h : f.IsHandle hook) :
    f.next ⟨f.uncounted, true, [.remove f.root]⟩ = some (f.releasing hook) := by
  have hhook : f.uncounted.handles f.root = some hook := h.handle
  have hremove : (f.uncounted.closures.remove hook.key).1 = some f.root := h.remove
  simp only [next, hhook, Option.map_some, hremove, Option.toList_some, List.map_singleton,
    List.singleton_append]
  rfl

/-- What holds from the drop on, up to the removed closure. -/
theorem forall_start_iff {P : State → Prop} (h : f.IsHandle hook) :
    (∀ u, Reaches f.next f.start u → P u) ↔
      P f.start ∧ P ⟨f.uncounted, false, [.lock f.root]⟩ ∧
      P ⟨f.uncounted, true, [.remove f.root]⟩ ∧
      ∀ u, Reaches f.next (f.releasing hook) u → P u := by
  have hstart : f.next f.start = some ⟨f.uncounted, false, [.lock f.root]⟩ := rfl
  have hlock : f.next ⟨f.uncounted, false, [.lock f.root]⟩ =
      some ⟨f.uncounted, true, [.remove f.root]⟩ := rfl
  rw [forall_reaches_iff hstart, forall_reaches_iff hlock, forall_reaches_iff (next_remove h)]

theorem reaches_releasing (h : f.IsHandle hook) : Reaches f.next f.start (f.releasing hook) :=
  ((forall_start_iff (P := fun u => Reaches f.next f.start u) h).1 fun _ => id).2.2.2 _ .refl

/-- The closure is dropped as a temporary, under the lock. -/
theorem next_releasing (h : f.inUse f.root = false) : f.next (f.releasing hook) =
    some ⟨f.unlisted hook, true, [.destroy (f.captures f.root), .unlock f.root]⟩ := by
  simp [next, releasing, h]

/-- A closure that is in use stays. -/
theorem next_releasing_of_inUse (h : f.inUse f.root = true) : f.next (f.releasing hook) =
    some ⟨f.unlisted hook, true, [.unlock f.root]⟩ := by
  simp [next, releasing, h]

theorem next_unlock (f : HookForest) (hook : Hook) :
    f.next ⟨f.unlisted hook, true, [.unlock f.root]⟩ = some (f.dropped hook) :=
  rfl

/-- A run that ends in the state after the drop ends in no other. -/
theorem eq_dropped (h : Reaches f.next f.start (f.dropped hook)) (hu : Reaches f.next f.start u)
    (hdone : u.Done) : u = f.dropped hook :=
  reaches_unique h rfl hu (next_of_done hdone)

/-! ## What the closure owns -/

/-- Values that do not touch the target are dropped, with the lock or without it. -/
theorem reaches_destroy {writing : Bool} (h : ∀ capture ∈ captures, capture = .other) :
    Reaches f.next ⟨target, writing, .destroy captures :: stack⟩ ⟨target, writing, stack⟩ := by
  induction captures with
  | nil => exact reaches_head rfl .refl
  | cons capture captures ih =>
    obtain ⟨rfl, hrest⟩ := List.forall_mem_cons.1 h
    exact reaches_head rfl (ih hrest)

/-- The first value that touches the target blocks a thread that holds the lock. -/
theorem exists_blocked (h : ∃ capture ∈ captures, capture ≠ .other) :
    ∃ u, Reaches f.next ⟨target, true, .destroy captures :: stack⟩ u ∧ f.next u = none ∧
      ¬u.Done := by
  induction captures with
  | nil => simp at h
  | cons capture captures ih =>
    cases capture with
    | handle id =>
      let blocked : State := ⟨{ target with extraCount := target.extraCount - 1 }, true,
        .lock id :: .destroy captures :: stack⟩
      exact ⟨blocked, reaches_head rfl (reaches_head rfl .refl), rfl, by simp [State.Done, blocked]⟩
    | caller =>
      let blocked : State := ⟨target, true, .call :: .destroy captures :: stack⟩
      exact ⟨blocked, reaches_head rfl .refl, rfl, by simp [State.Done, blocked]⟩
    | other =>
      obtain ⟨u, hu, hblocked⟩ := ih (by simpa using h)
      exact ⟨u, reaches_head rfl hu, hblocked⟩

/-- With nothing in the closure that touches the target, or with the closure in use, the drop
returns. -/
theorem reaches_dropped (h : f.IsHandle hook)
    (hcaptures : f.inUse f.root = true ∨ ∀ capture ∈ f.captures f.root, capture = .other) :
    Reaches f.next f.start (f.dropped hook) := by
  refine (reaches_releasing h).trans ?_
  cases huse : f.inUse f.root with
  | true => exact reaches_head (next_releasing_of_inUse huse) (reaches_head rfl .refl)
  | false =>
    have hother := hcaptures.resolve_left (by simp [huse])
    exact reaches_head (next_releasing huse) ((reaches_destroy hother).trans
      (reaches_head rfl .refl))

/-- The drop returns exactly if nothing that the closure owns touches the target, or the closure
is in use. -/
theorem completes_iff (f : HookForest) :
    f.Completes ↔ f.inUse f.root = true ∨ ∀ capture ∈ f.captures f.root, capture = .other := by
  obtain ⟨hook, h⟩ := f.exists_isHandle
  refine ⟨?_, fun hcaptures => ⟨_, reaches_dropped h hcaptures, rfl⟩⟩
  rintro ⟨s, hs, hdone⟩
  cases huse : f.inUse f.root with
  | true => exact Or.inl rfl
  | false =>
    refine Or.inr ?_
    by_contra hnot
    push Not at hnot
    have hex : ∃ u, Reaches f.next
        ⟨f.unlisted hook, true, [.destroy (f.captures f.root), .unlock f.root]⟩ u ∧
        f.next u = none ∧ ¬u.Done := exists_blocked hnot
    obtain ⟨u, hu, hstuck, hblocked⟩ := hex
    -- the state the thread is blocked in is the only one it stops in
    have hu := (reaches_releasing h).trans (reaches_head (next_releasing huse) hu)
    obtain rfl := reaches_unique hu hstuck hs (next_of_done hdone)
    exact hblocked hdone

/-- A hook that the root owns still has its handle. -/
theorem handles_dropped (hook : Hook) {j : ℕ} (hj : .handle j ∈ f.captures f.root) :
    ∃ hook', (f.dropped hook).target.handles j = some hook' := by
  have hne : j ≠ f.root := fun heq => f.root_not_owned _ (heq ▸ hj)
  obtain ⟨hook', hhook'⟩ := f.live _ _ hj
  exact ⟨hook', (Function.update_of_ne hne ..).trans hhook'⟩

/-- No destructor runs any more. -/
theorem unlocked_unlock (s : State)
    (hs : Reaches f.next ⟨f.unlisted hook, true, [.unlock f.root]⟩ s) :
    s.writing = true → ¬s.RunsDestructor := by
  refine (forall_reaches_iff (P := fun s => s.writing = true → ¬s.RunsDestructor)
    (next_unlock f hook)).2 ⟨by simp [State.RunsDestructor], fun u hu => ?_⟩ s hs
  have hstop : f.next (f.dropped hook) = none := rfl
  exact forall_reaches_of_none (P := fun s => s.writing = true → ¬s.RunsDestructor) hstop
    (by simp [State.RunsDestructor, dropped]) u hu

/-- The drop is clean exactly if the closure owns nothing, or is in use and owns no hook. -/
theorem dropsCleanly_iff (f : HookForest) :
    f.DropsCleanly ↔ f.captures f.root = [] ∨
      f.inUse f.root = true ∧ ∀ j, .handle j ∉ f.captures f.root := by
  obtain ⟨hook, h⟩ := f.exists_isHandle
  constructor
  · rintro ⟨⟨s, hs, hdone, -, howned⟩, hunlocked⟩
    cases huse : f.inUse f.root with
    | true =>
      refine Or.inr ⟨rfl, fun j hj => ?_⟩
      obtain rfl := eq_dropped (reaches_dropped h (Or.inl huse)) hs hdone
      obtain ⟨hook', hhook'⟩ := handles_dropped hook hj
      rw [(howned j (.single hj)).1] at hhook'
      cases hhook'
    | false =>
      refine Or.inl ?_
      by_contra hne
      obtain ⟨capture, captures, hcaptures⟩ := List.exists_cons_of_ne_nil hne
      exact hunlocked _ ((reaches_releasing h).trans (reaches_head (next_releasing huse) .refl))
        rfl ⟨capture, captures, _, by rw [hcaptures]⟩
  · intro hcaptures
    have hnone : ∀ j, .handle j ∉ f.captures f.root := by
      rcases hcaptures with hnil | ⟨-, hnone⟩
      · simp [hnil]
      · exact hnone
    have hreach := reaches_dropped h (hcaptures.symm.imp And.left fun hnil => by simp [hnil])
    refine ⟨⟨_, hreach, rfl, h.removed, fun j hj => ?_⟩, ?_⟩
    · obtain ⟨i, hi, -⟩ := Relation.TransGen.head'_iff.1 hj
      exact absurd hi (hnone i)
    · refine (forall_start_iff h).2 ⟨by simp [State.RunsDestructor, start],
        by simp [State.RunsDestructor], by simp [State.RunsDestructor], ?_⟩
      cases huse : f.inUse f.root with
      | true =>
        exact (forall_reaches_iff (next_releasing_of_inUse huse)).2
          ⟨by simp [State.RunsDestructor, releasing], unlocked_unlock⟩
      | false =>
        have hnil := hcaptures.resolve_right fun hinUse => by simp [huse] at hinUse
        have hdestroy : f.next (f.releasing hook) = _ := next_releasing huse
        rw [hnil] at hdestroy
        have hend : f.next ⟨f.unlisted hook, true, [.destroy [], .unlock f.root]⟩ =
          some ⟨f.unlisted hook, true, [.unlock f.root]⟩ := rfl
        rw [forall_reaches_iff hdestroy, forall_reaches_iff hend]
        exact ⟨by simp [State.RunsDestructor, releasing], by simp [State.RunsDestructor],
          unlocked_unlock⟩

end Drop

/-- The closure of hook 1 owns the handle of hook 0. -/
def nestedCaptures (i : ℕ) : List Capture :=
  if i = 1 then [.handle 0] else []

theorem handle_mem_nestedCaptures {i j : ℕ} (h : .handle j ∈ nestedCaptures i) :
    i = 1 ∧ j = 0 := by
  unfold nestedCaptures at h
  split_ifs at h with hi
  · exact ⟨hi, by simpa using h⟩
  · cases h

theorem length_nestedCaptures_le (i : ℕ) : (nestedCaptures i).length ≤ 1 := by
  unfold nestedCaptures
  split_ifs
  · exact le_rfl
  · exact Nat.zero_le 1

theorem exists_nested_handle {j : ℕ} (h : j ≤ 1) :
    ∃ hook, ((Target.new.hookUncheckedLt 0).hookUncheckedLt 1).handles j = some hook := by
  rcases Nat.le_one_iff_eq_zero_or_eq_one.1 h with rfl | rfl
  · exact ⟨_, rfl⟩
  · exact ⟨_, rfl⟩

/-- Two hooks, and the last handle of the newer one, which owns the older one, is dropped. -/
def nested : HookForest where
  target := (Target.new.hookUncheckedLt 0).hookUncheckedLt 1
  captures := nestedCaptures
  inUse _ := false
  root := 1
  rank := id
  reached := ⟨[.install 0, .install 1], rfl⟩
  live_root := exists_nested_handle le_rfl
  root_not_owned _ h := absurd (handle_mem_nestedCaptures h).2 Nat.one_ne_zero
  live _ _ h := exists_nested_handle ((handle_mem_nestedCaptures h).2.le.trans (Nat.zero_le 1))
  count_le_one i _ := List.count_le_length.trans (length_nestedCaptures_le i)
  one_owner _ _ _ h h' :=
    (handle_mem_nestedCaptures h).1.trans (handle_mem_nestedCaptures h').1.symm
  rank_lt _ _ h := (handle_mem_nestedCaptures h).2 ▸ (handle_mem_nestedCaptures h).1 ▸ Nat.one_pos

/-- Dropping the newer hook blocks the thread for ever. -/
theorem not_dropsCleanly_nested : ¬nested.Completes ∧ ¬nested.DropsCleanly := by
  have hblocks : ¬nested.Completes := by
    rw [completes_iff]
    rintro (huse | hother)
    · cases huse
    · exact absurd (hother (.handle 0) (List.mem_singleton.2 rfl)) (by simp)
  refine ⟨hblocks, fun h => hblocks ?_⟩
  obtain ⟨s, hs, hdone, -⟩ := h.removes
  exact ⟨s, hs, hdone⟩

end HookForest

end Diversion
