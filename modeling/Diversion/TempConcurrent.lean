import Diversion.LinkedSlab
import Diversion.Lib.Pool
import Diversion.Lib.Transition

/-!
# Temporary hooks, concurrently

The steps of installations, drops and `call_original` (src/hook/temp.rs) on one target,
interleaved in any order. A hook is a process that goes through `Phase`; a call is a process
that goes through `Call`. The counter, the list lock, the push, the store of the key and the
removal are steps of their own, and memory is sequentially consistent.

`Inv` says that the list holds the hooks whose phase says so, under their keys, and that
`extra_count + 1` is the number of hooks that have counted themselves and have not yet been
uncounted (`Inv.extraCount`). So with two registered hooks the counter is positive, and
`call_original` looks up the list; of two hooks the one installed first stays behind the
other in it (`Ordered`).
-/

namespace Diversion

namespace Concurrent

/-! ## Hooks -/

/-- Where the installation or the drop of a hook is. -/
inductive Phase where
  | created
  /-- `hook_unchecked_lt` holds the list lock. -/
  | locked
  | pushed (key : ℕ)
  | keyed
  | counted
  /-- The installation has returned. -/
  | live
  /-- The last handle is gone, `Hook::drop` starts. -/
  | dropping
  | uncounted
  | dropLocked
  | removed
  | gone
deriving DecidableEq, Repr

/-- A hook on its way into the list and out of it. -/
structure HookState where
  phase : Phase
  /-- The field `key`, `usize::MAX` at first. -/
  key : ℕ
deriving DecidableEq, Repr

namespace HookState

/-- The key the closure is in the list at. -/
def listKey (hook : HookState) : Option ℕ :=
  match hook.phase with
  | .pushed key => some key
  | .keyed | .counted | .live | .dropping | .uncounted | .dropLocked => some hook.key
  | _ => none

/-- The hook has counted itself and has not been uncounted. -/
def isCounted (hook : HookState) : Bool :=
  match hook.phase with
  | .counted | .live | .dropping => true
  | _ => false

/-- The hook is in the list and counted, and its handle is alive. -/
def isRegistered (hook : HookState) : Bool :=
  match hook.phase with
  | .counted | .live => true
  | _ => false

/-- The closure has not been pushed yet. -/
def isUnlisted (hook : HookState) : Bool :=
  match hook.phase with
  | .created | .locked => true
  | _ => false

/-- The drop of the hook has started. -/
def isDropped (hook : HookState) : Bool :=
  match hook.phase with
  | .dropping | .uncounted | .dropLocked | .removed | .gone => true
  | _ => false

/-- A hook is registered once it is counted and until it is dropped. -/
theorem isRegistered_iff {hook : HookState} :
    hook.isRegistered = true ↔ hook.phase = .counted ∨ hook.phase = .live := by
  cases hphase : hook.phase <;> simp [isRegistered, hphase]

section

variable {hook : HookState} (h : hook.isRegistered = true)

include h

theorem listKey_of_isRegistered : hook.listKey = some hook.key := by
  rcases isRegistered_iff.1 h with hphase | hphase <;> simp [listKey, hphase]

theorem isCounted_of_isRegistered : hook.isCounted = true := by
  rcases isRegistered_iff.1 h with hphase | hphase <;> simp [isCounted, hphase]

theorem not_isDropped_of_isRegistered : ¬hook.isDropped = true := by
  rcases isRegistered_iff.1 h with hphase | hphase <;> simp [isDropped, hphase]

end

end HookState

/-! ## Calls -/

/-- Where a call of `call_original` of the hook `id` is. -/
inductive Call where
  | entry (id : ℕ)
  /-- In `call_original_slow`. -/
  | slow (id : ℕ)
  /-- Holds the list lock as a reader. -/
  | reading (id : ℕ)
  | looked (id : ℕ) (next : Option ℕ)
  /-- Calls the closure of the hook `next`. -/
  | invoking (id next : ℕ)
  /-- Calls the original function. -/
  | original (id : ℕ)
  | returned
deriving DecidableEq, Repr

/-- The steps that a call has left on its way to the next hook. -/
def Call.stepsLeft : Call → ℕ
  | .entry _ => 5
  | .slow _ => 4
  | .reading _ => 3
  | .looked _ _ => 2
  | .invoking _ _ | .original _ => 1
  | .returned => 0

/-- The hook a call in progress borrows. -/
def Call.hook : Call → Option ℕ
  | .entry id | .slow id | .reading id | .looked id _ | .invoking id _ | .original id => some id
  | .returned => none

/-! ## Steps -/

/-- The list under its lock, the hooks and the calls. -/
structure State where
  closures : LinkedSlab ℕ
  extraCount : ℤ
  /-- The list lock is held exclusively. -/
  writer : Bool
  readers : ℕ
  hooks : List HookState
  calls : List Call

/-- No hook and no call. -/
def State.init : State where
  closures := .new
  extraCount := -1
  writer := false
  readers := 0
  hooks := []
  calls := []

/-- One step of one thread. -/
inductive Action where
  /-- `into_unowned_handle`. -/
  | create
  /-- The next step of hook `id`. Its push takes the key `vacant`. -/
  | hook (id vacant : ℕ)
  | callOriginal (id : ℕ)
  /-- The next step of call `c`. -/
  | call (c : ℕ)
deriving DecidableEq, Repr

namespace State

/-- Move one hook. -/
def setHook (s : State) (id : ℕ) (hook : HookState) : State :=
  { s with hooks := s.hooks.set id hook }

/-- Move one call. -/
def setCall (s : State) (c : ℕ) (call : Call) : State :=
  { s with calls := s.calls.set c call }

/-- `hook_unchecked_lt`, and from `live` on the drop of the last handle. -/
def stepHook (s : State) (id vacant : ℕ) (hook : HookState) : Option State :=
  match hook.phase with
  | .created =>
    if s.writer = false ∧ s.readers = 0 then
      some ({ s with writer := true }.setHook id { hook with phase := .locked })
    else none
  | .locked =>
    if (s.closures.inner.get vacant).isNone ∧ vacant < usizeMax then
      let (closures, key) := s.closures.pushFront vacant id
      some ({ s with closures }.setHook id { hook with phase := .pushed key })
    else none
  | .pushed key => some (s.setHook id ⟨.keyed, key⟩)
  | .keyed =>
    some ({ s with extraCount := s.extraCount + 1 }.setHook id { hook with phase := .counted })
  | .counted => some ({ s with writer := false }.setHook id { hook with phase := .live })
  | .live =>
    -- a call in progress borrows the handle
    if ∀ call ∈ s.calls, call.hook ≠ some id then
      some (s.setHook id { hook with phase := .dropping })
    else none
  | .dropping =>
    some ({ s with extraCount := s.extraCount - 1 }.setHook id { hook with phase := .uncounted })
  | .uncounted =>
    if s.writer = false ∧ s.readers = 0 then
      some ({ s with writer := true }.setHook id { hook with phase := .dropLocked })
    else none
  | .dropLocked =>
    some ({ s with closures := (s.closures.remove hook.key).2 }.setHook id
      { hook with phase := .removed })
  | .removed => some ({ s with writer := false }.setHook id { hook with phase := .gone })
  | .gone => none

/-- `call_original` and `call_original_slow`. -/
def stepCall (s : State) (c : ℕ) (call : Call) : Option State :=
  match call with
  | .entry id =>
    if 0 < s.extraCount then some (s.setCall c (.slow id)) else some (s.setCall c (.original id))
  | .slow id =>
    if s.writer = false then some ({ s with readers := s.readers + 1 }.setCall c (.reading id))
    else none
  | .reading id =>
    (s.hooks[id]?).map fun hook =>
      s.setCall c (.looked id (s.closures.getNext hook.key))
  | .looked id next =>
    let s := { s with readers := s.readers - 1 }
    match next with
    | some next => some (s.setCall c (.invoking id next))
    | none => some (s.setCall c (.original id))
  | .invoking _ _ => some (s.setCall c .returned)
  | .original _ => some (s.setCall c .returned)
  | .returned => none

/-- `none` where the step is not enabled, as for a thread that waits for the lock. -/
def step (s : State) : Action → Option State
  | .create => some { s with hooks := s.hooks ++ [⟨.created, usizeMax⟩] }
  | .hook id vacant => (s.hooks[id]?).bind (s.stepHook id vacant)
  | .callOriginal id =>
    match s.hooks[id]? with
    | some hook =>
      if hook.isDropped then none else some { s with calls := s.calls ++ [.entry id] }
    | none => none
  | .call c => (s.calls[c]?).bind (s.stepCall c)

/-- The state of hook `id` satisfies `p`. -/
def HookIs (s : State) (p : HookState → Bool) (id : ℕ) : Prop :=
  ∃ hook, s.hooks[id]? = some hook ∧ p hook = true

instance HookIs.decidable (s : State) (p : HookState → Bool) (id : ℕ) :
    Decidable (s.HookIs p id) :=
  match hget : s.hooks[id]? with
  | none => isFalse fun ⟨_, h, _⟩ => by simp [hget] at h
  | some hook => decidable_of_iff (p hook = true)
      ⟨fun h => ⟨hook, hget, h⟩, fun ⟨_, h, hp⟩ => Option.some.inj (hget.symm.trans h) ▸ hp⟩

/-- The hook is in the list and counted, and its handle is alive. -/
abbrev Registered (s : State) (id : ℕ) : Prop :=
  s.HookIs HookState.isRegistered id

/-! ## What a step does -/

/-- What a step does to the list, the counter and the hooks. -/
inductive Effect (s : State) : LinkedSlab ℕ → ℤ → List HookState → Prop where
  /-- A call's step. -/
  | none : Effect s s.closures s.extraCount s.hooks
  | create : Effect s s.closures s.extraCount (s.hooks ++ [⟨.created, usizeMax⟩])
  /-- A step of a hook that touches neither the list nor the counter. -/
  | quiet {id : ℕ} {hook hook' : HookState} (hget : s.hooks[id]? = some hook)
      (hkey : hook'.listKey = hook.listKey) (hcounted : hook'.isCounted = hook.isCounted)
      (hlisted : hook'.isUnlisted = hook.isUnlisted)
      (hdropped : hook.isDropped = true → hook'.isDropped = true) :
      Effect s s.closures s.extraCount (s.hooks.set id hook')
  | push {id vacant : ℕ} {hook : HookState} (hget : s.hooks[id]? = some hook)
      (hphase : hook.phase = .locked) (hvacant : s.closures.inner.entries vacant = Option.none)
      (hlt : vacant < usizeMax) :
      Effect s (s.closures.pushFront vacant id).1 s.extraCount
        (s.hooks.set id { hook with phase := .pushed vacant })
  | count {id : ℕ} {hook : HookState} (hget : s.hooks[id]? = some hook)
      (hphase : hook.phase = .keyed) :
      Effect s s.closures (s.extraCount + 1) (s.hooks.set id { hook with phase := .counted })
  | uncount {id : ℕ} {hook : HookState} (hget : s.hooks[id]? = some hook)
      (hphase : hook.phase = .dropping) :
      Effect s s.closures (s.extraCount - 1) (s.hooks.set id { hook with phase := .uncounted })
  | remove {id : ℕ} {hook : HookState} (hget : s.hooks[id]? = some hook)
      (hphase : hook.phase = .dropLocked) :
      Effect s (s.closures.remove hook.key).2 s.extraCount
        (s.hooks.set id { hook with phase := .removed })

/-- A step of a hook changes its own entry of the list only. -/
theorem effect_of_stepHook {s t : State} {id vacant : ℕ} {hook : HookState}
    (hget : s.hooks[id]? = some hook) (h : s.stepHook id vacant hook = some t) :
    Effect s t.closures t.extraCount t.hooks ∧ t.calls = s.calls := by
  obtain ⟨phase, key⟩ := hook
  cases phase <;> simp only [stepHook] at h
  case locked =>
    split_ifs at h with hguard
    obtain rfl := Option.some.inj h
    exact ⟨Effect.push hget rfl (by simpa [Slab.get] using hguard.1) hguard.2, rfl⟩
  case keyed =>
    obtain rfl := Option.some.inj h
    exact ⟨Effect.count hget rfl, rfl⟩
  case dropping =>
    obtain rfl := Option.some.inj h
    exact ⟨Effect.uncount hget rfl, rfl⟩
  case dropLocked =>
    obtain rfl := Option.some.inj h
    exact ⟨Effect.remove hget rfl, rfl⟩
  case gone => cases h
  case created | live | uncounted =>
    split_ifs at h
    obtain rfl := Option.some.inj h
    exact ⟨Effect.quiet hget rfl rfl rfl (by simp [HookState.isDropped]), rfl⟩
  all_goals
    obtain rfl := Option.some.inj h
    exact ⟨Effect.quiet hget rfl rfl rfl (by simp [HookState.isDropped]), rfl⟩

/-- A call's step touches nothing but the lock and the call. -/
theorem stepCall_eq {s t : State} {c : ℕ} {call : Call} (h : s.stepCall c call = some t) :
    t.closures = s.closures ∧ t.extraCount = s.extraCount ∧ t.hooks = s.hooks ∧
      ∃ call', t.calls = s.calls.set c call' := by
  cases call with
  | entry id =>
    simp only [stepCall] at h
    split_ifs at h <;> obtain rfl := Option.some.inj h <;> exact ⟨rfl, rfl, rfl, _, rfl⟩
  | slow id =>
    simp only [stepCall] at h
    split_ifs at h
    obtain rfl := Option.some.inj h
    exact ⟨rfl, rfl, rfl, _, rfl⟩
  | reading id =>
    obtain ⟨hook, -, rfl⟩ := Option.map_eq_some_iff.1 h
    exact ⟨rfl, rfl, rfl, _, rfl⟩
  | looked id next =>
    cases next <;> obtain rfl := Option.some.inj h <;> exact ⟨rfl, rfl, rfl, _, rfl⟩
  | invoking id next | original id =>
    obtain rfl := Option.some.inj h
    exact ⟨rfl, rfl, rfl, _, rfl⟩
  | returned => cases h

/-- The same for any step. -/
theorem effect_of_step {s t : State} {a : Action} (h : step s a = some t) :
    Effect s t.closures t.extraCount t.hooks := by
  cases a with
  | create =>
    obtain rfl := Option.some.inj h
    exact Effect.create
  | hook id vacant =>
    obtain ⟨hook, hget, h⟩ := Option.bind_eq_some_iff.1 h
    exact (effect_of_stepHook hget h).1
  | callOriginal id =>
    simp only [step] at h
    split at h
    · split_ifs at h
      obtain rfl := Option.some.inj h
      exact Effect.none
    · cases h
  | call c =>
    obtain ⟨call, hget, h⟩ := Option.bind_eq_some_iff.1 h
    obtain ⟨h₁, h₂, h₃, -⟩ := stepCall_eq h
    rw [h₁, h₂, h₃]
    exact Effect.none

/-! ## The list and the counter -/

/-- The list holds the pairs `l` of key and hook, those of the hooks whose phase says so,
and the counter counts the hooks that are counted. -/
structure Inv (s : State) (l : List (ℕ × ℕ)) : Prop where
  closures : s.closures.Represents l
  listed : ∀ key id, (key, id) ∈ l ↔
    ∃ hook, s.hooks[id]? = some hook ∧ hook.listKey = some key
  extraCount : s.extraCount + 1 = s.hooks.countP HookState.isCounted

section Inv

variable {s t : State} {l l₁ l₂ : List (ℕ × ℕ)} {g h id key : ℕ} {hook hook' : HookState}

/-- It holds in an empty list. -/
theorem inv_init : Inv init [] where
  closures := LinkedSlab.represents_new
  listed := by simp [init]
  extraCount := rfl

/-- No hook is in the list twice. -/
theorem Inv.nodup (hinv : Inv s l) : (l.map Prod.snd).Nodup := by
  refine List.Nodup.map_on (fun e he e' he' heq => ?_) hinv.closures.nodup.of_map
  obtain ⟨hook, hget, hkey⟩ := (hinv.listed e.1 e.2).1 he
  obtain ⟨hook', hget', hkey'⟩ := (hinv.listed e'.1 e'.2).1 he'
  rw [← heq, hget] at hget'
  obtain rfl := Option.some.inj hget'
  exact Prod.ext (Option.some.inj (hkey.symm.trans hkey')) heq

/-- The hooks in the list are those with a key. -/
theorem Inv.mem_ids (hinv : Inv s l) (hget : s.hooks[id]? = some hook) :
    id ∈ l.map Prod.snd ↔ hook.listKey.isSome := by
  simp only [List.mem_map, Prod.exists, exists_eq_right, hinv.listed, hget, Option.some.injEq,
    exists_eq_left', Option.isSome_iff_exists]

/-- A step that gives the hook the key `key` of the list. -/
theorem Inv.listed_set (hinv : Inv s l) (hget : s.hooks[id]? = some hook)
    (hold : hook.listKey = none) (hnew : hook'.listKey = some key) (key' id' : ℕ) :
    (key', id') ∈ (key, id) :: l ↔
      ∃ x, (s.hooks.set id hook')[id']? = some x ∧ x.listKey = some key' := by
  by_cases hid : id = id'
  · subst hid
    have hmem : (key', id) ∉ l := by simp [hinv.listed, hget, hold]
    simp [Pool.getElem?_set_of_getElem? hget, hnew, hmem, eq_comm]
  · simp [List.getElem?_set_ne hid, hinv.listed, Ne.symm hid]

/-- A step that takes the hook out of the list. -/
theorem Inv.listed_erase (hinv : Inv s (l₁ ++ (key, id) :: l₂))
    (hget : s.hooks[id]? = some hook) (hnew : hook'.listKey = none) (key' id' : ℕ) :
    (key', id') ∈ l₁ ++ l₂ ↔
      ∃ x, (s.hooks.set id hook')[id']? = some x ∧ x.listKey = some key' := by
  by_cases hid : id = id'
  · subst hid
    have hnodup := hinv.nodup
    rw [List.map_append, List.map_cons, List.nodup_middle, ← List.map_append] at hnodup
    have hmem : (key', id) ∉ l₁ ++ l₂ :=
      fun h => (List.nodup_cons.1 hnodup).1 (List.mem_map.2 ⟨_, h, rfl⟩)
    simp only [Pool.getElem?_set_of_getElem? hget, Option.some.injEq, exists_eq_left', hnew,
      reduceCtorEq, iff_false]
    exact hmem
  · rw [List.getElem?_set_ne hid, ← hinv.listed]
    simp [Ne.symm hid]

/-- A step that keeps the key. -/
theorem Inv.listed_keep (hinv : Inv s l) (hget : s.hooks[id]? = some hook)
    (hkey : hook'.listKey = hook.listKey) (key' id' : ℕ) :
    (key', id') ∈ l ↔ ∃ x, (s.hooks.set id hook')[id']? = some x ∧ x.listKey = some key' := by
  by_cases hid : id = id'
  · subst hid
    simp [Pool.getElem?_set_of_getElem? hget, hkey, hinv.listed, hget]
  · rw [List.getElem?_set_ne hid, hinv.listed]

/-- The key of a hook in the list, and the place of its pair. -/
theorem Inv.exists_split (hinv : Inv s l) (hget : s.hooks[id]? = some hook)
    (hkey : hook.listKey = some key) : ∃ l₁ l₂, l = l₁ ++ (key, id) :: l₂ :=
  List.append_of_mem ((hinv.listed key id).2 ⟨hook, hget, hkey⟩)

/-- What a step does to the pairs of the list. -/
inductive Moves (s : State) (hooks : List HookState) : List (ℕ × ℕ) → List (ℕ × ℕ) → Prop where
  | keep {l : List (ℕ × ℕ)} : Moves s hooks l l
  | push {l : List (ℕ × ℕ)} {key id : ℕ} : Moves s hooks l ((key, id) :: l)
  | remove {l₁ l₂ : List (ℕ × ℕ)} {key id : ℕ} {hook : HookState}
      (hget : hooks[id]? = some hook) (hdropped : hook.isDropped = true) :
      Moves s hooks (l₁ ++ (key, id) :: l₂) (l₁ ++ l₂)

/-- A step keeps the invariant. -/
theorem Inv.effect {closures : LinkedSlab ℕ} {extraCount : ℤ} {hooks : List HookState}
    (hinv : Inv s l) (heffect : Effect s closures extraCount hooks) :
    ∃ l', Inv { s with closures, extraCount, hooks } l' ∧ Moves s hooks l l' := by
  have hcount := hinv.extraCount
  cases heffect with
  | none => exact ⟨l, hinv, Moves.keep⟩
  | create =>
    refine ⟨l, ⟨hinv.closures, fun key id => ?_, ?_⟩, Moves.keep⟩
    · rw [hinv.listed, List.getElem?_append]
      split_ifs with hid
      · rfl
      · rw [List.getElem?_eq_none (not_lt.1 hid)]
        refine iff_of_false (by simp) ?_
        rintro ⟨hook, hget, hkey⟩
        obtain rfl := List.mem_singleton.1 (List.mem_of_getElem? hget)
        cases hkey
    · simpa [HookState.isCounted] using hcount
  | quiet hget hkey hcounted hlisted hdropped =>
    refine ⟨l, ⟨hinv.closures, hinv.listed_keep hget hkey, ?_⟩, Moves.keep⟩
    exact hcount.trans (congrArg Nat.cast (Pool.countP_set_of_eq hget hcounted).symm)
  | push hget hphase hvacant hlt =>
    refine ⟨_, ⟨LinkedSlab.represents_pushFront hinv.closures hvacant hlt _,
      hinv.listed_set hget (by simp [HookState.listKey, hphase]) rfl, ?_⟩, Moves.push⟩
    refine hcount.trans (congrArg Nat.cast (Pool.countP_set_of_eq hget ?_).symm)
    simp [HookState.isCounted, hphase]
  | @count id hook hget hphase =>
    refine ⟨l, ⟨hinv.closures,
      hinv.listed_keep hget (by simp [HookState.listKey, hphase]), ?_⟩, Moves.keep⟩
    have := Pool.countP_set_add (p := HookState.isCounted)
      (b := { hook with phase := .counted }) hget
    simp only [HookState.isCounted, hphase, if_true, Bool.false_eq_true, if_false] at this ⊢
    omega
  | @uncount id hook hget hphase =>
    refine ⟨l, ⟨hinv.closures,
      hinv.listed_keep hget (by simp [HookState.listKey, hphase]), ?_⟩, Moves.keep⟩
    have := Pool.countP_set_add (p := HookState.isCounted)
      (b := { hook with phase := .uncounted }) hget
    simp only [HookState.isCounted, hphase, if_true, Bool.false_eq_true, if_false] at this ⊢
    omega
  | @remove id hook hget hphase =>
    obtain ⟨l₁, l₂, rfl⟩ := hinv.exists_split hget
      (show hook.listKey = some hook.key by simp [HookState.listKey, hphase])
    refine ⟨l₁ ++ l₂, ⟨(LinkedSlab.represents_remove hinv.closures).2,
      hinv.listed_erase hget rfl, ?_⟩,
      Moves.remove (Pool.getElem?_set_of_getElem? hget) rfl⟩
    refine hcount.trans (congrArg Nat.cast (Pool.countP_set_of_eq hget ?_).symm)
    simp [HookState.isCounted, hphase]

/-- Every step keeps the invariant for a list that it may have changed. -/
theorem Inv.step {a : Action} (hinv : Inv s l) (hstep : step s a = some t) :
    ∃ l', Inv t l' ∧ Moves s t.hooks l l' := by
  obtain ⟨l', hinv', hmoves⟩ := hinv.effect (effect_of_step hstep)
  exact ⟨l', ⟨hinv'.closures, hinv'.listed, hinv'.extraCount⟩, hmoves⟩

/-- The list of a run. -/
theorem exists_inv {as : List Action} (hrun : Transition.run step init as = some s) :
    ∃ l, Inv s l := by
  refine Transition.run_invariant_of_step (I := fun s => ∃ l, Inv s l) ?_ ⟨[], inv_init⟩ hrun
  rintro s a t ⟨l, hinv⟩ hstep
  obtain ⟨l', hinv', -⟩ := hinv.step hstep
  exact ⟨l', hinv'⟩

/-! ## The order of two hooks -/

/-- The hook `g` stays behind `h` in the list `l`, as long as neither is dropped. -/
def Ordered (s : State) (l : List (ℕ × ℕ)) (g h : ℕ) : Prop :=
  s.HookIs HookState.isDropped g ∨ s.HookIs HookState.isDropped h ∨
    [h, g].Sublist (l.map Prod.snd) ∨ g ∈ l.map Prod.snd ∧ h ∉ l.map Prod.snd

theorem hookIs_isDropped_set (hget : s.hooks[id]? = some hook)
    (hdropped : hook.isDropped = true → hook'.isDropped = true)
    (hg : s.HookIs HookState.isDropped g) :
    ∃ x, (s.hooks.set id hook')[g]? = some x ∧ x.isDropped = true := by
  obtain ⟨x, hx, hxdropped⟩ := hg
  by_cases hid : id = g
  · subst hid
    rw [hget] at hx
    obtain rfl := Option.some.inj hx
    exact ⟨hook', Pool.getElem?_set_of_getElem? hget, hdropped hxdropped⟩
  · exact ⟨x, by rwa [List.getElem?_set_ne hid], hxdropped⟩

/-- A hook that was dropped stays so. -/
theorem Effect.isDropped {closures : LinkedSlab ℕ} {extraCount : ℤ} {hooks : List HookState}
    (heffect : Effect s closures extraCount hooks) (hg : s.HookIs HookState.isDropped g) :
    ∃ x, hooks[g]? = some x ∧ x.isDropped = true := by
  cases heffect with
  | none => exact hg
  | create =>
    obtain ⟨x, hx, hdropped⟩ := hg
    exact ⟨x, by rw [List.getElem?_append_left (List.getElem?_eq_some_iff.1 hx).1, hx], hdropped⟩
  | quiet hget _ _ _ hdropped => exact hookIs_isDropped_set hget hdropped hg
  | push hget hphase | count hget hphase =>
    exact hookIs_isDropped_set hget (by simp [HookState.isDropped, hphase]) hg
  | uncount hget | remove hget => exact hookIs_isDropped_set hget (fun _ => rfl) hg

/-- A dropped hook stays dropped. -/
theorem HookIs.isDropped_step {a : Action} (hg : s.HookIs HookState.isDropped g)
    (hstep : step s a = some t) : t.HookIs HookState.isDropped g :=
  (effect_of_step hstep).isDropped hg

/-- The removal of another hook keeps the order of two. -/
theorem sublist_erase {xs ys : List ℕ} (hsub : [h, g].Sublist (xs ++ id :: ys)) (hh : id ≠ h)
    (hg : id ≠ g) : [h, g].Sublist (xs ++ ys) := by
  have hfilter := hsub.filter (· ≠ id)
  simp only [List.filter_append, List.filter_cons, Ne.symm hh, Ne.symm hg, ne_eq,
    not_false_eq_true, decide_true, if_true, List.filter_nil, not_true, decide_false,
    Bool.false_eq_true, if_false] at hfilter
  exact hfilter.trans (List.filter_sublist.append List.filter_sublist)

/-- So does any step. -/
theorem Ordered.step {a : Action} {l' : List (ℕ × ℕ)} (hord : Ordered s l g h)
    (hstep : State.step s a = some t) (hmoves : Moves s t.hooks l l') : Ordered t l' g h := by
  rcases hord with hdropped | hdropped | hord
  · exact Or.inl (hdropped.isDropped_step hstep)
  · exact Or.inr (Or.inl (hdropped.isDropped_step hstep))
  cases hmoves with
  | keep => exact Or.inr (Or.inr hord)
  | @push _ _ id =>
    refine Or.inr (Or.inr ?_)
    rcases hord with hsub | ⟨hg, hh⟩
    · exact Or.inl (hsub.cons _)
    · by_cases hid : h = id
      · subst hid
        exact Or.inl ((List.singleton_sublist.2 hg).cons_cons _)
      · exact Or.inr ⟨List.mem_cons_of_mem _ hg, by simp [hid, hh]⟩
  | @remove l₁ l₂ _ id _ hget hdropped =>
    by_cases hg : id = g
    · exact Or.inl ⟨_, hg ▸ hget, hdropped⟩
    by_cases hh : id = h
    · exact Or.inr (Or.inl ⟨_, hh ▸ hget, hdropped⟩)
    rw [List.map_append, List.map_cons] at hord
    rw [Ordered, List.map_append]
    refine Or.inr (Or.inr ?_)
    rcases hord with hsub | ⟨hg', hh'⟩
    · exact Or.inl (sublist_erase hsub hh hg)
    · refine Or.inr ⟨?_, fun hmem => hh' ?_⟩
      · simpa [Ne.symm hg] using hg'
      · simpa [Ne.symm hh] using hmem

/-- While both are registered, `g` is behind `h` in the list. -/
theorem Ordered.sublist (hord : Ordered s l g h) (hinv : Inv s l) (hg : Registered s g)
    (hh : Registered s h) : [h, g].Sublist (l.map Prod.snd) := by
  have hnot : ∀ id, Registered s id → ¬s.HookIs HookState.isDropped id := by
    rintro id ⟨hook, hget, hreg⟩ ⟨hook', hget', hdropped⟩
    obtain rfl := Option.some.inj (hget.symm.trans hget')
    exact HookState.not_isDropped_of_isRegistered hreg hdropped
  rcases hord with hdropped | hdropped | hsub | ⟨-, hnmem⟩
  · exact absurd hdropped (hnot g hg)
  · exact absurd hdropped (hnot h hh)
  · exact hsub
  · obtain ⟨hook, hget, hreg⟩ := hh
    refine absurd ((hinv.mem_ids hget).2 ?_) hnmem
    rw [HookState.listKey_of_isRegistered hreg]
    rfl

/-- The counter is positive while two hooks are registered. -/
theorem Inv.extraCount_pos (hinv : Inv s l) (hne : g ≠ h) (hg : Registered s g)
    (hh : Registered s h) : 0 < s.extraCount := by
  obtain ⟨hook, hget, hreg⟩ := hg
  obtain ⟨hook', hget', hreg'⟩ := hh
  have hcount := Pool.two_le_countP hne hget hget'
    (HookState.isCounted_of_isRegistered hreg) (HookState.isCounted_of_isRegistered hreg')
  have := hinv.extraCount
  omega

/-- The closure of the hook `next` is right behind that of `h` in the list. -/
def IsNext (s : State) (h next : ℕ) : Prop :=
  ∃ l₁ l₂ key key', s.closures.Represents (l₁ ++ (key, h) :: (key', next) :: l₂)

/-- With an older hook registered, the lookup finds the next one. -/
theorem Ordered.getNext (hord : Ordered s l g h) (hinv : Inv s l) (hg : Registered s g)
    (hh : Registered s h) (hget : s.hooks[h]? = some hook) :
    ∃ next, s.closures.getNext hook.key = some next ∧ s.IsNext h next := by
  have hsub := hord.sublist hinv hg hh
  obtain ⟨hook', hget', hreg⟩ := hh
  obtain rfl := Option.some.inj (hget.symm.trans hget')
  obtain ⟨l₁, l₂, rfl⟩ := hinv.exists_split hget (HookState.listKey_of_isRegistered hreg)
  have hnodup := hinv.nodup
  rw [List.map_append, List.map_cons] at hsub hnodup
  cases l₂ with
  | nil =>
    -- nothing is behind the last pair, and `h` is nowhere else
    obtain ⟨xs, ys, hsplit, hxs, hys⟩ := List.sublist_append_iff.1 hsub
    rw [List.nodup_middle] at hnodup
    cases xs with
    | nil =>
      rw [List.nil_append] at hsplit
      exact absurd (hsplit ▸ hys).length_le (by simp)
    | cons x xs =>
      obtain rfl : h = x := (List.cons.inj hsplit).1
      exact absurd (List.mem_append_left _ (hxs.subset List.mem_cons_self))
        (List.nodup_cons.1 hnodup).1
  | cons e l₂ =>
    exact ⟨e.2, hinv.closures.getNext_eq, l₁, l₂, hook.key, e.1, hinv.closures⟩

/-! ## A call of `call_original` -/

/-- A call moves by its own steps only. -/
theorem call_of_step {a : Action} {c : ℕ} {call : Call} (hcall : s.calls[c]? = some call)
    (hstep : step s a = some t) :
    (a ≠ .call c ∧ t.calls[c]? = some call) ∨ (a = .call c ∧ s.stepCall c call = some t) := by
  cases a with
  | create =>
    obtain rfl := Option.some.inj hstep
    exact Or.inl ⟨nofun, hcall⟩
  | hook id vacant =>
    obtain ⟨hook, hget, hstep⟩ := Option.bind_eq_some_iff.1 hstep
    exact Or.inl ⟨nofun, by rw [(effect_of_stepHook hget hstep).2, hcall]⟩
  | callOriginal id =>
    simp only [step] at hstep
    split at hstep
    · split_ifs at hstep
      obtain rfl := Option.some.inj hstep
      refine Or.inl ⟨nofun, ?_⟩
      rw [List.getElem?_append_left (List.getElem?_eq_some_iff.1 hcall).1, hcall]
    · cases hstep
  | call c' =>
    obtain ⟨call', hcall', hstep⟩ := Option.bind_eq_some_iff.1 hstep
    by_cases hc : c' = c
    · subst hc
      obtain rfl := Option.some.inj (hcall.symm.trans hcall')
      exact Or.inr ⟨rfl, hstep⟩
    · obtain ⟨-, -, -, call'', hcalls⟩ := stepCall_eq hstep
      exact Or.inl ⟨by simpa using hc, by rw [hcalls, List.getElem?_set_ne hc, hcall]⟩

/-- The call `c` looked up `next` behind `h`, at a moment when that was right. -/
def LookedUp (s : State) (as : List Action) (c h next : ℕ) : Prop :=
  Transition.Took State.step s as (.call c) fun u =>
    u.calls[c]? = some (.reading h) ∧ u.IsNext h next

/-- The call `c` of `h.call_original` called the closure of `next`. -/
def Invoked (s : State) (as : List Action) (c h next : ℕ) : Prop :=
  Transition.Took State.step s as (.call c) fun u => u.calls[c]? = some (.invoking h next)

/-- Where the call `c` of `h.call_original` is after the actions `as`, if it goes to the next
hook. It returns from the closure of that hook. -/
inductive Follows (s : State) (as : List Action) (c h : ℕ) : Call → Prop where
  | entry : Follows s as c h (.entry h)
  | slow : Follows s as c h (.slow h)
  | reading : Follows s as c h (.reading h)
  | looked {next : ℕ} (hnext : LookedUp s as c h next) : Follows s as c h (.looked h (some next))
  | invoking {next : ℕ} (hnext : LookedUp s as c h next) : Follows s as c h (.invoking h next)
  | returned {next : ℕ} (hnext : LookedUp s as c h next)
      (hinvoked : Invoked s as c h next) : Follows s as c h .returned

/-- What was called in a run was called in a longer one. -/
theorem Follows.append {as : List Action} {c : ℕ} {call : Call} (hcall : Follows s as c h call)
    (bs : List Action) : Follows s (as ++ bs) c h call := by
  cases hcall with
  | entry => exact Follows.entry
  | slow => exact Follows.slow
  | reading => exact Follows.reading
  | looked hnext => exact Follows.looked (hnext.append bs)
  | invoking hnext => exact Follows.invoking (hnext.append bs)
  | returned hnext hinvoked => exact Follows.returned (hnext.append bs) (hinvoked.append bs)

/-- A step of the call brings it closer to its return, while `g` and `h` are registered. -/
theorem Follows.step {as : List Action} {c : ℕ} {call : Call} {r : State}
    (hcall : Follows r as c h call) (hrun : Transition.run State.step r as = some s)
    (hget : s.calls[c]? = some call) (hstep : s.stepCall c call = some t) (hinv : Inv s l)
    (hord : Ordered s l g h) (hne : g ≠ h) (hg : Registered s g) (hh : Registered s h) :
    ∃ call', t.calls[c]? = some call' ∧ Follows r (as ++ [.call c]) c h call' ∧
      call'.stepsLeft + 1 = call.stepsLeft := by
  cases hcall with
  | entry =>
    simp only [stepCall, hinv.extraCount_pos hne hg hh, if_true] at hstep
    obtain rfl := Option.some.inj hstep
    exact ⟨_, Pool.getElem?_set_of_getElem? hget, Follows.slow, rfl⟩
  | slow =>
    simp only [stepCall] at hstep
    split_ifs at hstep
    obtain rfl := Option.some.inj hstep
    exact ⟨_, Pool.getElem?_set_of_getElem? hget, Follows.reading, rfl⟩
  | reading =>
    obtain ⟨hook, hhook, rfl⟩ := Option.map_eq_some_iff.1 hstep
    obtain ⟨next, hnext, hisNext⟩ := hord.getNext hinv hg hh hhook
    rw [hnext]
    exact ⟨_, Pool.getElem?_set_of_getElem? hget,
      Follows.looked (Transition.took_snoc hrun ⟨hget, hisNext⟩), rfl⟩
  | looked hnext =>
    obtain rfl := Option.some.inj hstep
    exact ⟨_, Pool.getElem?_set_of_getElem? hget, Follows.invoking (hnext.append _), rfl⟩
  | invoking hnext =>
    obtain rfl := Option.some.inj hstep
    exact ⟨_, Pool.getElem?_set_of_getElem? hget,
      Follows.returned (hnext.append _) (Transition.took_snoc hrun hget), rfl⟩
  | returned => cases hstep

/-- The call does not get stuck, unless it waits for the lock. -/
theorem Follows.isSome_step {as : List Action} {c : ℕ} {call : Call} {r : State}
    (hcall : Follows r as c h call) (hget : s.calls[c]? = some call) (hh : Registered s h)
    (hreturned : call ≠ .returned) (hwriter : s.writer = false) :
    (State.step s (.call c)).isSome := by
  rw [State.step, hget, Option.bind_some]
  cases hcall with
  | entry =>
    simp only [stepCall]
    split_ifs <;> rfl
  | slow => simp [stepCall, hwriter]
  | reading =>
    obtain ⟨hook, hget, -⟩ := hh
    simp [stepCall, hget]
  | looked | invoking => rfl
  | returned => exact absurd rfl hreturned

/-- Two hooks keep their order in a run. -/
theorem exists_ordered {as : List Action} (hinv : Inv s l) (hord : Ordered s l g h)
    (hrun : Transition.run State.step s as = some t) : ∃ l', Inv t l' ∧ Ordered t l' g h := by
  refine Transition.run_invariant_of_step (I := fun s => ∃ l, Inv s l ∧ Ordered s l g h) ?_
    ⟨l, hinv, hord⟩ hrun
  rintro s a t ⟨l, hinv, hord⟩ hstep
  obtain ⟨l', hinv', hmoves⟩ := hinv.step hstep
  exact ⟨l', hinv', hord.step hstep hmoves⟩

/-- When `h` is not in the list yet and `g` is, `g` will be behind `h`. -/
theorem Inv.ordered (hinv : Inv s l) (hg : Registered s g)
    (hh : ∀ hook, s.hooks[h]? = some hook → hook.isUnlisted = true) : Ordered s l g h := by
  refine Or.inr (Or.inr (Or.inr ⟨?_, fun hmem => ?_⟩))
  · obtain ⟨hook, hget, hreg⟩ := hg
    rw [hinv.mem_ids hget, HookState.listKey_of_isRegistered hreg]
    rfl
  · obtain ⟨⟨key, _⟩, he, rfl⟩ := List.mem_map.1 hmem
    obtain ⟨hook, hget, hkey⟩ := (hinv.listed _ _).1 he
    have hunlisted := hh hook hget
    revert hkey hunlisted
    cases hphase : hook.phase <;> simp [HookState.listKey, HookState.isUnlisted, hphase]

end Inv

/-- A hook `g` is installed before `h`, and both are registered during a call of
`h.call_original`. At every moment the call is on its way to the hook that was next after `h`
when it looked it up, never to the original function, or it has returned from the closure of that
hook. It returns with its fifth step, and until then it can go on whenever no writer holds the
lock. -/
theorem callOriginal_follows {as₁ as₂ as₃ : List Action} {s₁ s₂ s₃ : State} {g h c : ℕ}
    (h₁ : Transition.run step init as₁ = some s₁) (hg : s₁.Registered g)
    (hh : ∀ hook, s₁.hooks[h]? = some hook → hook.isUnlisted = true)
    (h₂ : Transition.run step s₁ as₂ = some s₂) (hcall : s₂.calls[c]? = some (.entry h))
    (h₃ : Transition.run step s₂ as₃ = some s₃)
    (hregistered : Transition.Throughout step (fun s => s.Registered g ∧ s.Registered h) s₂ as₃) :
    ∃ call, s₃.calls[c]? = some call ∧ call ≠ .original h ∧ Follows s₂ as₃ c h call ∧
      as₃.count (.call c) + call.stepsLeft = 5 ∧
      (call ≠ .returned → s₃.writer = false → (step s₃ (.call c)).isSome) := by
  obtain ⟨l₁, hinv₁⟩ := exists_inv h₁
  obtain ⟨l₂, hinv₂, hord₂⟩ := exists_ordered hinv₁ (hinv₁.ordered hg hh) h₂
  have hne : g ≠ h := by
    rintro rfl
    obtain ⟨hook, hget, hreg⟩ := hg
    have hunlisted := hh hook hget
    rcases HookState.isRegistered_iff.1 hreg with hphase | hphase <;>
      simp [HookState.isUnlisted, hphase] at hunlisted
  have hfollows := Transition.run_history
    (P := fun as u => Transition.Throughout step (fun s => s.Registered g ∧ s.Registered h) s₂ as →
      ∃ call, u.calls[c]? = some call ∧ Follows s₂ as c h call ∧
        as.count (.call c) + call.stepsLeft = 5)
    (fun _ => ⟨_, hcall, Follows.entry, rfl⟩)
    (fun as a t u hrun ih hstep hthroughout => by
      obtain ⟨call, hget, hcall, hcount⟩ := ih hthroughout.of_append
      obtain ⟨hregg, hregh⟩ := hthroughout.of_append.last hrun
      obtain ⟨l, hinv, hord⟩ := exists_ordered hinv₂ hord₂ hrun
      rcases call_of_step hget hstep with ⟨hother, hsame⟩ | ⟨rfl, hown⟩
      · refine ⟨call, hsame, hcall.append _, ?_⟩
        rwa [List.count_append, List.count_singleton, if_neg (by simpa using hother)]
      · obtain ⟨call', hget', hcall', hleft⟩ := hcall.step hrun hget hown hinv hord hne hregg hregh
        refine ⟨call', hget', hcall', ?_⟩
        rw [List.count_append, List.count_singleton_self]
        omega)
    as₃ h₃ hregistered
  obtain ⟨call, hget, hcall, hcount⟩ := hfollows
  refine ⟨call, hget, ?_, hcall, hcount, hcall.isSome_step hget (hregistered.last h₃).2⟩
  rintro rfl
  cases hcall

/-- The whole installation of the hook `id` at the key `vacant`. -/
def installActions (id vacant : ℕ) : List Action :=
  .create :: List.replicate 5 (.hook id vacant)

/-- A call of the second of two hooks, while a third one is installed and dropped. -/
def sampleActions : List Action :=
  [.create, .hook 2 7, .hook 2 7, .call 0, .hook 2 7, .hook 2 7, .hook 2 7, .hook 2 7, .call 0,
    .hook 2 7, .call 0, .call 0, .hook 2 7, .call 0]

/-- The call has called the closure of the hook behind its own and has returned. -/
theorem callOriginal_follows_sampleActions : ∃ s₁ s₂ s₃ next,
    Transition.run step init (installActions 0 3) = some s₁ ∧
      Transition.run step s₁ (installActions 1 5 ++ [.callOriginal 1]) = some s₂ ∧
      Transition.run step s₂ sampleActions = some s₃ ∧ s₃.calls[0]? = some .returned ∧
      LookedUp s₂ sampleActions 0 1 next ∧ Invoked s₂ sampleActions 0 1 next := by
  have hcall := @callOriginal_follows (installActions 0 3)
    (installActions 1 5 ++ [.callOriginal 1]) sampleActions _ _ _ 0 1 0 rfl (by decide) (by decide)
    rfl rfl rfl (by decide)
  obtain ⟨call, hget, -, hfollows, -⟩ := hcall
  obtain rfl : call = .returned := (Option.some.inj hget).symm
  cases hfollows with
  | returned hnext hinvoked => exact ⟨_, _, _, _, rfl, rfl, rfl, rfl, hnext, hinvoked⟩

end State

end Concurrent

end Diversion
