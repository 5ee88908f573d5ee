import Diversion.Lib.Transition
import Diversion.Scoped
import Mathlib.Tactic.Common

/-!
# The object a scoped hook is called on

`ScopedStrategy::hook` (src/hook/scoped.rs) erases the type of the strategy it boxes, and the
thunk goes back to it through a raw pointer. Memory is a list of objects, an address is an
index of it, and a pointer has a static type and designates the object at its address. Taking
the address of a place, unsizing and casting keep the address.

The thunk casts the address of its local `scoped`, which is the `DropGuard` around the `Arc`
and not the strategy. So `ScopedStrategy::call` never runs on the object that was registered
(`callsStrategy_iff`). `DropGuard::deref`, `Arc::deref` and `Box::deref` one after the other
would lead to it (`derefGuard_eq`).
-/

namespace Diversion

namespace ScopedPtr

variable {H Args Ret : Type*}

/-! ## Strategies -/

/-- How the closures of type `H` are called. -/
structure Closures (H Args Ret : Type*) where
  /-- The result of a call, and the closure after it. -/
  apply : H → Args → Ret × H
  /-- `call_original` of the hook. -/
  callOriginal : Args → Ret

/-- A strategy object. -/
inductive Strategy (H : Type*) where
  /-- `ScopedHook`. -/
  | hook (h : H)
  /-- `ScopedHookMut`. -/
  | hookMut (h : H)
  /-- `ScopedHookOnce`. -/
  | hookOnce (h : Option H) (flag : Bool)
deriving DecidableEq, Repr

/-- `ScopedStrategy::new`. -/
def Strategy.new (h : H) : Scoped.Strategy → Strategy H
  | .hook => .hook h
  | .hookMut => .hookMut h
  | .hookOnce => .hookOnce (some h) true

/-- `ScopedStrategy::call` : the result, and the strategy after the call. -/
def Strategy.call (f : Closures H Args Ret) (args : Args) : Strategy H → Ret × Strategy H
  | .hook h => ((f.apply h args).1, .hook h)
  | .hookMut h => ((f.apply h args).1, .hookMut (f.apply h args).2)
  | .hookOnce (some h) true => ((f.apply h args).1, .hookOnce none false)
  | .hookOnce h flag => (f.callOriginal args, .hookOnce h flag)

/-- A strategy that has just been made calls the closure it was made with. -/
theorem Strategy.call_new (f : Closures H Args Ret) (args : Args) (h : H)
    (strategy : Scoped.Strategy) :
    ((Strategy.new h strategy).call f args).1 = (f.apply h args).1 := by
  cases strategy <;> rfl

/-! ## Memory -/

/-- What the memory of the scope holds at an address. -/
inductive Object (H : Type*) where
  | strategy (strategy : Strategy H)
  /-- The allocation of an `Arc`, with the strong count and the address of the box. -/
  | arcInner (strong box : ℕ)
  /-- A local `DropGuard`, with the address of the allocation of its `Arc`. -/
  | dropGuard (arc : ℕ)
deriving DecidableEq, Repr

/-- The static types of raw pointers. -/
inductive Pointee where
  | dropGuard
  /-- `dyn Send + Sync`. -/
  | dyn
  /-- `Self`, the type of the strategy. -/
  | self
deriving DecidableEq, Repr

/-- A pointer, with the type that the code believes it has. -/
structure Ptr (pointee : Pointee) where
  addr : ℕ
deriving DecidableEq, Repr

/-- `&raw const` of the place at `addr`. -/
def rawConst (pointee : Pointee) (addr : ℕ) : Ptr pointee :=
  ⟨addr⟩

/-- The unsizing coercion to `*const dyn`. -/
def Ptr.unsize {pointee : Pointee} (p : Ptr pointee) : Ptr .dyn :=
  ⟨p.addr⟩

/-- `<*const dyn>::cast::<Self>`. -/
def Ptr.cast (p : Ptr .dyn) : Ptr .self :=
  ⟨p.addr⟩

/-- A registered hook. -/
structure Hook (H : Type*) where
  /-- The closure `source` has returned. -/
  closure : H
  /-- The address of the strategy. -/
  strategy : ℕ
  /-- The address of the allocation the weak reference points to. -/
  weak : ℕ
deriving DecidableEq, Repr

/-- The memory of a scope and its hooks. -/
structure Scope (H : Type*) where
  objects : List (Object H)
  /-- The hooks that have been registered. -/
  hooks : List (Hook H)
  /-- The exit guard has taken the vector of the `Arc`s. -/
  exited : Bool
deriving DecidableEq, Repr

/-- What the thunk does. -/
inductive Outcome (Ret : Type*) where
  /-- `ScopedStrategy::call` on `self`. There is no result if that is no strategy. -/
  | entered (self : Ptr .self) (result : Option Ret)
  | original (result : Ret)
deriving DecidableEq, Repr

/-- Drop a strong reference to an allocation. -/
def Object.release : Object H → Object H
  | .arcInner strong box => .arcInner (strong - 1) box
  | object => object

namespace Scope

/-- An empty scope. -/
def new : Scope H :=
  ⟨[], [], false⟩

/-- A new object, at the next address. -/
def alloc (s : Scope H) (object : Object H) : Scope H × ℕ :=
  ({ s with objects := s.objects ++ [object] }, s.objects.length)

/-- `ScopedStrategy::hook` : box the strategy, put the box in an `Arc`, push the `Arc`. -/
def hook (s : Scope H) (strategy : Scoped.Strategy) (closure : H) : Scope H :=
  let (s, hookFn) := s.alloc (.strategy (.new closure strategy))
  let (s, strong) := s.alloc (.arcInner 1 hookFn)
  { s with hooks := s.hooks ++ [⟨closure, hookFn, strong⟩] }

/-- The exit guard of the scope drops the `Arc`s of the vector, one for each allocation. -/
def exit (s : Scope H) : Scope H :=
  { s with objects := s.objects.map Object.release, exited := true }

/-- `Weak::upgrade`. -/
def upgrade (s : Scope H) (weak : ℕ) : Option (Scope H) :=
  match s.objects[weak]? with
  | some (.arcInner (strong + 1) box) =>
    some { s with objects := s.objects.set weak (.arcInner (strong + 2) box) }
  | _ => none

/-- `Arc::into_inner` of a call. -/
def release (s : Scope H) (weak : ℕ) : Scope H :=
  { s with objects := s.objects.modify weak Object.release }

/-- `ScopedStrategy::call` on the object that `self` designates. -/
def call (f : Closures H Args Ret) (s : Scope H) (self : Ptr .self) (args : Args) : Option Ret :=
  match s.objects[self.addr]? with
  | some (.strategy strategy) => some (strategy.call f args).1
  | _ => none

/-- The thunk of `ScopedStrategy::hook`. -/
def thunk (f : Closures H Args Ret) (s : Scope H) (hook : Hook H) (args : Args) : Outcome Ret :=
  match s.upgrade hook.weak with
  | some s =>
    -- the local `scoped`
    let (s, place) := s.alloc (.dropGuard hook.weak)
    let downcast := (rawConst .dropGuard place).unsize.cast
    .entered downcast (s.call f downcast args)
  | none => .original (f.callOriginal args)

/-- `DropGuard::deref`, `Arc::deref` and `Box::deref` of the guard at `place`. -/
def derefGuard (s : Scope H) (place : ℕ) : Option ℕ :=
  match s.objects[place]? with
  | some (.dropGuard arc) =>
    match s.objects[arc]? with
    | some (.arcInner _ box) => some box
    | _ => none
  | _ => none

/-! ## Histories -/

/-- What the threads do with the scope. -/
inductive Op (H : Type*) where
  | hook (strategy : Scoped.Strategy) (closure : H)
  /-- A call upgrades the weak reference to the allocation `weak`, and makes its guard. -/
  | enter (weak : ℕ)
  /-- Such a call drops its guard. -/
  | leave (weak : ℕ)
  | exit
deriving DecidableEq, Repr

/-- `none` where the operation cannot happen. -/
def step (s : Scope H) : Op H → Option (Scope H)
  | .hook strategy closure => if s.exited then none else some (s.hook strategy closure)
  | .enter weak => (s.upgrade weak).map fun s => (s.alloc (.dropGuard weak)).1
  | .leave weak => some (s.release weak)
  | .exit => if s.exited then none else some s.exit

/-- An entered call runs on the strategy that was registered, and returns what the registered
closure does. -/
def CallsStrategy (f : Closures H Args Ret) (s : Scope H) (hook : Hook H) (args : Args) : Prop :=
  ∀ self result, s.thunk f hook args = .entered self result →
    self.addr = hook.strategy ∧ result = some (f.apply hook.closure args).1

/-- The allocation of the hook holds the box of its strategy. -/
structure Registered (s : Scope H) (hook : Hook H) : Prop where
  strategy : ∃ kind, s.objects[hook.strategy]? = some (.strategy (.new hook.closure kind))
  weak : ∃ strong, s.objects[hook.weak]? = some (.arcInner strong hook.strategy)

section Registered

variable {s t : Scope H} {hook : Hook H} {f : Closures H Args Ret} {args : Args}

theorem Registered.alloc (h : Registered s hook) (object : Object H) :
    Registered (s.alloc object).1 hook := by
  obtain ⟨kind, hstrategy⟩ := h.strategy
  obtain ⟨strong, hweak⟩ := h.weak
  refine ⟨⟨kind, ?_⟩, ⟨strong, ?_⟩⟩
  · exact (List.getElem?_append_left (List.getElem?_eq_some_iff.1 hstrategy).1).trans hstrategy
  · exact (List.getElem?_append_left (List.getElem?_eq_some_iff.1 hweak).1).trans hweak

/-- Changes of strong counts keep a hook registered. -/
theorem Registered.of_objects {g : Object H → Object H} (h : Registered s hook)
    (hstrategy : ∀ x, g (.strategy x) = .strategy x)
    (harc : ∀ strong box, ∃ strong', g (.arcInner strong box) = .arcInner strong' box)
    (hobjects : ∀ a : ℕ, t.objects[a]? = s.objects[a]? ∨ t.objects[a]? = s.objects[a]?.map g) :
    Registered t hook := by
  obtain ⟨kind, hs⟩ := h.strategy
  obtain ⟨strong, hw⟩ := h.weak
  obtain ⟨strong', hstrong'⟩ := harc strong hook.strategy
  constructor
  · rcases hobjects hook.strategy with heq | heq
    · exact ⟨kind, heq.trans hs⟩
    · exact ⟨kind, by rw [heq, hs, Option.map_some, hstrategy]⟩
  · rcases hobjects hook.weak with heq | heq
    · exact ⟨strong, heq.trans hw⟩
    · exact ⟨strong', by rw [heq, hw, Option.map_some, hstrong']⟩

theorem Registered.exit (h : Registered s hook) : Registered s.exit hook :=
  h.of_objects (g := Object.release) (fun _ => rfl) (fun strong _ => ⟨strong - 1, rfl⟩)
    fun a => Or.inr (by simp [Scope.exit])

theorem Registered.release (h : Registered s hook) (weak : ℕ) :
    Registered (s.release weak) hook :=
  h.of_objects (g := Object.release) (fun _ => rfl) (fun strong _ => ⟨strong - 1, rfl⟩)
    fun a => by
      simp only [Scope.release, List.getElem?_modify]
      split_ifs
      · exact Or.inr rfl
      · exact Or.inl (by simp)

theorem Registered.upgrade {weak : ℕ} (h : Registered s hook) (hup : s.upgrade weak = some t) :
    Registered t hook := by
  unfold Scope.upgrade at hup
  split at hup
  case h_2 => cases hup
  case h_1 strong box hweak =>
    obtain rfl := Option.some.inj hup
    -- the count of `weak` is one more, whichever hook it belongs to
    refine h.of_objects (g := fun
      | .arcInner strong box => .arcInner (strong + 1) box
      | object => object) (fun _ => rfl) (fun strong _ => ⟨strong + 1, rfl⟩) fun a => ?_
    by_cases ha : weak = a
    · subst ha
      exact Or.inr (by rw [hweak, Pool.getElem?_set_of_getElem? hweak]; rfl)
    · exact Or.inl (List.getElem?_set_ne ha)

/-- Registering a hook keeps the others and registers the new one. -/
theorem registered_hook (h : ∀ hook ∈ s.hooks, Registered s hook) (strategy : Scoped.Strategy)
    (closure : H) : ∀ hook ∈ (s.hook strategy closure).hooks,
      Registered (s.hook strategy closure) hook := by
  intro hook hmem
  rcases List.mem_append.1 hmem with hmem | hmem
  · have hreg := ((h hook hmem).alloc (.strategy (.new closure strategy))).alloc
      (.arcInner 1 s.objects.length)
    exact ⟨hreg.strategy, hreg.weak⟩
  · obtain rfl := List.mem_singleton.1 hmem
    exact ⟨⟨strategy, by simp [Scope.hook, Scope.alloc]⟩, ⟨1, by simp [Scope.hook, Scope.alloc]⟩⟩

theorem hooks_of_upgrade {weak : ℕ} (hup : s.upgrade weak = some t) : t.hooks = s.hooks := by
  unfold Scope.upgrade at hup
  split at hup
  · obtain rfl := Option.some.inj hup
    rfl
  · cases hup

theorem registered_of_run {ops : List (Op H)} (hrun : Transition.run step new ops = some s) :
    ∀ hook ∈ s.hooks, Registered s hook := by
  refine Transition.run_invariant_of_step (I := fun s => ∀ hook ∈ s.hooks, Registered s hook)
    (fun s op t h hstep => ?_) (by simp [new]) hrun
  cases op with
  | hook strategy closure =>
    simp only [step] at hstep
    split_ifs at hstep
    obtain rfl := Option.some.inj hstep
    exact registered_hook h strategy closure
  | enter weak =>
    obtain ⟨u, hup, rfl⟩ := Option.map_eq_some_iff.1 hstep
    have hhooks : u.hooks = s.hooks := hooks_of_upgrade hup
    exact fun hook hmem => ((h hook (hhooks ▸ hmem)).upgrade hup).alloc _
  | leave weak =>
    obtain rfl := Option.some.inj hstep
    exact fun hook hmem => (h hook hmem).release weak
  | exit =>
    simp only [step] at hstep
    split_ifs at hstep
    obtain rfl := Option.some.inj hstep
    exact fun hook hmem => (h hook hmem).exit

/-! ## The object of a call -/

/-- The thunk calls the place of its guard, which is a new object. -/
theorem thunk_of_upgrade (hup : s.upgrade hook.weak = some t) :
    s.thunk f hook args = .entered ⟨t.objects.length⟩ none := by
  simp [thunk, hup, Scope.alloc, rawConst, Ptr.unsize, Ptr.cast, Scope.call]

/-- The strategy is where the guard derefs to, and calling it there calls the closure. -/
theorem Registered.derefGuard_eq (h : Registered s hook) (hup : s.upgrade hook.weak = some t) :
    (t.alloc (.dropGuard hook.weak)).1.derefGuard t.objects.length = some hook.strategy ∧
      (t.alloc (.dropGuard hook.weak)).1.call f ⟨hook.strategy⟩ args =
        some (f.apply hook.closure args).1 := by
  have hreg := (h.upgrade hup).alloc (.dropGuard hook.weak)
  obtain ⟨kind, hstrategy⟩ := hreg.strategy
  obtain ⟨strong, hweak⟩ := hreg.weak
  constructor
  · have hplace : (t.alloc (.dropGuard hook.weak)).1.objects[t.objects.length]? =
        some (.dropGuard hook.weak) := by simp [Scope.alloc]
    simp [derefGuard, hplace, hweak]
  · simp [Scope.call, hstrategy, Strategy.call_new]

theorem Registered.calls_iff (h : Registered s hook) :
    CallsStrategy f s hook args ↔ s.upgrade hook.weak = none := by
  constructor
  · intro hcalls
    cases hup : s.upgrade hook.weak with
    | none => rfl
    | some t =>
      obtain ⟨kind, hstrategy⟩ := (h.upgrade hup).strategy
      have haddr := (hcalls _ _ (thunk_of_upgrade hup)).1
      exact absurd haddr (List.getElem?_eq_some_iff.1 hstrategy).1.ne'
  · intro hup self result hentered
    simp [thunk, hup] at hentered

end Registered

/-- After any history of a scope, a call that enters a hook does not call its strategy. -/
theorem callsStrategy_iff {ops : List (Op H)} {s : Scope H} {hook : Hook H}
    (hrun : Transition.run step new ops = some s) (hmem : hook ∈ s.hooks)
    (f : Closures H Args Ret) (args : Args) :
    CallsStrategy f s hook args ↔ s.upgrade hook.weak = none :=
  (registered_of_run hrun hook hmem).calls_iff

/-- Closures that add the number they have captured. -/
def addClosures : Closures ℕ ℕ ℕ where
  apply h args := (h + args, h)
  callOriginal args := args

/-- After the end of the scope the hook is not entered. -/
theorem callsStrategy_exit : ∃ s : Scope ℕ,
    Transition.run step new [.hook .hookMut 5, .enter 1, .leave 1, .exit] = some s ∧
      s.thunk addClosures ⟨5, 0, 1⟩ 2 = .original 2 ∧ CallsStrategy addClosures s ⟨5, 0, 1⟩ 2 := by
  have hrun : Transition.run step new [.hook .hookMut 5, .enter 1, .leave 1, .exit] = some _ := rfl
  exact ⟨_, hrun, rfl, (callsStrategy_iff hrun (by decide) addClosures 2).2 rfl⟩

/-- The strategy of a hook is at 0 and its guard at 2, and 2 is what is called. -/
theorem not_callsStrategy : ∃ s : Scope ℕ,
    Transition.run step new [.hook .hook 5] = some s ∧
      s.thunk addClosures ⟨5, 0, 1⟩ 2 = .entered ⟨2⟩ none ∧
      ¬CallsStrategy addClosures s ⟨5, 0, 1⟩ 2 := by
  refine ⟨_, rfl, rfl, fun h => ?_⟩
  exact absurd (h ⟨2⟩ none rfl).1 (by decide)

end Scope

end ScopedPtr

end Diversion
