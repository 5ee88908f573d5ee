import Diversion.LinkedSlab
import Diversion.Lib.Transition
import Mathlib.Data.List.Sort
import Mathlib.Tactic.Common

/-!
# Temporary hooks, one operation after the other

A target that is hooked with `TemporaryHook` (src/hook/temp.rs) has a list of closures,
newest first, and a counter of the hooks beyond the first, `extra_count`, which starts at
-1. `call_original` of a hook goes straight to the original function unless the counter is
positive, else it looks up the closure behind its own in the list.

Operations are the installation of a hook, an installation whose `source` callback panics,
and the drop of a last handle. Hooks are numbered as they are created, so that a larger
number is a newer hook. `Inv` ties the list, the handles and the counter together; a failed
installation leaves the counter one too low (`Inv`'s `failures`), because the drop of the
half-made handle undoes an increment that has not happened.
-/

namespace Diversion

/-- The handle of a hook : the key its closure is stored at, `usize::MAX` at first. -/
structure Hook where
  key : ℕ
deriving DecidableEq, Repr

/-- The state of one target. A closure in the list is named by its hook. -/
structure Target where
  closures : LinkedSlab ℕ
  extraCount : ℤ
  /-- The live handles. -/
  handles : ℕ → Option Hook
  /-- The number of handles created so far. -/
  created : ℕ

/-- What a call of the target runs. -/
inductive Ran where
  | hook (id : ℕ)
  | original
deriving DecidableEq, Repr

namespace Target

/-- `ErasedClosureList::default`. -/
def new : Target where
  closures := .new
  extraCount := -1
  handles _ := none
  created := 0

/-! ## Operations -/

/-- `into_unowned_handle`, a handle with the placeholder key. -/
def intoUnownedHandle (t : Target) : Target × ℕ :=
  ({ t with
    handles := Function.update t.handles t.created (some ⟨usizeMax⟩)
    created := t.created + 1 }, t.created)

/-- `Hook::drop`. -/
def dropHook (t : Target) (id : ℕ) (hook : Hook) : Target where
  closures := (t.closures.remove hook.key).2
  extraCount := t.extraCount - 1
  handles := Function.update t.handles id none
  created := t.created

/-- `hook_unchecked_lt`, where the slab returns the key `vacant`. -/
def hookUncheckedLt (t : Target) (vacant : ℕ) : Target :=
  let (t, id) := t.intoUnownedHandle
  let (closures, key) := t.closures.pushFront vacant id
  { t with
    closures
    handles := Function.update t.handles id (some ⟨key⟩)
    extraCount := t.extraCount + 1 }

/-- `hook_unchecked_lt` when `source` panics : unwinding drops the handle. -/
def hookUncheckedLtPanics (t : Target) : Target :=
  let (t, id) := t.intoUnownedHandle
  t.dropHook id ⟨usizeMax⟩

/-- An installation, one whose callback panics, or the drop of a hook. -/
inductive Op where
  | install (vacant : ℕ)
  | installPanics
  | drop (id : ℕ)
deriving DecidableEq, Repr

/-- `none` for a key that is not vacant or a hook that was not made. -/
def step (t : Target) : Op → Option Target
  | .install vacant =>
    if (t.closures.inner.get vacant).isNone ∧ vacant < usizeMax then
      some (t.hookUncheckedLt vacant)
    else none
  | .installPanics => some t.hookUncheckedLtPanics
  | .drop id => (t.handles id).map (t.dropHook id)

/-! ## Calls -/

/-- The closure the slow path of `call_original` calls, or the original if there is none. -/
def callOriginalSlow (t : Target) (hook : Hook) : Option ℕ :=
  t.closures.getNext hook.key

/-- The closure `call_original` calls. -/
def callOriginal (t : Target) (hook : Hook) : Option ℕ :=
  if 0 < t.extraCount then t.callOriginalSlow hook else none

/-- Run a closure that forwards through `call_original`. It panics if its handle is gone. -/
def runFrom (t : Target) : ℕ → Option ℕ → Option (List Ran)
  | _, none => some [.original]
  | 0, some _ => none
  | fuel + 1, some id => do
    let hook ← t.handles id
    let ran ← t.runFrom fuel (t.callOriginal hook)
    some (.hook id :: ran)

/-- Call the target : the thunk runs the first closure of the list. -/
def call (t : Target) (fuel : ℕ) : Option (List Ran) :=
  t.runFrom fuel t.closures.firstItem

/-- The live hooks, newest first. -/
def liveHooks (t : Target) : List ℕ :=
  ((List.range t.created).filter fun id => (t.handles id).isSome).reverse

/-! ## The invariant -/

/-- The list holds the pairs `l` of key and hook, those of the live handles, newest first. -/
structure Inv (t : Target) (l : List (ℕ × ℕ)) (failures : ℕ) : Prop where
  closures : t.closures.Represents l
  extraCount : t.extraCount = l.length - 1 - failures
  handles : ∀ id hook, t.handles id = some hook ↔ (hook.key, id) ∈ l
  newestFirst : (l.map Prod.snd).Pairwise (· > ·)
  lt : ∀ e ∈ l, e.2 < t.created

section Inv

variable {t u : Target} {l l₁ l₂ : List (ℕ × ℕ)} {failures vacant id : ℕ} {hook : Hook}

theorem inv_new : Inv new [] 0 where
  closures := LinkedSlab.represents_new
  extraCount := rfl
  handles := by simp [new]
  newestFirst := List.Pairwise.nil
  lt := by simp

theorem Inv.handles_created (h : Inv t l failures) : t.handles t.created = none := by
  cases hhook : t.handles t.created with
  | none => rfl
  | some hook => exact absurd (h.lt _ ((h.handles _ _).1 hhook)) (lt_irrefl _)

theorem Inv.install (h : Inv t l failures) (hvacant : t.closures.inner.entries vacant = none)
    (hlt : vacant < usizeMax) :
    Inv (t.hookUncheckedLt vacant) ((vacant, t.created) :: l) failures where
  closures := LinkedSlab.represents_pushFront h.closures hvacant hlt t.created
  extraCount := by
    have := h.extraCount
    simp only [hookUncheckedLt, intoUnownedHandle, List.length_cons]
    omega
  handles := by
    intro id hook
    simp only [hookUncheckedLt, intoUnownedHandle, LinkedSlab.pushFront_snd]
    by_cases hid : id = t.created
    · subst hid
      rw [Function.update_self]
      constructor
      · rintro ⟨⟩
        exact List.mem_cons_self
      · intro hmem
        rcases List.mem_cons.1 hmem with heq | hmem
        · rw [← (Prod.mk.inj heq).1]
        · exact absurd (h.lt _ hmem) (lt_irrefl _)
    · rw [Function.update_of_ne hid, Function.update_of_ne hid, h.handles]
      simp [hid]
  newestFirst := by
    refine List.pairwise_cons.2 ⟨fun id hid => ?_, h.newestFirst⟩
    obtain ⟨e, he, rfl⟩ := List.mem_map.1 hid
    exact h.lt e he
  lt := by
    intro e he
    rcases List.mem_cons.1 he with rfl | he
    · exact Nat.lt_succ_self _
    · exact Nat.lt_succ_of_lt (h.lt e he)

/-- A closure in the list is the one of a live handle. -/
theorem Inv.exists_handle {key : ℕ} (h : Inv t l failures) (hget : t.closures.get key = some id) :
    ∃ hook, t.handles id = some hook := by
  have hmem : key ∈ l.map Prod.fst := by
    by_contra hnot
    rw [LinkedSlab.get, Slab.get, h.closures.entries_eq_none_iff.2 hnot] at hget
    cases hget
  obtain ⟨⟨key, id'⟩, he, rfl⟩ := List.mem_map.1 hmem
  obtain ⟨l₁, l₂, hsplit⟩ := List.append_of_mem he
  obtain rfl : id' = id := Option.some.inj ((hsplit ▸ h.closures).get_eq.symm.trans hget)
  exact ⟨⟨key⟩, (h.handles _ _).2 he⟩

/-- A failed installation leaves everything as it was, but for the counter. -/
theorem Inv.installPanics (h : Inv t l failures) :
    t.hookUncheckedLtPanics.closures = t.closures ∧
      t.hookUncheckedLtPanics.handles = t.handles ∧
      t.hookUncheckedLtPanics.extraCount = t.extraCount - 1 ∧
      Inv t.hookUncheckedLtPanics l (failures + 1) := by
  have hremove : t.closures.remove usizeMax = (none, t.closures) :=
    LinkedSlab.remove_of_not_mem h.closures fun hmem =>
      absurd (h.closures.lt _ hmem) (lt_irrefl _)
  have hclosures : t.hookUncheckedLtPanics.closures = t.closures := by
    simp [hookUncheckedLtPanics, intoUnownedHandle, dropHook, hremove]
  have hhandles : t.hookUncheckedLtPanics.handles = t.handles := by
    simp only [hookUncheckedLtPanics, intoUnownedHandle, dropHook, Function.update_idem]
    exact Function.update_eq_self_iff.2 h.handles_created.symm
  refine ⟨hclosures, hhandles, rfl, hclosures ▸ h.closures, ?_, hhandles ▸ h.handles,
    h.newestFirst, fun e he => Nat.lt_succ_of_lt (h.lt e he)⟩
  have := h.extraCount
  simp only [hookUncheckedLtPanics, intoUnownedHandle, dropHook]
  omega

/-- The drop of a handle deletes its pair. -/
theorem Inv.drop (h : Inv t (l₁ ++ (hook.key, id) :: l₂) failures) :
    Inv (t.dropHook id hook) (l₁ ++ l₂) failures := by
  have hsub : (l₁ ++ l₂).Sublist (l₁ ++ (hook.key, id) :: l₂) :=
    (List.sublist_cons_self _ _).append_left _
  have hid : id ∉ (l₁ ++ l₂).map Prod.snd := by
    have hnodup : ((l₁ ++ (hook.key, id) :: l₂).map Prod.snd).Nodup :=
      h.newestFirst.imp fun hgt => hgt.ne'
    rw [List.map_append, List.map_cons, List.nodup_middle, ← List.map_append] at hnodup
    exact (List.nodup_cons.1 hnodup).1
  refine ⟨(LinkedSlab.represents_remove h.closures).2, ?_, fun id' hook' => ?_,
    h.newestFirst.sublist (hsub.map _), fun e he => h.lt e (hsub.subset he)⟩
  · have := h.extraCount
    simp only [dropHook, List.length_append, List.length_cons] at this ⊢
    omega
  · simp only [dropHook]
    by_cases heq : id' = id
    · subst heq
      rw [Function.update_self]
      refine iff_of_false (by simp) fun hmem => hid ?_
      exact List.mem_map_of_mem hmem
    · rw [Function.update_of_ne heq, h.handles]
      simp [heq]

theorem Inv.step {op : Op} (h : ∃ l, Inv t l failures) (hstep : step t op = some u) :
    ∃ l, Inv u l (if op = .installPanics then failures + 1 else failures) := by
  obtain ⟨l, h⟩ := h
  cases op with
  | install vacant =>
    simp only [Target.step] at hstep
    split_ifs at hstep with hguard
    obtain rfl := Option.some.inj hstep
    exact ⟨_, h.install (by simpa [Slab.get] using hguard.1) hguard.2⟩
  | installPanics =>
    obtain rfl := Option.some.inj hstep
    exact ⟨l, h.installPanics.2.2.2⟩
  | drop id =>
    obtain ⟨hook, hhook, rfl⟩ := Option.map_eq_some_iff.1 hstep
    obtain ⟨l₁, l₂, rfl⟩ := List.append_of_mem ((h.handles id hook).1 hhook)
    exact ⟨l₁ ++ l₂, h.drop⟩

/-- After a history of operations the counter is too low by the number of installations
that failed. -/
theorem exists_inv {ops : List Op} (h : Transition.run Target.step new ops = some t) :
    ∃ l, Inv t l (ops.count .installPanics) := by
  have hfold : ∀ (ops : List Op) (n : ℕ),
      ops.foldl (fun n op => if op = .installPanics then n + 1 else n) n =
        n + ops.count .installPanics := by
    intro ops
    induction ops with
    | nil => exact fun n => rfl
    | cons op ops ih =>
      intro n
      rw [List.foldl_cons, ih, List.count_cons]
      by_cases hop : op = .installPanics <;> simp [hop]
      omega
  have hstep : ∀ (s : Target) (op : Op) (u : Target) (n : ℕ), (∃ l, Inv s l n) → True →
      Target.step s op = some u → ∃ l, Inv u l (if op = .installPanics then n + 1 else n) :=
    fun _ _ _ _ hinv _ hs => Inv.step hinv hs
  have hrun := Transition.run_foldl hstep ⟨[], inv_new⟩ (fun _ _ => trivial) h
  rwa [hfold, Nat.zero_add] at hrun

/-! ## What a call runs -/

theorem Inv.liveHooks_eq (h : Inv t l failures) : t.liveHooks = l.map Prod.snd := by
  refine List.Pairwise.eq_of_mem_iff (r := (· > ·)) ?_ h.newestFirst fun id => ?_
  · rw [liveHooks, List.pairwise_reverse]
    exact List.pairwise_lt_range.filter _
  · simp only [liveHooks, List.mem_reverse, List.mem_filter, List.mem_range, List.mem_map]
    constructor
    · rintro ⟨-, hlive⟩
      obtain ⟨hook, hhook⟩ := Option.isSome_iff_exists.1 hlive
      exact ⟨_, (h.handles id hook).1 hhook, rfl⟩
    · rintro ⟨⟨key, _⟩, hmem, rfl⟩
      exact ⟨h.lt _ hmem, by rw [(h.handles _ ⟨key⟩).2 hmem]; rfl⟩

theorem Inv.callOriginalSlow_eq {key : ℕ} (h : Inv t (l₁ ++ (key, id) :: l₂) failures) :
    t.callOriginalSlow ⟨key⟩ = l₂.head?.map Prod.snd :=
  h.closures.getNext_eq

/-- With an exact counter, both paths of `call_original` lead to the same function. -/
theorem Inv.callOriginal_eq (h : Inv t l 0) (hook : Hook) (hmem : (hook.key, id) ∈ l) :
    t.callOriginal hook = t.callOriginalSlow hook := by
  obtain ⟨l₁, l₂, rfl⟩ := List.append_of_mem hmem
  unfold callOriginal
  split_ifs with hcount
  · rfl
  · -- the only hook
    have := h.extraCount
    simp only [List.length_append, List.length_cons] at this
    have hnil : l₂ = [] := List.length_eq_zero_iff.1 (by omega)
    have hslow := Inv.callOriginalSlow_eq h
    rw [hnil] at hslow
    exact hslow.symm

theorem Inv.runFrom_eq (h : Inv t l 0) : ∀ {fuel : ℕ} {l₁ l₂ : List (ℕ × ℕ)}, l = l₁ ++ l₂ →
    l₂.length ≤ fuel → t.runFrom fuel (l₂.head?.map Prod.snd) =
      some (l₂.map (fun e => Ran.hook e.2) ++ [.original])
  | _, _, [], _, _ => by simp [runFrom]
  | 0, _, _ :: _, _, hfuel => absurd hfuel (by simp)
  | fuel + 1, l₁, (key, id) :: l₂, hl, hfuel => by
    have hmem : (key, id) ∈ l := by simp [hl]
    have hrest := h.runFrom_eq (show l = (l₁ ++ [(key, id)]) ++ l₂ by simpa using hl)
      (Nat.le_of_succ_le_succ hfuel)
    have hnext : t.callOriginal ⟨key⟩ = l₂.head?.map Prod.snd :=
      (h.callOriginal_eq ⟨key⟩ hmem).trans (Inv.callOriginalSlow_eq (hl ▸ h))
    simp [runFrom, (h.handles id ⟨key⟩).2 hmem, hnext, hrest]

end Inv

/-- After any history of installations and drops, a call runs the live hooks from the newest
to the oldest and then the original, and the fast path of `call_original` leads where the
lookup does. -/
theorem call_eq {ops : List Op} {t : Target} (h : Transition.run step new ops = some t)
    (hops : .installPanics ∉ ops) :
    (∀ fuel, t.liveHooks.length ≤ fuel →
        t.call fuel = some (t.liveHooks.map Ran.hook ++ [.original])) ∧
      ∀ id hook, t.handles id = some hook → t.callOriginal hook = t.callOriginalSlow hook := by
  obtain ⟨l, hinv⟩ := exists_inv h
  rw [List.count_eq_zero.2 hops] at hinv
  refine ⟨fun fuel hfuel => ?_, fun id hook hhook => ?_⟩
  · rw [hinv.liveHooks_eq, List.length_map] at hfuel
    rw [call, hinv.closures.firstItem_eq, hinv.runFrom_eq (List.nil_append l).symm hfuel,
      hinv.liveHooks_eq, List.map_map]
    rfl
  · exact hinv.callOriginal_eq hook ((hinv.handles id hook).1 hhook)

/-- Three hooks are installed, the middle one is dropped, and its slot is used again. -/
def sampleOps : List Op :=
  [.install 0, .install 1, .install 2, .drop 1, .install 1]

theorem call_sampleOps : ∃ t, Transition.run step new sampleOps = some t ∧
    t.call 3 = some [.hook 3, .hook 2, .hook 0, .original] := by
  have hrun : Transition.run step new sampleOps = some _ := rfl
  exact ⟨_, hrun, ((call_eq hrun (by decide)).1 3 (by decide)).trans rfl⟩

/-! ## Failed installations -/

/-- The counter is that of the hooks in the list beyond the first. -/
def Counted (t : Target) : Prop :=
  t.extraCount = t.closures.len - 1

/-- Nothing a live hook depends on has changed. -/
structure Unchanged (t u : Target) : Prop where
  closures : u.closures = t.closures
  extraCount : u.extraCount = t.extraCount
  path : ∀ id hook, t.handles id = some hook →
    u.handles id = some hook ∧ u.callOriginal hook = t.callOriginal hook

/-- The counter is right after every operation, and failed installations change nothing. -/
structure FailsCleanly (ops : List Op) : Prop where
  counted : Transition.Throughout step Counted new ops
  unchanged : ∀ pre post t, ops = pre ++ .installPanics :: post →
    Transition.run step new pre = some t → Unchanged t t.hookUncheckedLtPanics

theorem Inv.counted_iff {t : Target} {l : List (ℕ × ℕ)} {failures : ℕ} (h : Inv t l failures) :
    t.Counted ↔ failures = 0 := by
  have := h.extraCount
  rw [Counted, LinkedSlab.len, h.closures.len]
  omega

/-- The counter stays right and failed installations change nothing exactly if there are
none. -/
theorem failsCleanly_iff {ops : List Op} {t : Target}
    (h : Transition.run step new ops = some t) : FailsCleanly ops ↔ .installPanics ∉ ops := by
  constructor
  · intro hclean
    obtain ⟨l, hinv⟩ := exists_inv h
    have hlast := hclean.counted.last h
    exact List.count_eq_zero.1 (hinv.counted_iff.1 hlast)
  · intro hops
    refine ⟨Transition.throughout_iff.2 fun pre post u hsplit hrun => ?_,
      fun pre post u hsplit => absurd (hsplit ▸ by simp) hops⟩
    obtain ⟨l, hinv⟩ := exists_inv hrun
    refine hinv.counted_iff.2 (List.count_eq_zero.2 fun hmem => hops ?_)
    rw [hsplit]
    exact List.mem_append_left _ hmem

theorem failsCleanly_sampleOps : FailsCleanly sampleOps := by
  have hrun : Transition.run step new sampleOps = some _ := rfl
  exact (failsCleanly_iff hrun).2 (by decide)

/-- After a failed installation the newer one of two hooks skips the older one. -/
theorem not_failsCleanly_panics :
    (∃ t, Transition.run step new [.install 0, .installPanics, .install 1] = some t ∧
      t.extraCount = 0 ∧ t.closures.len = 2 ∧ t.liveHooks = [2, 0] ∧
      t.call 2 = some [.hook 2, .original]) ∧
    ¬FailsCleanly [.install 0, .installPanics, .install 1] := by
  refine ⟨⟨_, rfl, rfl, rfl, rfl, rfl⟩, fun h => ?_⟩
  have hcount : (new.hookUncheckedLt 0).hookUncheckedLtPanics.extraCount = 0 :=
    (h.unchanged [.install 0] [.install 1] _ rfl rfl).extraCount
  exact absurd hcount (by decide)

end Target

end Diversion
