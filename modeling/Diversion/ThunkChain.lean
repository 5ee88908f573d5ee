import Diversion.Lib.Chain
import Diversion.Lib.Pool
import Diversion.Lib.Transition

/-!
# The chain of hooks

Hooks installed at one target's thunk by any number of threads : `static_hook_with_thunk`
(src/hook/leak.rs), the first temporary hook of a library copy (`into_unowned_handle` of
src/hook/temp.rs) and `leak_hook` (src/hook/custom.rs), with the load, the callback and the
compare-exchange of `update_thunk` as steps of their own. `AtomicPtr::update` is the usual
retry loop, whose exchange may also fail for no reason.

Each kind keeps the pointer it replaced in a place of its own, `Call.uses`. `Inv` says that
these pointers link the hooks whose exchange has succeeded, newest first, from the thunk to
the trampoline (`Links.Chain`), and that a callback has left behind the value its exchange
compares with.
-/

namespace Diversion

namespace ThunkChain

/-- Which function installs the hook. -/
inductive Kind where
  | static
  /-- `copy` is the copy of the library. -/
  | temporary (copy : ℕ)
  | custom
deriving DecidableEq, Repr

/-- What an installation does next. -/
inductive Phase where
  /-- Write the code of the hook, or find that the copy has its thunk already. -/
  | entry
  /-- Load the thunk. -/
  | loading
  /-- Run the callback on `cur`. -/
  | calling (cur : ℕ)
  /-- Exchange `cur` for the hook. -/
  | exchanging (cur : ℕ)
  /-- Record `prev`, which the exchange replaced. -/
  | updated (prev : ℕ)
  /-- Read the original pointer of the copy's list. -/
  | sourcing
  | done
deriving DecidableEq, Repr

/-- In `update_thunk`, or just out of it. -/
def Phase.isUpdating : Phase → Bool
  | .loading | .calling _ | .exchanging _ | .updated _ => true
  | _ => false

/-- An installation and the hook it makes. -/
structure Call where
  kind : Kind
  /-- The entry point of the hook. -/
  thunk : Option ℕ
  /-- `original_ptr` of a temporary thunk, `ContextSave::next` of a custom hook. -/
  next : Option ℕ
  /-- `RawHook::original`. -/
  original : Option ℕ
  phase : Phase
deriving DecidableEq, Repr

/-- `original_ptr` of a copy's list, a `OnceLock`. -/
inductive Once where
  | uninit
  | running
  | done (original : ℕ)
deriving DecidableEq, Repr

/-- One thunk, the hook lists of all copies of the library and the installations. -/
structure State where
  trampoline : ℕ
  thunk : ℕ
  lists : List Once
  calls : List Call
deriving DecidableEq, Repr

/-- The target has just been installed at. -/
def State.init (trampoline : ℕ) : State where
  trampoline := trampoline
  thunk := trampoline
  lists := []
  calls := []

/-- One step of one thread. -/
inductive Action where
  /-- A copy of the library makes its list for the target. -/
  | load
  /-- A thread starts to install a hook. -/
  | hook (kind : Kind)
  /-- The next step of an installation. `fresh` is where code is written, if any is, and
  `spurious` whether an exchange fails without a reason. -/
  | call (i fresh : ℕ) (spurious : Bool)
deriving DecidableEq, Repr

namespace Call

/-- The exchange has succeeded. -/
def isInstalled (call : Call) : Bool :=
  match call.phase with
  | .updated _ | .sourcing | .done => call.thunk.isSome
  | _ => false

/-- The pointer the hook uses as its original. A static hook that has not recorded it yet
blocks whoever asks until it has. -/
def uses (call : Call) : Option ℕ :=
  match call.kind, call.phase with
  | .static, .updated prev => some prev
  | .static, _ => call.original
  | .temporary _, _ => call.next
  | .custom, _ => call.next

/-- The callback of `update_thunk`, which returns the entry point of the hook. -/
def callback (call : Call) (cur : ℕ) : Call :=
  match call.kind with
  | .static => { call with phase := .exchanging cur }
  | .temporary _ => { call with next := some cur, phase := .exchanging cur }
  | .custom => { call with next := some cur, phase := .exchanging cur }

@[simp] theorem callback_kind (call : Call) (cur : ℕ) : (call.callback cur).kind = call.kind := by
  cases hkind : call.kind <;> simp [callback, hkind]

@[simp] theorem callback_thunk (call : Call) (cur : ℕ) :
    (call.callback cur).thunk = call.thunk := by
  cases hkind : call.kind <;> simp [callback, hkind]

@[simp] theorem callback_original (call : Call) (cur : ℕ) :
    (call.callback cur).original = call.original := by
  cases hkind : call.kind <;> simp [callback, hkind]

@[simp] theorem callback_phase (call : Call) (cur : ℕ) :
    (call.callback cur).phase = .exchanging cur := by
  cases hkind : call.kind <;> simp [callback, hkind]

theorem callback_next {call : Call} (hkind : call.kind ≠ .static) (cur : ℕ) :
    (call.callback cur).next = some cur := by
  cases hkind' : call.kind with
  | static => exact absurd hkind' hkind
  | temporary copy => simp [callback, hkind']
  | custom => simp [callback, hkind']

end Call

namespace State

/-- Move one installation. -/
def setCall (s : State) (i : ℕ) (call : Call) : State :=
  { s with calls := s.calls.set i call }

/-- The code of the hook is written, which no other code has the address of. -/
def write (s : State) (i : ℕ) (call : Call) (fresh : ℕ) : Option State :=
  if fresh = s.trampoline ∨ ∃ call ∈ s.calls, call.thunk = some fresh then none
  else some (s.setCall i { call with thunk := some fresh, phase := .loading })

/-- The next step of an installation. A spurious failure only retries the exchange. -/
def stepCall (s : State) (i fresh : ℕ) (spurious : Bool) (call : Call) : Option State :=
  match call.phase with
  | .entry =>
    match call.kind with
    | .static => s.write i call fresh
    | .custom => s.write i call fresh
    | .temporary copy =>
      match s.lists[copy]? with
      | some .uninit =>
        (s.write i call fresh).map fun s => { s with lists := s.lists.set copy .running }
      | some .running => none
      | some (.done _) => some (s.setCall i { call with phase := .sourcing })
      | none => none
  | .loading => some (s.setCall i { call with phase := .calling s.thunk })
  | .calling cur => some (s.setCall i (call.callback cur))
  | .exchanging cur =>
    if s.thunk = cur ∧ spurious = false then
      call.thunk.map fun thunk =>
        { s with thunk }.setCall i { call with phase := .updated cur }
    else some (s.setCall i { call with phase := .calling s.thunk })
  | .updated prev =>
    match call.kind with
    | .static => some (s.setCall i { call with original := some prev, phase := .done })
    | .temporary copy =>
      some ({ s with lists := s.lists.set copy (.done prev) }.setCall i
        { call with phase := .sourcing })
    | .custom => some (s.setCall i { call with phase := .done })
  | .sourcing =>
    match call.kind with
    | .temporary copy =>
      match s.lists[copy]? with
      | some (.done original) =>
        some (s.setCall i { call with original := some original, phase := .done })
      | _ => none
    | _ => none
  | .done => none

/-- `none` where the step is not enabled. -/
def step (s : State) : Action → Option State
  | .load => some { s with lists := s.lists ++ [.uninit] }
  | .hook kind => some { s with calls := s.calls ++ [⟨kind, none, none, none, .entry⟩] }
  | .call i fresh spurious => (s.calls[i]?).bind (s.stepCall i fresh spurious)

/-- The installation whose exchange succeeds in the step, if any. -/
def exchanged (s : State) : Action → List ℕ
  | .call i _ spurious =>
    match s.calls[i]? with
    | some call =>
      match call.phase with
      | .exchanging cur => if s.thunk = cur ∧ spurious = false then [i] else []
      | _ => []
    | none => []
  | _ => []

/-- The hook that installation `i` made has its entry point at `p` and goes on to `q`. -/
def Link (s : State) (p i q : ℕ) : Prop :=
  ∃ call, s.calls[i]? = some call ∧ call.isInstalled = true ∧ call.thunk = some p ∧
    call.uses = some q

end State

/-! ## The invariant -/

/-- A hook of `copy` that is installed has `original` as its original. -/
def Sourced (s : State) (copy original : ℕ) : Prop :=
  ∃ (i : ℕ) (call : Call), s.calls[i]? = some call ∧ call.kind = .temporary copy ∧
    call.isInstalled = true ∧ call.uses = some original

/-- What an installation has in hand. -/
structure Call.Recorded (call : Call) : Prop where
  entry : call.phase = .entry → call.thunk = none
  updating : call.phase.isUpdating = true → call.thunk.isSome = true
  /-- The callback has left behind what the exchange compares with. -/
  next : call.kind ≠ .static → ∀ cur, call.phase = .exchanging cur ∨ call.phase = .updated cur →
    call.next = some cur

/-- `call'` is `call` later on : what is installed stays so, with the pointers it has. -/
structure Call.Extends (call call' : Call) : Prop where
  kind : call'.kind = call.kind
  installed : call.isInstalled = true →
    call'.isInstalled = true ∧ call'.thunk = call.thunk ∧ call'.uses = call.uses

/-- Every hook has code of its own, and the pointers that are recorded are the right ones. -/
structure WellFormed (s : State) : Prop where
  thunk_inj : ∀ (i j p : ℕ) (call call' : Call), s.calls[i]? = some call →
    s.calls[j]? = some call' → call.thunk = some p → call'.thunk = some p → i = j
  thunk_ne : ∀ call ∈ s.calls, call.thunk ≠ some s.trampoline
  recorded : ∀ call ∈ s.calls, call.Recorded
  lists : ∀ copy original : ℕ, s.lists[copy]? = some (.done original) → Sourced s copy original
  originals : ∀ call ∈ s.calls, ∀ copy original : ℕ, call.kind = .temporary copy →
    call.original = some original → Sourced s copy original

/-- The exchanges in `log` have succeeded, in that order. -/
structure Inv (log : List ℕ) (s : State) : Prop extends WellFormed s where
  chain : Links.Chain s.Link s.thunk log.reverse s.trampoline
  installed : ∀ i : ℕ, i ∈ log ↔ ∃ call, s.calls[i]? = some call ∧ call.isInstalled = true
  nodup : log.Nodup

section Inv

variable {s t : State} {log : List ℕ} {i fresh copy original p q j : ℕ} {spurious : Bool}
  {call call' : Call} {lists : List Once}

theorem inv_init (trampoline : ℕ) : Inv [] (.init trampoline) where
  thunk_inj := by simp [State.init]
  thunk_ne := by simp [State.init]
  recorded := by simp [State.init]
  lists := by simp [State.init]
  originals := by simp [State.init]
  chain := .nil _
  installed := by simp [State.init]
  nodup := List.nodup_nil

theorem Call.Extends.of_not_installed (hkind : call'.kind = call.kind)
    (h : call.isInstalled = false) : call.Extends call' :=
  ⟨hkind, fun h' => absurd (h.symm.trans h') (by decide)⟩

/-- What `Call.Extends` does for the calls as a whole. -/
theorem Call.Extends.exists (h : call.Extends call') (hget : s.calls[i]? = some call)
    {c : Call} (hc : s.calls[j]? = some c) :
    ∃ c', (s.calls.set i call')[j]? = some c' ∧ c.Extends c' := by
  by_cases hij : i = j
  · subst hij
    obtain rfl := Option.some.inj (hget.symm.trans hc)
    exact ⟨call', Pool.getElem?_set_of_getElem? hget, h⟩
  · exact ⟨c, by rwa [List.getElem?_set_ne hij], rfl, fun h => ⟨h, rfl, rfl⟩⟩

theorem State.Link.set (h : s.Link p j q) (hget : s.calls[i]? = some call)
    (hext : call.Extends call') (hcalls : t.calls = s.calls.set i call') : t.Link p j q := by
  obtain ⟨c, hc, hinstalled, hthunk, huses⟩ := h
  obtain ⟨c', hc', hext'⟩ := hext.exists hget hc
  obtain ⟨hinstalled', hthunk', huses'⟩ := hext'.installed hinstalled
  exact ⟨c', hcalls ▸ hc', hinstalled', hthunk'.trans hthunk, huses'.trans huses⟩

theorem Sourced.set (h : Sourced s copy original) (hget : s.calls[i]? = some call)
    (hext : call.Extends call') (hcalls : t.calls = s.calls.set i call') :
    Sourced t copy original := by
  obtain ⟨j, c, hc, hkind, hinstalled, huses⟩ := h
  obtain ⟨c', hc', hext'⟩ := hext.exists hget hc
  obtain ⟨hinstalled', -, huses'⟩ := hext'.installed hinstalled
  exact ⟨j, c', hcalls ▸ hc', hext'.kind.trans hkind, hinstalled', huses'.trans huses⟩

theorem WellFormed.set {thunk : ℕ} (h : WellFormed s) (hget : s.calls[i]? = some call)
    (hext : call.Extends call')
    (hthunk : ∀ p, call'.thunk = some p → call.thunk = some p ∨
      p ≠ s.trampoline ∧ ∀ c ∈ s.calls, c.thunk ≠ some p)
    (hrecorded : call'.Recorded)
    (hlists : ∀ copy original : ℕ, lists[copy]? = some (.done original) →
      Sourced s copy original)
    (horiginal : ∀ copy original : ℕ, call'.kind = .temporary copy →
      call'.original = some original → Sourced s copy original) :
    WellFormed ({ s with thunk, lists }.setCall i call') where
  thunk_inj j k p c c' hj hk hp hp' := by
    rcases Pool.mem_of_getElem?_set hj with ⟨rfl, rfl⟩ | ⟨-, hc⟩ <;>
      rcases Pool.mem_of_getElem?_set hk with ⟨rfl, rfl⟩ | ⟨-, hc'⟩
    · rfl
    · exact (hthunk p hp).elim (fun hp => h.thunk_inj _ _ p _ _ hget hc' hp hp')
        fun hp => absurd hp' (hp.2 _ (List.mem_of_getElem? hc'))
    · exact (hthunk p hp').elim (fun hp' => h.thunk_inj _ _ p _ _ hc hget hp hp')
        fun hp' => absurd hp (hp'.2 _ (List.mem_of_getElem? hc))
    · exact h.thunk_inj _ _ p _ _ hc hc' hp hp'
  thunk_ne c hc hp := by
    rcases List.mem_or_eq_of_mem_set hc with hc | rfl
    · exact h.thunk_ne c hc hp
    · exact (hthunk _ hp).elim (h.thunk_ne call (List.mem_of_getElem? hget))
        fun hp => hp.1 rfl
  recorded c hc := by
    rcases List.mem_or_eq_of_mem_set hc with hc | rfl
    · exact h.recorded c hc
    · exact hrecorded
  lists copy original hlist := (hlists copy original hlist).set hget hext rfl
  originals c hc copy original hkind horig := by
    rcases List.mem_or_eq_of_mem_set hc with hc | rfl
    · exact (h.originals c hc copy original hkind horig).set hget hext rfl
    · exact (horiginal copy original hkind horig).set hget hext rfl

/-- A step that is no successful exchange. -/
theorem Inv.set (h : Inv log s) (hget : s.calls[i]? = some call) (hext : call.Extends call')
    (hinstalled : call'.isInstalled = call.isInstalled)
    (hwf : WellFormed ({ s with lists }.setCall i call')) :
    Inv log ({ s with lists }.setCall i call') where
  toWellFormed := hwf
  chain := h.chain.imp fun p n q hlink => hlink.set hget hext rfl
  installed j := by
    rw [h.installed]
    by_cases hij : i = j
    · subst hij
      simp [State.setCall, Pool.getElem?_set_of_getElem? hget, hget, hinstalled]
    · simp [State.setCall, List.getElem?_set_ne hij]
  nodup := h.nodup

/-- What an installed hook uses is the value its exchange replaced. -/
theorem Call.uses_updated {cur : ℕ} (hrecorded : call.Recorded)
    (hphase : call.phase = .exchanging cur) :
    Call.uses { call with phase := .updated cur } = some cur := by
  unfold Call.uses
  cases hkind : call.kind with
  | static => rfl
  | temporary copy => exact hrecorded.next (by simp [hkind]) _ (Or.inl hphase)
  | custom => exact hrecorded.next (by simp [hkind]) _ (Or.inl hphase)

/-- A successful exchange. The hook goes on to what the thunk was. -/
theorem Inv.exchange (h : Inv log s) (hget : s.calls[i]? = some call)
    (hphase : call.phase = .exchanging s.thunk) (hthunk : call.thunk = some p) :
    Inv (log ++ [i]) ({ s with thunk := p }.setCall i { call with phase := .updated s.thunk }) := by
  have hmem := List.mem_of_getElem? hget
  have hnot : call.isInstalled = false := by simp [Call.isInstalled, hphase]
  have hext : call.Extends { call with phase := .updated s.thunk } :=
    Call.Extends.of_not_installed rfl hnot
  have hinstalled : Call.isInstalled { call with phase := .updated s.thunk } = true := by
    simp [Call.isInstalled, hthunk]
  have huses := Call.uses_updated (h.recorded call hmem) hphase
  have hi : i ∉ log := fun hi => by
    obtain ⟨c, hc, hinstalled⟩ := (h.installed i).1 hi
    obtain rfl := Option.some.inj (hget.symm.trans hc)
    exact absurd (hnot.symm.trans hinstalled) (by decide)
  refine ⟨?_, ?_, fun j => ?_, ?_⟩
  · refine h.toWellFormed.set hget hext (fun p hp => Or.inl hp)
      ⟨nofun, fun _ => by simp [hthunk], fun hkind cur hcur => ?_⟩ h.lists (h.originals call hmem)
    obtain rfl : s.thunk = cur := by simpa using hcur
    exact (h.recorded call hmem).next hkind _ (Or.inl hphase)
  · rw [List.reverse_append, List.reverse_singleton, List.singleton_append]
    refine h.chain.push (fun p n q hlink => hlink.set hget hext rfl) ?_
    exact ⟨_, Pool.getElem?_set_of_getElem? hget, hinstalled, hthunk, huses⟩
  · rw [List.mem_append, List.mem_singleton, h.installed]
    by_cases hij : i = j
    · subst hij
      exact iff_of_true (Or.inr rfl) ⟨_, Pool.getElem?_set_of_getElem? hget, hinstalled⟩
    · simp [State.setCall, List.getElem?_set_ne hij, Ne.symm hij]
  · refine List.nodup_append.2 ⟨h.nodup, by simp, fun j hj k hk hjk => hi ?_⟩
    rwa [← List.mem_singleton.1 hk, ← hjk]

/-- A step that leaves the thunk, the entry points and the lists as they are. -/
theorem Inv.keep (h : Inv log s) (hget : s.calls[i]? = some call) (hext : call.Extends call')
    (hinstalled : call'.isInstalled = call.isInstalled) (hthunk : call'.thunk = call.thunk)
    (hrecorded : call'.Recorded)
    (horiginal : ∀ copy original : ℕ, call'.kind = .temporary copy →
      call'.original = some original → Sourced s copy original) :
    Inv log (s.setCall i call') :=
  h.set hget hext hinstalled (h.toWellFormed.set hget hext
    (fun _ hp => Or.inl (hthunk ▸ hp)) hrecorded h.lists horiginal)

/-- The code of a hook is written, and the list of the copy may be locked meanwhile. -/
theorem Inv.write (h : Inv log s) (hget : s.calls[i]? = some call) (hphase : call.phase = .entry)
    (hfresh : fresh ≠ s.trampoline ∧ ∀ c ∈ s.calls, c.thunk ≠ some fresh)
    (hlists : ∀ copy original : ℕ, lists[copy]? = some (.done original) →
      Sourced s copy original) :
    Inv log ({ s with lists }.setCall i { call with thunk := some fresh, phase := .loading }) := by
  have hext : call.Extends { call with thunk := some fresh, phase := .loading } :=
    Call.Extends.of_not_installed rfl (by simp [Call.isInstalled, hphase])
  refine h.set hget hext (by simp [Call.isInstalled, hphase]) (h.toWellFormed.set hget hext
    (fun p hp => Or.inr ?_) ⟨nofun, fun _ => rfl, ?_⟩ hlists
    (h.originals call (List.mem_of_getElem? hget)))
  · obtain rfl := Option.some.inj hp
    exact hfresh
  · rintro - cur (hcur | hcur) <;> cases hcur

theorem write_eq_some : s.write i call fresh = some t ↔
    (fresh ≠ s.trampoline ∧ ∀ c ∈ s.calls, c.thunk ≠ some fresh) ∧
      t = s.setCall i { call with thunk := some fresh, phase := .loading } := by
  simp [State.write, eq_comm (a := t)]

theorem Inv.stepEntry (h : Inv log s) (hget : s.calls[i]? = some call)
    (hphase : call.phase = .entry) (hstep : s.stepCall i fresh spurious call = some t) :
    Inv log t := by
  have hmem := List.mem_of_getElem? hget
  simp only [State.stepCall, hphase] at hstep
  cases hkind : call.kind with
  | static | custom =>
    simp only [hkind] at hstep
    obtain ⟨hfresh, rfl⟩ := write_eq_some.1 hstep
    exact h.write hget hphase hfresh h.lists
  | temporary copy =>
    simp only [hkind] at hstep
    cases hlist : s.lists[copy]? with
    | none => simp [hlist] at hstep
    | some once =>
      cases once with
      | running => simp [hlist] at hstep
      | uninit =>
        simp only [hlist] at hstep
        obtain ⟨t', hwrite, rfl⟩ := Option.map_eq_some_iff.1 hstep
        obtain ⟨hfresh, rfl⟩ := write_eq_some.1 hwrite
        refine h.write hget hphase hfresh fun k original hk => ?_
        rcases Pool.mem_of_getElem?_set hk with ⟨-, hk⟩ | ⟨-, hk⟩
        · cases hk
        · exact h.lists k original hk
      | done original =>
        simp only [hlist] at hstep
        obtain rfl := Option.some.inj hstep
        rw [← hkind]
        have hnone := (h.recorded call hmem).entry hphase
        refine h.keep hget (Call.Extends.of_not_installed rfl (by simp [Call.isInstalled, hphase]))
          (by simp [Call.isInstalled, hphase, hnone]) rfl ⟨nofun, nofun, ?_⟩ (h.originals call hmem)
        rintro - cur (hcur | hcur) <;> cases hcur

/-- The steps of `update_thunk`. Only an exchange that succeeds is observed. -/
theorem Inv.stepUpdate (h : Inv log s) (hget : s.calls[i]? = some call)
    (hphase : call.phase = .loading ∨ (∃ cur, call.phase = .calling cur) ∨
      ∃ cur, call.phase = .exchanging cur)
    (hstep : s.stepCall i fresh spurious call = some t) :
    Inv (log ++ s.exchanged (.call i fresh spurious)) t := by
  have hmem := List.mem_of_getElem? hget
  have hsome : call.thunk.isSome = true := by
    refine (h.recorded call hmem).updating ?_
    rcases hphase with hphase | ⟨cur, hphase⟩ | ⟨cur, hphase⟩ <;> rw [hphase] <;> rfl
  have hretry (hnot : call.isInstalled = false) :
      Inv log (s.setCall i { call with phase := .calling s.thunk }) := by
    refine h.keep hget (Call.Extends.of_not_installed rfl hnot) hnot.symm rfl
      ⟨nofun, fun _ => hsome, ?_⟩ (h.originals call hmem)
    rintro - cur (hcur | hcur) <;> cases hcur
  rcases hphase with hphase | ⟨cur, hphase⟩ | ⟨cur, hphase⟩
  · simp only [State.stepCall, hphase] at hstep
    obtain rfl := Option.some.inj hstep
    simpa [State.exchanged, hget, hphase] using hretry (by simp [Call.isInstalled, hphase])
  · simp only [State.stepCall, hphase] at hstep
    obtain rfl := Option.some.inj hstep
    have hnot : call.isInstalled = false := by simp [Call.isInstalled, hphase]
    have hkeep : Inv log (s.setCall i (call.callback cur)) := by
      refine h.keep hget (Call.Extends.of_not_installed (by simp) hnot)
        (by simp [Call.isInstalled, hphase]) (by simp)
        ⟨by simp, fun _ => by simpa using hsome, fun hkind c hc => ?_⟩
        (by simpa using h.originals call hmem)
      obtain rfl : cur = c := by simpa using hc
      exact Call.callback_next (by simpa using hkind) cur
    simpa [State.exchanged, hget, hphase] using hkeep
  · simp only [State.stepCall, hphase] at hstep
    split_ifs at hstep with hsuccess
    · obtain ⟨thunk, hthunk, rfl⟩ := Option.map_eq_some_iff.1 hstep
      obtain ⟨rfl, hspurious⟩ := hsuccess
      simpa [State.exchanged, hget, hphase, hspurious] using h.exchange hget hphase hthunk
    · obtain rfl := Option.some.inj hstep
      simpa [State.exchanged, hget, hphase, hsuccess] using
        hretry (by simp [Call.isInstalled, hphase])

/-- What follows a successful exchange. -/
theorem Inv.stepUpdated {prev : ℕ} (h : Inv log s) (hget : s.calls[i]? = some call)
    (hphase : call.phase = .updated prev)
    (hstep : s.stepCall i fresh spurious call = some t) : Inv log t := by
  have hmem := List.mem_of_getElem? hget
  have hrecorded := h.recorded call hmem
  have hsome : call.thunk.isSome = true := hrecorded.updating (by rw [hphase]; rfl)
  have hinstalled : call.isInstalled = true := by simp [Call.isInstalled, hphase, hsome]
  simp only [State.stepCall, hphase] at hstep
  cases hkind : call.kind with
  | static =>
    simp only [hkind] at hstep
    obtain rfl := Option.some.inj hstep
    refine h.keep hget ⟨hkind.symm, fun _ => ⟨hsome, rfl, ?_⟩⟩ (hsome.trans hinstalled.symm) rfl
      ⟨nofun, nofun, nofun⟩ nofun
    simp [Call.uses, hkind, hphase]
  | temporary copy =>
    simp only [hkind] at hstep
    obtain rfl := Option.some.inj hstep
    have huses : call.uses = some prev := by
      simpa [Call.uses, hkind] using hrecorded.next (by simp [hkind]) prev (Or.inr hphase)
    have hext : call.Extends ⟨.temporary copy, call.thunk, call.next, call.original, .sourcing⟩ :=
      ⟨hkind.symm, fun _ => ⟨hsome, rfl, by simp [Call.uses, hkind]⟩⟩
    refine h.set hget hext (hsome.trans hinstalled.symm) (h.toWellFormed.set hget hext
      (fun p hp => Or.inl hp) ⟨nofun, nofun, ?_⟩ (fun k original hk => ?_)
      fun k original hk horig => h.originals call hmem k original (hkind.trans hk) horig)
    · rintro - cur (hcur | hcur) <;> cases hcur
    · rcases Pool.mem_of_getElem?_set hk with ⟨rfl, heq⟩ | ⟨-, hk⟩
      · obtain rfl := Once.done.inj heq
        exact ⟨i, call, hget, hkind, hinstalled, huses⟩
      · exact h.lists k original hk
  | custom =>
    simp only [hkind] at hstep
    obtain rfl := Option.some.inj hstep
    refine h.keep hget ⟨hkind.symm, fun _ => ⟨hsome, rfl, by simp [Call.uses, hkind]⟩⟩
      (hsome.trans hinstalled.symm) rfl ⟨nofun, nofun, ?_⟩ nofun
    rintro - cur (hcur | hcur) <;> cases hcur

/-- A temporary hook takes its original from the list of its copy. -/
theorem Inv.stepSourcing (h : Inv log s) (hget : s.calls[i]? = some call)
    (hphase : call.phase = .sourcing) (hstep : s.stepCall i fresh spurious call = some t) :
    Inv log t := by
  simp only [State.stepCall, hphase] at hstep
  cases hkind : call.kind with
  | static | custom => simp [hkind] at hstep
  | temporary copy =>
    simp only [hkind] at hstep
    split at hstep
    · rename_i original hlist
      obtain rfl := Option.some.inj hstep
      refine h.keep hget ⟨hkind.symm, fun hinstalled => ⟨?_, rfl, by simp [Call.uses, hkind]⟩⟩ ?_
        rfl ⟨nofun, nofun, ?_⟩ fun k v hk hv => ?_
      · simpa [Call.isInstalled, hphase] using hinstalled
      · simp [Call.isInstalled, hphase]
      · rintro - cur (hcur | hcur) <;> cases hcur
      · obtain rfl := Kind.temporary.inj hk
        obtain rfl := Option.some.inj hv
        exact h.lists copy _ hlist
    · cases hstep

theorem Sourced.append (h : Sourced s copy original) (hcalls : t.calls = s.calls ++ [call]) :
    Sourced t copy original := by
  obtain ⟨i, c, hc, hsource⟩ := h
  exact ⟨i, c, hcalls ▸ Pool.getElem?_append_of_getElem? hc, hsource⟩

/-- An installation starts. -/
theorem Inv.append (h : Inv log s) (kind : Kind) :
    Inv log { s with calls := s.calls ++ [⟨kind, none, none, none, .entry⟩] } where
  thunk_inj j k p c c' hj hk hp hp' := by
    rcases Pool.getElem?_of_append hj with ⟨-, rfl⟩ | hj
    · cases hp
    rcases Pool.getElem?_of_append hk with ⟨-, rfl⟩ | hk
    · cases hp'
    exact h.thunk_inj j k p c c' hj hk hp hp'
  thunk_ne c hc hp := by
    rcases List.mem_append.1 hc with hc | hc
    · exact h.thunk_ne c hc hp
    · obtain rfl := List.mem_singleton.1 hc
      cases hp
  recorded c hc := by
    rcases List.mem_append.1 hc with hc | hc
    · exact h.recorded c hc
    · obtain rfl := List.mem_singleton.1 hc
      refine ⟨fun _ => rfl, nofun, ?_⟩
      rintro - cur (hcur | hcur) <;> cases hcur
  lists copy original hlist := (h.lists copy original hlist).append rfl
  originals c hc copy original hkind horig := by
    rcases List.mem_append.1 hc with hc | hc
    · exact (h.originals c hc copy original hkind horig).append rfl
    · obtain rfl := List.mem_singleton.1 hc
      cases horig
  chain := by
    refine h.chain.imp fun p n q hlink => ?_
    obtain ⟨c, hc, hlink⟩ := hlink
    exact ⟨c, Pool.getElem?_append_of_getElem? hc, hlink⟩
  installed j := by
    rw [h.installed]
    constructor
    · rintro ⟨c, hc, hinstalled⟩
      exact ⟨c, Pool.getElem?_append_of_getElem? hc, hinstalled⟩
    · rintro ⟨c, hc, hinstalled⟩
      rcases Pool.getElem?_of_append hc with ⟨-, rfl⟩ | hc
      · cases hinstalled
      · exact ⟨c, hc, hinstalled⟩
  nodup := h.nodup

/-- A copy makes its list. -/
theorem Inv.load (h : Inv log s) : Inv log { s with lists := s.lists ++ [.uninit] } where
  thunk_inj := h.thunk_inj
  thunk_ne := h.thunk_ne
  recorded := h.recorded
  lists copy original hlist := by
    rcases Pool.getElem?_of_append hlist with ⟨-, hlist⟩ | hlist
    · cases hlist
    · exact h.lists copy original hlist
  originals := h.originals
  chain := h.chain
  installed := h.installed
  nodup := h.nodup

theorem Inv.step {a : Action} (h : Inv log s) (hstep : s.step a = some t) :
    Inv (log ++ s.exchanged a) t := by
  cases a with
  | load =>
    obtain rfl := Option.some.inj hstep
    simpa [State.exchanged] using h.load
  | hook kind =>
    obtain rfl := Option.some.inj hstep
    simpa [State.exchanged] using h.append kind
  | call i fresh spurious =>
    obtain ⟨call, hget, hstep⟩ := Option.bind_eq_some_iff.1 hstep
    cases hphase : call.phase with
    | entry =>
      simpa [State.exchanged, hget, hphase] using h.stepEntry hget hphase hstep
    | loading => exact h.stepUpdate hget (Or.inl hphase) hstep
    | calling cur => exact h.stepUpdate hget (Or.inr (Or.inl ⟨cur, hphase⟩)) hstep
    | exchanging cur => exact h.stepUpdate hget (Or.inr (Or.inr ⟨cur, hphase⟩)) hstep
    | updated prev =>
      simpa [State.exchanged, hget, hphase] using h.stepUpdated hget hphase hstep
    | sourcing =>
      simpa [State.exchanged, hget, hphase] using h.stepSourcing hget hphase hstep
    | done => simp [State.stepCall, hphase] at hstep

theorem step_trampoline {a : Action} (hstep : s.step a = some t) :
    t.trampoline = s.trampoline := by
  cases a with
  | load | hook => exact Option.some.inj hstep ▸ rfl
  | call i fresh spurious =>
    obtain ⟨call, -, hstep⟩ := Option.bind_eq_some_iff.1 hstep
    grind [State.stepCall, State.write, State.setCall, Option.map_eq_some_iff]

/-- No pointer is the entry point of two hooks. -/
theorem Inv.link_unique {j q' : ℕ} (h : Inv log s) (hlink : s.Link p i q)
    (hlink' : s.Link p j q') : i = j ∧ q = q' := by
  obtain ⟨c, hc, -, hthunk, huses⟩ := hlink
  obtain ⟨c', hc', -, hthunk', huses'⟩ := hlink'
  obtain rfl := h.thunk_inj i j p c c' hc hc' hthunk hthunk'
  obtain rfl := Option.some.inj (hc.symm.trans hc')
  exact ⟨rfl, Option.some.inj (huses.symm.trans huses')⟩

/-- The trampoline is no hook's. -/
theorem Inv.not_link (h : Inv log s) (i q : ℕ) : ¬s.Link s.trampoline i q := by
  rintro ⟨c, hc, -, hthunk, -⟩
  exact h.thunk_ne c (List.mem_of_getElem? hc) hthunk

end Inv

/-! ## The chain -/

/-- The installations whose exchange succeeded in a run, in order. -/
def exchanges (trampoline : ℕ) (as : List Action) : List ℕ :=
  Transition.trace State.step State.exchanged (.init trampoline) as

theorem inv_of_run {trampoline : ℕ} {as : List Action} {s : State}
    (hrun : Transition.run State.step (.init trampoline) as = some s) :
    Inv (exchanges trampoline as) s :=
  Transition.run_trace (P := Inv) (fun _ _ _ _ h hstep => h.step hstep) (inv_init trampoline) hrun

theorem trampoline_of_run {trampoline : ℕ} {as : List Action} {s : State}
    (hrun : Transition.run State.step (.init trampoline) as = some s) :
    s.trampoline = trampoline :=
  Transition.run_invariant_of_step (I := fun s => s.trampoline = trampoline)
    (fun _ _ _ hs hstep => (step_trampoline hstep).trans hs) rfl hrun

/-- From the thunk, the originals lead through the hooks whose exchange has succeeded, newest
first, each once, to the trampoline, and nowhere else. A temporary hook has the original its
copy's thunk has. -/
theorem chain_of_run {trampoline : ℕ} {as : List Action} {s : State}
    (hrun : Transition.run State.step (.init trampoline) as = some s) :
    Links.Chain s.Link s.thunk (exchanges trampoline as).reverse trampoline ∧
      (∀ is, Links.Chain s.Link s.thunk is trampoline →
        is = (exchanges trampoline as).reverse) ∧
      (exchanges trampoline as).Nodup ∧
      (∀ i : ℕ, i ∈ exchanges trampoline as ↔
        ∃ call, s.calls[i]? = some call ∧ call.isInstalled = true) ∧
      ∀ call ∈ s.calls, ∀ copy original : ℕ, call.kind = .temporary copy →
        call.original = some original → Sourced s copy original := by
  have h := inv_of_run hrun
  obtain rfl := trampoline_of_run hrun
  refine ⟨h.chain, fun is his => ?_, h.nodup, h.installed, h.originals⟩
  exact Links.Chain.unique (R := s.Link) (fun _ _ _ _ _ => h.link_unique) h.not_link his h.chain

/-- A static, a temporary and a custom hook, whose exchanges fail in turn before they succeed,
and a second temporary hook of the copy. -/
def sampleRun : List Action :=
  [.load, .hook .static, .hook (.temporary 0), .hook .custom, .hook (.temporary 0),
    .call 0 20 false, .call 1 30 false, .call 2 40 false, .call 0 0 false, .call 1 0 false,
    .call 2 0 false, .call 0 0 false, .call 1 0 false, .call 2 0 false, .call 1 0 false,
    .call 0 0 false, .call 2 0 false, .call 0 0 false, .call 2 0 false, .call 1 0 false,
    .call 2 0 true, .call 0 0 false, .call 2 0 false, .call 1 0 false, .call 3 0 false,
    .call 3 0 false, .call 2 0 false, .call 2 0 false, .call 2 0 false, .call 0 0 false]

theorem chain_of_sampleRun : ∃ s, Transition.run State.step (.init 10) sampleRun = some s ∧
    exchanges 10 sampleRun = [1, 0, 2] ∧
    Links.Chain s.Link s.thunk (exchanges 10 sampleRun).reverse 10 ∧
      (∀ is, Links.Chain s.Link s.thunk is 10 → is = (exchanges 10 sampleRun).reverse) ∧
      (exchanges 10 sampleRun).Nodup ∧
      (∀ i : ℕ, i ∈ exchanges 10 sampleRun ↔
        ∃ call, s.calls[i]? = some call ∧ call.isInstalled = true) ∧
      ∀ call ∈ s.calls, ∀ copy original : ℕ, call.kind = .temporary copy →
        call.original = some original → Sourced s copy original := by
  have hrun : Transition.run State.step (.init 10) sampleRun =
      some ⟨10, 40, [.done 10], [⟨.static, some 20, none, some 30, .done⟩,
        ⟨.temporary 0, some 30, some 10, some 10, .done⟩,
        ⟨.custom, some 40, some 20, none, .updated 20⟩,
        ⟨.temporary 0, none, none, some 10, .done⟩]⟩ := by decide +kernel
  exact ⟨_, hrun, by decide +kernel, chain_of_run hrun⟩

end ThunkChain

end Diversion
