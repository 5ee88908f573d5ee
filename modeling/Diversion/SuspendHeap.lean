import Diversion.SuspendStops

/-!
# The heap during a suspension

A signal can interrupt a thread inside the allocator, with a lock of the heap. So neither the
installer, as long as threads are stopped, nor a handler may allocate or free : everything they
need is allocated before the first signal, and what the installer drops in between is not the last
reference to its allocation. The handler, however, owns the box of its payload and frees it before
it returns (`not_heapSafe_inMalloc`). No other step uses the heap (`heapSafe_iff`), so a run is
safe exactly if no handler gets that far (`heapSafe_iff_of_run`).
-/

namespace Diversion

namespace Suspend

/-- From the first signal until all threads are resumed. -/
def Installer.hasSignalled : Installer → Bool
  | .sending _ | .unsent _ | .checking | .polling _ | .gone _ | .closing | .unsharing | .suspended
  | .setting _ | .resuming _ => true
  | _ => false

namespace State

/-- The step allocates or frees heap memory. -/
def usesHeap (s : State) : Action → Bool
  | .noDir | .entry _ | .endOfDir => true
  | .handler k => (s.targets[k]?).any fun target =>
    match target.phase with
    | .droppingChannel => target.channelRefs.dropStrongFrees
    | .droppingCount => s.countRefs.dropStrongFrees
    -- the box, whatever becomes of the references in it
    | .droppingPayload => true
    | _ => false
  | .installer _ =>
    match s.installer with
    -- `Arc::new`
    | .starting => true
    | .unsharing => s.countRefs.dropStrongFrees
    | .dropping k => (s.targets[k]?).any fun target =>
      target.channelRefs.dropStrongFrees || target.payload = .thread
    | _ => false
  | _ => false

/-- A step of the installer between its first signal and the resume of the threads, or a step of
a handler. -/
def inWindow (s : State) : Action → Bool
  | .handler k => (s.targets[k]?).any fun target => target.phase.inHandler
  | .installer _ | .setIp _ | .storeIp _ | .drop => s.installer.hasSignalled
  | _ => false

/-- The thread is inside the allocator, with a lock of the heap. -/
def HoldsHeap (s : State) (tid : ℕ) : Prop :=
  ∃ task ∈ s.tasks[tid]?, task.alive = true ∧ task.inHeap = true
deriving Decidable

/-- The thread does not go on before the step is taken : it is the handler's own thread, or one
that the installer has stopped. -/
def Awaits (s : State) (tid : ℕ) : Action → Prop
  | .handler k => ∃ target ∈ s.targets[k]?, target.tid = tid
  | _ => s.isInterrupted tid = true

/-- No step in the window uses the heap, so that none waits for a lock of the heap whose owner waits
for the step. -/
structure HeapSafe (s : State) : Prop where
  avoids : ∀ a, (s.step a).isSome = true → s.inWindow a = true → s.usesHeap a = false
  noDeadlock : ∀ a tid, (s.step a).isSome = true → s.inWindow a = true → s.usesHeap a = true →
    s.HoldsHeap tid → ¬s.Awaits tid a

end State

/-- The step is not the one behind which a handler has only its payload left to drop. -/
def NoHandlerEnds (s : State) : Action → Prop
  | .handler k => ∀ target ∈ s.targets[k]?, target.phase ≠ .droppingCount
  | _ => True

instance (s : State) : DecidablePred (NoHandlerEnds s)
  | .handler k => inferInstanceAs (Decidable (∀ target ∈ s.targets[k]?, _ ≠ _))
  | .execute _ _ _ | .create _ _ _ | .exit _ | .deliver _ | .noDir | .entry _ | .endOfDir
  | .installer _ | .setIp _ | .storeIp _ | .drop => inferInstanceAs (Decidable True)

/-! ## The steps that use the heap -/

section Uses

variable {s t : State} {a : Action} {k : ℕ} {target : Target}

/-- The drop of the handler's channel leaves the reference of the payload. -/
theorem State.Inv.channel_stays (hs : s.Inv) (htarget : s.targets[k]? = some target)
    (hphase : target.phase = .droppingChannel) : target.channelRefs.dropStrongFrees = false := by
  have hok := hs.ok k target htarget
  have hpayload := hok.payload_eq (by rw [hphase]; rfl)
  have hrefs := hok.refs
  rw [hpayload] at hrefs
  have hweak : target.channelRefs.Backs _ (0 + 1) := hrefs
  exact hweak.dropStrongFrees

/-- The references of the payloads keep `suspend_count`. -/
theorem State.Inv.count_stays (hs : s.Inv) (hshared : ∃ target ∈ s.targets, target.shared = true) :
    s.countRefs.dropStrongFrees = false := by
  have hpos : 0 < s.targets.countP Target.shared := List.countP_pos_iff.2 hshared
  have hrefs := hs.refs
  obtain ⟨weaks, hweaks⟩ : ∃ n, s.targets.countP Target.shared = n + 1 :=
    ⟨_, (Nat.succ_pred_eq_of_pos hpos).symm⟩
  rw [hweaks] at hrefs
  exact hrefs.dropStrongFrees

theorem Stage.payload_of_isStopped {phase : Phase} (h : phase.isStopped = true) (stage : Stage) :
    stage.payload phase = .signal := by
  refine payload_of_holdsPayload ?_
  cases phase <;> first | rfl | exact absurd h (by decide)

/-- Once the wait has ended, every payload is somewhere. -/
theorem Target.Ok.shared_of_waited (h : target.Ok .waited) : target.shared = true := by
  have hpayload : target.payload ≠ .freed := by
    rw [h.payload]
    cases hlive : target.live with
    | true =>
      rw [Stage.payload_of_isStopped (h.phase hlive)]
      decide
    | false =>
      rcases (h.off hlive).2 with hphase | hphase <;> rw [hphase] <;> decide
  rw [h.shared, decide_eq_true hpayload]
  rfl

/-- The last step of a handler but one is the only step in the window that uses the heap. -/
theorem heapSafe_iff (hs : s.Inv) (hne : s.installer.holdsCount = true → s.targets ≠ []) :
    s.HeapSafe ↔ ∀ target ∈ s.targets, target.phase ≠ .droppingPayload := by
  constructor
  · intro h target hmem hphase
    obtain ⟨k, htarget⟩ := List.getElem?_of_mem hmem
    have huses := h.avoids (.handler k) (by simp [State.step, htarget, State.handler, hphase])
      (by simp [State.inWindow, htarget, hphase, Phase.inHandler])
    simp [State.usesHeap, htarget, hphase] at huses
  · intro h
    have havoids : ∀ a, s.inWindow a = true → s.usesHeap a = false := by
      intro a ha
      cases a with
      | handler k =>
        cases htarget : s.targets[k]? with
        | none => simp [State.usesHeap, htarget]
        | some target =>
          have hmem := List.mem_of_getElem? htarget
          simp only [State.usesHeap, htarget, Option.any_some]
          cases hphase : target.phase
          case droppingChannel => exact hs.channel_stays htarget hphase
          case droppingCount =>
            exact hs.count_stays ⟨target, hmem, (hs.ok k target htarget).shared_eq (by
              rw [hphase]; rfl)⟩
          case droppingPayload => exact absurd hphase (h target hmem)
          all_goals rfl
      | installer ok =>
        cases hinstaller : s.installer <;> simp only [State.usesHeap, hinstaller]
        case starting => simp [State.inWindow, hinstaller, Installer.hasSignalled] at ha
        case dropping k => simp [State.inWindow, hinstaller, Installer.hasSignalled] at ha
        case unsharing =>
          obtain ⟨target, hmem⟩ := List.exists_mem_of_ne_nil _ (hne (by rw [hinstaller]; rfl))
          obtain ⟨k, htarget⟩ := List.getElem?_of_mem hmem
          have hok := hs.ok k target htarget
          rw [hinstaller] at hok
          exact hs.count_stays ⟨target, hmem, Target.Ok.shared_of_waited hok⟩
      | noDir | entry _ | endOfDir => cases ha
      | _ => rfl
    refine ⟨fun a _ => havoids a, fun a tid _ ha huses => ?_⟩
    exact absurd ((havoids a ha).symm.trans huses) (by decide)

end Uses

/-! ## The steps of a run -/

/-- `suspend_count` is there only with threads to suspend, which are never taken off the list. -/
def State.HasTargets (s : State) : Prop :=
  s.installer.holdsCount = true → s.targets ≠ []

/-- The step brings no handler to the drop of its payload. -/
structure Quiet (s t : State) : Prop where
  hasTargets : s.HasTargets → t.HasTargets
  phase : ∀ target' ∈ t.targets, target'.phase = .droppingPayload →
    ∃ target ∈ s.targets, target.phase = .droppingPayload

section Steps

variable {s t : State} {a : Action} {k tid : ℕ} {target target' : Target}

theorem Quiet.of_targets (hholds : t.installer.holdsCount = true →
      s.installer.holdsCount = true ∨ s.targets ≠ []) (htargets : t.targets = s.targets) :
    Quiet s t where
  hasTargets hs ht := htargets ▸ (hholds ht).elim hs id
  phase target' hmem hphase := ⟨target', htargets ▸ hmem, hphase⟩

theorem Quiet.of_set (htarget : s.targets[k]? = some target)
    (htargets : t.targets = s.targets.set k target')
    (hphase : target'.phase = .droppingPayload → target.phase = .droppingPayload) : Quiet s t where
  hasTargets _ _ := by
    rw [htargets]
    have hmem := List.mem_of_getElem? htarget
    exact List.ne_nil_of_length_pos (by rw [List.length_set]; exact List.length_pos_of_mem hmem)
  phase other hmem hother := by
    rw [htargets] at hmem
    obtain ⟨i, hi⟩ := List.getElem?_of_mem hmem
    rcases Pool.mem_of_getElem?_set hi with ⟨rfl, rfl⟩ | ⟨-, hi⟩
    · exact ⟨target, List.mem_of_getElem? htarget, hphase hother⟩
    · exact ⟨other, List.mem_of_getElem? hi, hother⟩

theorem exit_quiet (h : s.exit tid = some t) : Quiet s t := by
  unfold State.exit at h
  split_ifs at h
  obtain rfl := Option.some.inj h
  refine ⟨fun hs ht => ?_, fun target' hmem hphase => ?_⟩
  · simpa using hs ht
  · obtain ⟨target, htarget, rfl⟩ := List.mem_map.1 hmem
    refine ⟨target, htarget, ?_⟩
    rcases target.exit_cases tid with heq | ⟨-, -, heq⟩ <;> rw [heq] at hphase
    · exact hphase
    · cases hphase

theorem installerStep_quiet {ok : Bool} (h : s.installerStep ok = some t) : Quiet s t := by
  have hstep := installerStep_spec h
  rcases hstep.targets with htargets | ⟨k, target, target', htarget, htargets, -, -, hphase⟩
  · exact .of_targets hstep.holds htargets
  · refine .of_set htarget htargets fun hdropping => ?_
    rcases hphase with heq | heq | heq <;> rw [heq] at hdropping
    · exact hdropping
    · cases hdropping
    · cases hdropping

/-- Only a handler gets to the drop of its payload. -/
theorem step_quiet (ha : ∀ k, a ≠ .handler k) (h : s.step a = some t) : Quiet s t := by
  cases a with
  | handler k => exact absurd rfl (ha k)
  | execute tid ip inHeap =>
    simp only [State.step, State.execute, Option.ite_none_right_eq_some, Option.some.injEq] at h
    obtain ⟨-, rfl⟩ := h
    exact .of_targets Or.inl rfl
  | create parent reused ip =>
    obtain ⟨hinstaller, htargets⟩ := create_unchanged h
    exact .of_targets (fun ht => Or.inl (hinstaller ▸ ht)) htargets
  | exit tid => exact exit_quiet h
  | deliver k =>
    obtain ⟨target, htarget, h⟩ := Option.bind_eq_some_iff.1 h
    unfold State.deliver at h
    split_ifs at h
    obtain ⟨task, -, rfl⟩ := Option.map_eq_some_iff.1 h
    exact .of_set htarget rfl (fun h => by cases h)
  | noDir =>
    simp only [State.step, Option.ite_none_right_eq_some, Option.some.injEq] at h
    obtain ⟨-, rfl⟩ := h
    exact .of_targets (fun h => by cases h) rfl
  | entry tid =>
    simp only [State.step, Option.ite_none_right_eq_some, Option.some.injEq] at h
    obtain ⟨⟨hlisting, -⟩, rfl⟩ := h
    unfold State.entry
    split_ifs
    · refine ⟨fun _ _ => List.cons_ne_nil _ _, fun target' hmem hphase => ?_⟩
      rcases List.mem_cons.1 hmem with rfl | hmem
      · cases hphase
      · exact ⟨target', hmem, hphase⟩
    · exact .of_targets Or.inl rfl
  | endOfDir =>
    simp only [State.step, Option.ite_none_right_eq_some, Option.some.injEq] at h
    obtain ⟨-, rfl⟩ := h
    exact .of_targets (fun h => by cases h) rfl
  | installer ok => exact installerStep_quiet h
  | setIp k =>
    simp only [State.step, Option.ite_none_right_eq_some, Option.bind_eq_some_iff] at h
    obtain ⟨-, target, -, h⟩ := h
    unfold State.setIp at h
    split_ifs at h <;> obtain rfl := Option.some.inj h
    · exact .of_targets (fun h => by cases h) rfl
    · exact .of_targets Or.inl rfl
  | storeIp ip =>
    cases hinstaller : s.installer <;> simp only [State.step, hinstaller, reduceCtorEq] at h
    case setting k =>
      obtain ⟨target, htarget, rfl⟩ := Option.map_eq_some_iff.1 h
      exact .of_set htarget rfl id
  | drop =>
    simp only [State.step, Option.ite_none_right_eq_some, Option.some.injEq] at h
    obtain ⟨-, rfl⟩ := h
    exact .of_targets (fun h => by cases h) rfl

/-- What a step of a handler does to its target. -/
theorem exists_handler_set (h : s.handler k target = some t) : ∃ target',
    t.targets = s.targets.set k target' ∧ t.installer = s.installer ∧
      (target'.phase = .droppingPayload ↔ target.phase = .droppingCount) := by
  cases hphase : target.phase <;> simp only [State.handler, hphase, reduceCtorEq] at h
  case entered =>
    split at h <;> obtain rfl := Option.some.inj h <;> exact ⟨_, rfl, rfl, by simp⟩
  case opening =>
    split at h <;> obtain rfl := Option.some.inj h <;> exact ⟨_, rfl, rfl, by simp⟩
  case waiting =>
    split_ifs at h
    obtain rfl := Option.some.inj h
    exact ⟨_, rfl, rfl, by simp⟩
  case delivered =>
    obtain rfl := Option.some.inj h
    refine ⟨_, rfl, rfl, ?_⟩
    simp only [reduceCtorEq, iff_false]
    split_ifs <;> simp
  all_goals
    obtain rfl := Option.some.inj h
    exact ⟨_, rfl, rfl, by simp⟩

/-- What is known of every state. -/
structure State.Ready (s : State) : Prop where
  inv : s.Inv
  hasTargets : s.HasTargets

theorem step_ready (hs : s.Ready) (h : s.step a = some t) : t.Ready := by
  refine ⟨step_inv hs.inv h, ?_⟩
  cases a with
  | handler k =>
    obtain ⟨target, htarget, h⟩ := Option.bind_eq_some_iff.1 h
    obtain ⟨target', htargets, hinstaller, -⟩ := exists_handler_set h
    intro _
    have hmem := List.mem_of_getElem? htarget
    rw [htargets]
    exact List.ne_nil_of_length_pos (by rw [List.length_set]; exact List.length_pos_of_mem hmem)
  | _ => exact (step_quiet (fun _ h => by cases h) h).hasTargets hs.hasTargets

/-- A step keeps the state safe exactly if it is not the last one of a handler but one. -/
theorem heapSafe_step_iff (hs : s.Ready) (hsafe : s.HeapSafe) (h : s.step a = some t) :
    t.HeapSafe ↔ NoHandlerEnds s a := by
  have hsafe := (heapSafe_iff hs.inv hs.hasTargets).1 hsafe
  have ht := step_ready hs h
  rw [heapSafe_iff ht.inv ht.hasTargets]
  cases a with
  | handler k =>
    obtain ⟨target, htarget, h⟩ := Option.bind_eq_some_iff.1 h
    obtain ⟨target', htargets, -, hphase⟩ := exists_handler_set h
    simp only [NoHandlerEnds, htarget, Option.mem_def, Option.some.injEq, forall_eq']
    rw [htargets]
    constructor
    · intro hall hcount
      refine hall target' (List.mem_of_getElem? (i := k) ?_) (hphase.2 hcount)
      exact Pool.getElem?_set_of_getElem? htarget
    · intro hne other hmem hother
      obtain ⟨i, hi⟩ := List.getElem?_of_mem hmem
      rcases Pool.mem_of_getElem?_set hi with ⟨-, rfl⟩ | ⟨-, hi⟩
      · exact hne (hphase.1 hother)
      · exact hsafe other (List.mem_of_getElem? hi) hother
  | _ =>
    refine iff_of_true (fun target' hmem hphase => ?_) trivial
    have hquiet := step_quiet (fun _ h => by cases h) h
    obtain ⟨target, hmem, hphase⟩ := hquiet.phase target' hmem hphase
    exact hsafe target hmem hphase

end Steps

/-! ## Runs -/

section Runs

variable {u : State} {capacity : ℕ} {tasks : List Task} {actions : List Action}

theorem ready_init : (State.init capacity tasks).Ready :=
  ⟨inv_init capacity tasks, nofun⟩

/-- A run never waits for the heap in the window exactly if no handler comes to an end. -/
theorem heapSafe_iff_of_run
    (hrun : Transition.run State.step (.init capacity tasks) actions = some u) :
    Transition.Throughout State.step State.HeapSafe (.init capacity tasks) actions ↔
      Transition.Meets State.step NoHandlerEnds (.init capacity tasks) actions := by
  refine Transition.throughout_iff_meets (fun _ _ _ => step_ready)
    (fun _ _ _ => heapSafe_step_iff) ready_init ?_ hrun
  exact (heapSafe_iff (inv_init capacity tasks) nofun).2 (by simp [State.init])

end Runs

/-- Thread 0 is interrupted inside the allocator, and goes on until it is to free its payload. -/
def inMalloc : List Action :=
  [.entry 0, .endOfDir, .installer true, .installer true, .deliver 0, .handler 0, .handler 0,
    .handler 0, .handler 0, .handler 0, .handler 0, .installer true, .installer true,
    .installer true, .installer true, .drop, .installer true, .handler 0, .handler 0, .handler 0,
    .handler 0]

/-- The next step of thread 0 frees heap memory, and thread 0 itself holds the lock. -/
theorem not_heapSafe_inMalloc : ∃ u,
    Transition.run State.step (.init 8 [⟨true, 0x10, true⟩]) inMalloc = some u ∧
      u.usesHeap (.handler 0) = true ∧ u.HoldsHeap 0 ∧ u.Awaits 0 (.handler 0) ∧ ¬u.HeapSafe ∧
      ¬Transition.Throughout State.step State.HeapSafe (.init 8 [⟨true, 0x10, true⟩]) inMalloc := by
  have hrun : Transition.run State.step (.init 8 [⟨true, 0x10, true⟩]) inMalloc = some _ := rfl
  have huses : ∀ u : State, Transition.run State.step (.init 8 [⟨true, 0x10, true⟩]) inMalloc =
      some u → ¬u.HeapSafe := by
    rintro u hu h
    obtain rfl := Option.some.inj (hrun.symm.trans hu)
    exact absurd (h.avoids (.handler 0) rfl rfl) (by decide)
  exact ⟨_, hrun, rfl, by decide, ⟨_, rfl, rfl⟩, huses _ hrun,
    fun h => huses _ hrun (h.last hrun)⟩

/-- Up to the resume of thread 0 nothing uses the heap. -/
theorem heapSafe_iff_inMalloc : Transition.Throughout State.step State.HeapSafe
    (.init 8 [⟨true, 0x10, true⟩]) (inMalloc.take 17) := by
  have hrun : Transition.run State.step (.init 8 [⟨true, 0x10, true⟩]) (inMalloc.take 17) =
    some _ := rfl
  exact (heapSafe_iff_of_run hrun).2 (by decide)

end Suspend

end Diversion
