import Diversion.SuspendCount

/-!
# Stopping the other threads

What `suspend_other_threads` is for : when it returns, every other thread is in its handler, and
stays there until it is resumed. It lists the threads once, in as much scratch space as there is,
and takes every signal it could not send for one to a thread that is gone. So a thread that is not
in the list runs on, and one whose signal was refused does too (`not_stopsOthers_refused`).
In a run in which neither happens (`LosesNoThread`) no thread runs (`stopsOthers_of_run`).
-/

namespace Diversion

namespace Suspend

instance (tasks : List Task) (tid : ℕ) : Decidable (IsAlive tasks tid) :=
  decidable_of_iff _ (Option.any_eq_true Task.alive tasks[tid]?)

namespace Installer

/-- The threads are listed, and the guard has not been dropped. -/
def hasListed : Installer → Bool
  | .starting | .sending _ | .unsent _ | .checking | .polling _ | .gone _ | .closing | .unsharing
  | .suspended | .setting _ => true
  | _ => false

/-- `suspend_other_threads` has returned the threads, and the guard has not been dropped. -/
def hasReturned : Installer → Bool
  | .suspended | .setting _ => true
  | _ => false

theorem of_hasReturned {i : Installer} (h : i.hasReturned = true) :
    i.hasListed = true ∧ i.hasWaited = true ∧ ∀ k, i.hasResumed k = false := by
  cases i <;> first | exact ⟨rfl, rfl, fun _ => rfl⟩ | cases h

end Installer

/-- No other thread runs once `suspend_other_threads` has returned. -/
structure State.StopsOthers (s : State) : Prop where
  stopped : s.installer.hasReturned = true → ∀ tid, IsAlive s.tasks tid →
    ¬s.Runs tid ∧ ∃ (k : ℕ) (target : Target), s.targets[k]? = some target ∧ target.tid = tid ∧
      target.live = true ∧ target.phase.isStopped = true
  /-- What is stopped stays until it is resumed. -/
  stays : s.installer.hasWaited = true → ∀ (k : ℕ) (target : Target),
    s.targets[k]? = some target → target.live = true → s.installer.hasResumed k = false →
      target.phase.isStopped = true ∧ ¬s.Runs target.tid

/-- The list has every thread that is alive when it ends, no thread is created from then on until
the guard is dropped, and only a signal to a thread that is gone is refused. -/
def LosesNoThread (s : State) : Action → Prop
  | .endOfDir => ∀ tid < s.tasks.length, IsAlive s.tasks tid →
      ∃ target ∈ s.targets, target.tid = tid
  | .create _ _ _ => s.installer.hasListed = false
  | .installer false =>
    match s.installer with
    | .sending k => ∀ target ∈ s.targets[k]?, ¬IsAlive s.tasks target.tid
    | _ => True
  | _ => True

instance (s : State) : DecidablePred (LosesNoThread s)
  | .endOfDir => inferInstanceAs (Decidable (∀ tid < _, _ → _))
  | .create _ _ _ => inferInstanceAs (Decidable (_ = _))
  | .installer false => by
    unfold LosesNoThread
    cases s.installer <;> infer_instance
  | .installer true | .execute _ _ _ | .exit _ | .deliver _ | .handler _ | .noDir | .entry _
  | .setIp _ | .storeIp _ | .drop => inferInstanceAs (Decidable True)

/-- Every thread that is alive has a target that is not written off. -/
structure State.Covers (s : State) : Prop where
  listed : s.installer.hasListed = true → ∀ tid, IsAlive s.tasks tid →
    ∃ (k : ℕ) (target : Target), s.targets[k]? = some target ∧ target.tid = tid ∧ target.live = true
  /-- What is about to be written off is gone. -/
  dead : ∀ (k : ℕ) (target : Target), s.installer = .unsent k ∨ s.installer = .gone k →
    s.targets[k]? = some target → ¬IsAlive s.tasks target.tid

/-- Before the list is complete, and from the drop of the guard on. -/
theorem State.covers_of_not_listed {s : State} (h : s.installer.hasListed = false) : s.Covers where
  listed ht := absurd (ht.symm.trans h) (by decide)
  dead k target hinstaller := by
    rcases hinstaller with hinstaller | hinstaller <;> rw [hinstaller] at h <;> cases h

/-- A step that creates no thread, and writes off none that is alive. -/
structure Follows (s t : State) : Prop where
  alive : ∀ tid, IsAlive t.tasks tid → IsAlive s.tasks tid
  length : t.targets.length = s.targets.length
  targets : ∀ (k : ℕ) (target : Target), s.targets[k]? = some target →
    ∃ target' : Target, t.targets[k]? = some target' ∧ target'.tid = target.tid ∧
      (target'.live = target.live ∨ ¬IsAlive s.tasks target.tid)

section Follows

variable {s t : State} {k : ℕ} {target target' : Target}

theorem Follows.of_targets (halive : ∀ tid, IsAlive t.tasks tid → IsAlive s.tasks tid)
    (htargets : t.targets = s.targets) : Follows s t :=
  ⟨halive, by rw [htargets], fun _ target htarget =>
    ⟨target, by rwa [htargets], rfl, Or.inl rfl⟩⟩

theorem Follows.of_set (halive : ∀ tid, IsAlive t.tasks tid → IsAlive s.tasks tid)
    (htarget : s.targets[k]? = some target) (htargets : t.targets = s.targets.set k target')
    (htid : target'.tid = target.tid)
    (hlive : target'.live = target.live ∨ ¬IsAlive s.tasks target.tid) : Follows s t := by
  refine ⟨halive, by rw [htargets, List.length_set], fun i other hother => ?_⟩
  by_cases hik : i = k
  · subst hik
    obtain rfl := Option.some.inj (htarget.symm.trans hother)
    exact ⟨target', by rw [htargets, Pool.getElem?_set_of_getElem? htarget], htid, hlive⟩
  · exact ⟨other, by rw [htargets, List.getElem?_set_ne (Ne.symm hik), hother], rfl, Or.inl rfl⟩

/-- A target after the step is one from before it. -/
theorem Follows.exists_target (h : Follows s t) (htarget : t.targets[k]? = some target') :
    ∃ target : Target, s.targets[k]? = some target ∧ target'.tid = target.tid := by
  have hlt := (List.getElem?_eq_some_iff.1 htarget).1
  rw [h.length] at hlt
  obtain ⟨other, hother, htid, -⟩ := h.targets k _ (List.getElem?_eq_getElem hlt)
  obtain rfl := Option.some.inj (htarget.symm.trans hother)
  exact ⟨_, List.getElem?_eq_getElem hlt, htid⟩

/-- The threads stay covered. -/
theorem Follows.covers (h : Follows s t) (hs : s.Covers)
    (hlisted : t.installer.hasListed = true → s.installer.hasListed = true)
    (hdead : ∀ (k : ℕ) (target : Target), t.installer = .unsent k ∨ t.installer = .gone k →
      s.targets[k]? = some target → ¬IsAlive s.tasks target.tid) : t.Covers where
  listed ht tid halive := by
    obtain ⟨k, target, htarget, rfl, hlive⟩ := hs.listed (hlisted ht) tid (h.alive tid halive)
    obtain ⟨target', htarget', htid, heq⟩ := h.targets k target htarget
    have heq := heq.resolve_right (not_not.2 (h.alive _ halive))
    exact ⟨k, target', htarget', htid, heq.trans hlive⟩
  dead k target' hinstaller htarget' halive := by
    obtain ⟨target, htarget, htid⟩ := h.exists_target htarget'
    exact hdead k target hinstaller htarget (htid ▸ h.alive _ halive)

/-- A step that leaves the installer alone. -/
theorem Follows.covers_of_eq (h : Follows s t) (hs : s.Covers)
    (hinstaller : t.installer = s.installer) : t.Covers :=
  h.covers hs (fun ht => hinstaller ▸ ht) fun k target hk => hs.dead k target (hinstaller ▸ hk)

end Follows

/-! ## The steps -/

section Alive

variable {tasks : List Task} {task : Task} {tid i : ℕ}

theorem IsAlive.of_set (h : IsAlive (tasks.set i task) tid) (hi : IsAlive tasks i) :
    IsAlive tasks tid := by
  obtain ⟨task', htask', halive⟩ := h
  rcases Pool.mem_of_getElem?_set htask' with ⟨rfl, -⟩ | ⟨-, htask'⟩
  · exact hi
  · exact ⟨task', htask', halive⟩

theorem IsAlive.of_modify {f : Task → Task} (h : IsAlive (tasks.modify i f) tid)
    (hf : ∀ task, (f task).alive = true → task.alive = true) : IsAlive tasks tid := by
  obtain ⟨task', htask', halive⟩ := h
  rw [List.getElem?_modify] at htask'
  obtain ⟨task, htask, rfl⟩ := Option.map_eq_some_iff.1 htask'
  refine ⟨task, htask, ?_⟩
  split_ifs at halive
  · exact hf task halive
  · exact halive

end Alive

section Steps

variable {s t : State} {a : Action} {k tid : ℕ} {target : Target}

theorem State.Runs.isAlive (h : s.Runs tid) : IsAlive s.tasks tid := by
  obtain ⟨⟨task, htask, halive⟩, -⟩ := h
  exact ⟨task, htask, halive⟩

theorem execute_follows {ip : ℕ} {inHeap : Bool} (h : s.execute tid ip inHeap = some t) :
    Follows s t ∧ t.installer = s.installer := by
  unfold State.execute at h
  split_ifs at h with hruns
  obtain rfl := Option.some.inj h
  exact ⟨.of_targets (fun _ halive => halive.of_set hruns.isAlive) rfl, rfl⟩

theorem create_unchanged {parent ip : ℕ} {reused : Option ℕ}
    (h : s.create parent reused ip = some t) :
    t.installer = s.installer ∧ t.targets = s.targets := by
  unfold State.create at h
  split_ifs at h
  cases reused with
  | none =>
    obtain rfl := Option.some.inj h
    exact ⟨rfl, rfl⟩
  | some tid =>
    obtain ⟨task, -, h⟩ := Option.bind_eq_some_iff.1 h
    split_ifs at h
    obtain rfl := Option.some.inj h
    exact ⟨rfl, rfl⟩

theorem exit_follows (h : s.exit tid = some t) : Follows s t ∧ t.installer = s.installer := by
  unfold State.exit at h
  split_ifs at h
  obtain rfl := Option.some.inj h
  refine ⟨⟨fun _ halive => halive.of_modify (fun _ h => by cases h), List.length_map _,
    fun k target htarget => ?_⟩, rfl⟩
  refine ⟨target.exit tid, by rw [List.getElem?_map, htarget]; rfl, ?_⟩
  rcases target.exit_cases tid with heq | ⟨-, -, heq⟩ <;> rw [heq] <;> exact ⟨rfl, Or.inl rfl⟩

theorem deliver_follows (htarget : s.targets[k]? = some target)
    (h : s.deliver k target = some t) : Follows s t ∧ t.installer = s.installer := by
  unfold State.deliver at h
  split_ifs at h
  obtain ⟨task, -, rfl⟩ := Option.map_eq_some_iff.1 h
  exact ⟨.of_set (fun _ => id) htarget rfl rfl (Or.inl rfl), rfl⟩

theorem handler_follows (htarget : s.targets[k]? = some target)
    (h : s.handler k target = some t) : Follows s t ∧ t.installer = s.installer := by
  have hset : ∀ suspendCount countRefs (target' : Target), target'.tid = target.tid →
      target'.live = target.live →
        Follows s ({ s with suspendCount, countRefs }.setTarget k target') ∧
          ({ s with suspendCount, countRefs }.setTarget k target').installer = s.installer :=
    fun _ _ _ htid hlive => ⟨.of_set (fun _ => id) htarget rfl htid (Or.inl hlive), rfl⟩
  cases hphase : target.phase <;> simp only [State.handler, hphase, reduceCtorEq] at h
  case entered =>
    split at h <;> obtain rfl := Option.some.inj h
    · exact hset s.suspendCount _ _ rfl rfl
    · exact hset s.suspendCount s.countRefs _ rfl rfl
  case opening =>
    split at h <;> obtain rfl := Option.some.inj h
    · exact hset s.suspendCount s.countRefs _ rfl rfl
    · exact hset s.suspendCount s.countRefs _ rfl rfl
  case waiting =>
    split_ifs at h
    obtain rfl := Option.some.inj h
    exact hset s.suspendCount s.countRefs _ rfl rfl
  case counting =>
    obtain rfl := Option.some.inj h
    exact hset _ s.countRefs _ rfl rfl
  case droppingCount =>
    obtain rfl := Option.some.inj h
    exact hset s.suspendCount _ _ rfl rfl
  case droppingPayload =>
    obtain rfl := Option.some.inj h
    exact hset s.suspendCount _ _ rfl rfl
  case returning =>
    -- the thread goes on at another instruction
    obtain rfl := Option.some.inj h
    exact ⟨.of_set (fun _ halive => halive.of_modify fun _ h => h) htarget rfl rfl (Or.inl rfl),
      rfl⟩
  all_goals
    obtain rfl := Option.some.inj h
    exact hset s.suspendCount s.countRefs _ rfl rfl

/-- What a step of the installer can do : it leaves the threads alone, changes one target at most,
and writes that one off only behind `.unsent` and `.gone`. -/
structure InstallerStep (s t : State) (ok : Bool) : Prop where
  tasks : t.tasks = s.tasks
  targets : t.targets = s.targets ∨ ∃ (k : ℕ) (target target' : Target),
    s.targets[k]? = some target ∧ t.targets = s.targets.set k target' ∧ target'.tid = target.tid ∧
      (target'.live = target.live ∨ s.installer = .unsent k ∨ s.installer = .gone k) ∧
        (target'.phase = target.phase ∨ target'.phase = .queued ∨ target'.phase = .lost)
  listed : t.installer.hasListed = true → s.installer.hasListed = true
  holds : t.installer.holdsCount = true → s.installer.holdsCount = true ∨ s.targets ≠ []
  unsent : ∀ k, t.installer = .unsent k → s.installer = .sending k ∧ ok = false
  gone : ∀ k, t.installer = .gone k → ∃ target : Target, s.targets[k]? = some target ∧
    ¬IsAlive s.tasks target.tid

/-- A step that leaves the targets alone. -/
theorem InstallerStep.goes {isSuspending : Bool} {suspendCount : ℕ} {countRefs : RefCount}
    {installer : Installer} {ok : Bool}
    (hlisted : installer.hasListed = true → s.installer.hasListed = true)
    (hholds : installer.holdsCount = true → s.installer.holdsCount = true ∨ s.targets ≠ [])
    (hunsent : ∀ k, installer ≠ .unsent k)
    (hgone : ∀ k, installer = .gone k → ∃ target : Target, s.targets[k]? = some target ∧
      ¬IsAlive s.tasks target.tid) :
    InstallerStep s { s with isSuspending, suspendCount, countRefs, installer } ok where
  tasks := rfl
  targets := Or.inl rfl
  listed := hlisted
  holds := hholds
  unsent k hk := absurd hk (hunsent k)
  gone := hgone

/-- A step with one target. -/
theorem InstallerStep.sets {suspendCount : ℕ} {countRefs : RefCount} {installer : Installer}
    {target' : Target} {ok : Bool} (htarget : s.targets[k]? = some target)
    (htid : target'.tid = target.tid)
    (hlive : target'.live = target.live ∨ s.installer = .unsent k ∨ s.installer = .gone k)
    (hphase : target'.phase = target.phase ∨ target'.phase = .queued ∨ target'.phase = .lost)
    (hlisted : installer.hasListed = true → s.installer.hasListed = true)
    (hunsent : ∀ k, installer = .unsent k → s.installer = .sending k ∧ ok = false)
    (hgone : ∀ k, installer ≠ .gone k) :
    InstallerStep s ({ s with suspendCount, countRefs, installer }.setTarget k target') ok where
  tasks := rfl
  targets := Or.inr ⟨k, target, target', htarget, rfl, htid, hlive, hphase⟩
  listed := hlisted
  holds _ := Or.inr (List.ne_nil_of_mem (List.mem_of_getElem? htarget))
  unsent := hunsent
  gone k hk := absurd hk (hgone k)

theorem sendSignal_spec {ok : Bool} (hinstaller : s.installer = .sending k)
    (htarget : s.targets[k]? = some target) : InstallerStep s (s.sendSignal k target ok) ok := by
  have hlisted : s.installer.hasListed = true := by rw [hinstaller]; rfl
  unfold State.sendSignal
  split_ifs with hpayload hok
  · refine .sets htarget rfl (Or.inl rfl) (Or.inr ?_) (fun _ => hlisted) (by simp) (by simp)
    dsimp only
    split_ifs
    · exact Or.inl rfl
    · exact Or.inr rfl
  · refine .sets htarget rfl (Or.inl rfl) (Or.inl rfl) (fun _ => hlisted) (fun i hi => ?_) (by simp)
    obtain rfl : k = i := by simpa using hi
    exact ⟨hinstaller, Bool.eq_false_iff.2 hok⟩
  · exact .goes (fun h => by cases h) (fun h => by cases h) (by simp) (by simp)

theorem resume_spec {ok : Bool} (htarget : s.targets[k]? = some target)
    (h : s.resume k target = some t) : InstallerStep s t ok := by
  unfold State.resume at h
  split_ifs at h <;> obtain rfl := Option.some.inj h
  · exact .sets htarget rfl (Or.inl rfl) (Or.inl rfl) (fun h => by cases h) (by simp) (by simp)
  · exact .goes (fun h => by cases h) (fun h => by cases h) (by simp) (by simp)

theorem dropThread_spec {ok : Bool} (htarget : s.targets[k]? = some target) :
    InstallerStep s (s.dropThread k target) ok := by
  unfold State.dropThread
  dsimp only
  split_ifs
  · exact .sets htarget rfl (Or.inl rfl) (Or.inl rfl) (fun h => by cases h) (by simp) (by simp)
  · exact .sets htarget rfl (Or.inl rfl) (Or.inl rfl) (fun h => by cases h) (by simp) (by simp)

theorem installerStep_spec {ok : Bool} (h : s.installerStep ok = some t) :
    InstallerStep s t ok := by
  cases hinstaller : s.installer <;> simp only [State.installerStep, hinstaller, reduceCtorEq] at h
  case starting =>
    have hlisted : s.installer.hasListed = true := by rw [hinstaller]; rfl
    split_ifs at h with hnil hok <;> obtain rfl := Option.some.inj h
    · exact .goes (fun _ => hlisted) (fun h => by cases h) (by simp) (by simp)
    · exact .goes (fun _ => hlisted) (fun _ => Or.inr hnil) (by simp) (by simp)
    · exact .goes (fun h => by cases h) (fun h => by cases h) (by simp) (by simp)
  case sending k =>
    cases htarget : s.targets[k]? with
    | none =>
      rw [htarget] at h
      obtain rfl := Option.some.inj h
      exact .goes (fun _ => by rw [hinstaller]; rfl) (fun _ => Or.inl (by rw [hinstaller]; rfl))
        (by simp) (by simp)
    | some target =>
      rw [htarget] at h
      obtain rfl := Option.some.inj h
      exact sendSignal_spec hinstaller htarget
  case unsent k =>
    obtain ⟨target, htarget, rfl⟩ := Option.map_eq_some_iff.1 h
    exact .sets htarget rfl (Or.inr (Or.inl hinstaller)) (Or.inl rfl)
      (fun _ => by rw [hinstaller]; rfl) (by simp) (by simp)
  case checking =>
    split_ifs at h <;> obtain rfl := Option.some.inj h <;>
      exact .goes (fun _ => by rw [hinstaller]; rfl) (fun _ => Or.inl (by rw [hinstaller]; rfl))
        (by simp) (by simp)
  case polling k =>
    have hlisted : s.installer.hasListed = true := by rw [hinstaller]; rfl
    have hholds : s.installer.holdsCount = true := by rw [hinstaller]; rfl
    cases htarget : s.targets[k]? with
    | none =>
      rw [htarget] at h
      obtain rfl := Option.some.inj h
      exact .goes (fun _ => hlisted) (fun _ => Or.inl hholds) (by simp) (by simp)
    | some target =>
      simp only [htarget] at h
      split_ifs at h with hpoll halive <;> obtain rfl := Option.some.inj h
      · exact .goes (fun _ => hlisted) (fun _ => Or.inl hholds) (by simp) (by simp)
      · -- the poll has found the thread gone
        refine .goes (fun _ => hlisted) (fun _ => Or.inl hholds) (by simp) fun i hi => ?_
        obtain rfl : k = i := by simpa using hi
        refine ⟨target, htarget, ?_⟩
        rintro ⟨task, htask, htrue⟩
        exact halive ((Option.any_eq_true _ _).2 ⟨task, htask, htrue⟩)
  case gone k =>
    obtain ⟨target, htarget, rfl⟩ := Option.map_eq_some_iff.1 h
    exact .sets htarget rfl (Or.inr (Or.inr hinstaller)) (Or.inl rfl)
      (fun _ => by rw [hinstaller]; rfl) (by simp) (by simp)
  case closing =>
    obtain rfl := Option.some.inj h
    exact .goes (fun _ => by rw [hinstaller]; rfl) (fun _ => Or.inl (by rw [hinstaller]; rfl))
      (by simp) (by simp)
  case unsharing =>
    obtain rfl := Option.some.inj h
    exact .goes (fun _ => by rw [hinstaller]; rfl) (fun h => by cases h) (by simp) (by simp)
  case resuming k =>
    cases htarget : s.targets[k]? with
    | none =>
      rw [htarget] at h
      obtain rfl := Option.some.inj h
      exact .goes (fun h => by cases h) (fun h => by cases h) (by simp) (by simp)
    | some target =>
      rw [htarget] at h
      exact resume_spec htarget h
  case dropping k =>
    cases htarget : s.targets[k]? with
    | none =>
      rw [htarget] at h
      obtain rfl := Option.some.inj h
      exact .goes (fun h => by cases h) (fun h => by cases h) (by simp) (by simp)
    | some target =>
      rw [htarget] at h
      obtain rfl := Option.some.inj h
      exact dropThread_spec htarget

theorem installerStep_covers (hs : s.Covers) {ok : Bool} (ha : LosesNoThread s (.installer ok))
    (h : s.installerStep ok = some t) : t.Covers := by
  have hstep := installerStep_spec h
  have halive : ∀ tid, IsAlive t.tasks tid → IsAlive s.tasks tid := fun _ => hstep.tasks ▸ id
  have hfollows : Follows s t := by
    rcases hstep.targets with htargets | ⟨k, target, target', htarget, htargets, htid, hlive, -⟩
    · exact .of_targets halive htargets
    · exact .of_set halive htarget htargets htid
        (hlive.imp_right fun hinstaller => hs.dead k target hinstaller htarget)
  refine hfollows.covers hs hstep.listed fun k target hinstaller htarget => ?_
  rcases hinstaller with hinstaller | hinstaller
  · -- only a thread that is gone refuses its signal
    obtain ⟨hsending, rfl⟩ := hstep.unsent k hinstaller
    simp only [LosesNoThread, hsending] at ha
    exact ha target htarget
  · obtain ⟨other, hother, hgone⟩ := hstep.gone k hinstaller
    obtain rfl := Option.some.inj (hother.symm.trans htarget)
    exact hgone

theorem step_covers (hinv : s.Inv) (hs : s.Covers) (ha : LosesNoThread s a)
    (h : s.step a = some t) : t.Covers := by
  cases a with
  | execute tid ip inHeap =>
    obtain ⟨hfollows, hinstaller⟩ := execute_follows h
    exact hfollows.covers_of_eq hs hinstaller
  | create parent reused ip =>
    exact State.covers_of_not_listed ((create_unchanged h).1 ▸ ha)
  | exit tid =>
    obtain ⟨hfollows, hinstaller⟩ := exit_follows h
    exact hfollows.covers_of_eq hs hinstaller
  | deliver k =>
    obtain ⟨target, htarget, h⟩ := Option.bind_eq_some_iff.1 h
    obtain ⟨hfollows, hinstaller⟩ := deliver_follows htarget h
    exact hfollows.covers_of_eq hs hinstaller
  | handler k =>
    obtain ⟨target, htarget, h⟩ := Option.bind_eq_some_iff.1 h
    obtain ⟨hfollows, hinstaller⟩ := handler_follows htarget h
    exact hfollows.covers_of_eq hs hinstaller
  | noDir =>
    simp only [State.step, Option.ite_none_right_eq_some, Option.some.injEq] at h
    obtain ⟨-, rfl⟩ := h
    exact State.covers_of_not_listed rfl
  | entry tid =>
    simp only [State.step, Option.ite_none_right_eq_some, Option.some.injEq] at h
    obtain ⟨⟨hlisting, -⟩, rfl⟩ := h
    refine State.covers_of_not_listed ?_
    unfold State.entry
    split_ifs <;> exact hlisting ▸ rfl
  | endOfDir =>
    simp only [State.step, Option.ite_none_right_eq_some, Option.some.injEq] at h
    obtain ⟨hlisting, rfl⟩ := h
    refine ⟨fun _ tid halive => ?_, by simp⟩
    obtain ⟨task, htask, -⟩ := id halive
    obtain ⟨target, hmem, htid⟩ := ha tid (List.getElem?_eq_some_iff.1 htask).1 halive
    obtain ⟨k, htarget⟩ := List.getElem?_of_mem hmem
    have hok := hinv.ok k target htarget
    rw [hlisting] at hok
    exact ⟨k, target, htarget, htid, hok.eq_new.1⟩
  | installer ok => exact installerStep_covers hs ha h
  | setIp k =>
    simp only [State.step, Option.ite_none_right_eq_some, Option.bind_eq_some_iff] at h
    obtain ⟨hsuspended, target, -, h⟩ := h
    unfold State.setIp at h
    split_ifs at h <;> obtain rfl := Option.some.inj h
    · have hfollows : Follows s { s with installer := .setting k } := .of_targets (fun _ => id) rfl
      exact hfollows.covers hs (fun _ => by rw [hsuspended]; rfl) (by simp)
    · exact hs
  | storeIp ip =>
    cases hinstaller : s.installer <;> simp only [State.step, hinstaller, reduceCtorEq] at h
    case setting k =>
      obtain ⟨target, htarget, rfl⟩ := Option.map_eq_some_iff.1 h
      have hfollows : Follows s (s.storeIp k target ip) :=
        .of_set (fun _ => id) htarget rfl rfl (Or.inl rfl)
      exact hfollows.covers hs (fun _ => by rw [hinstaller]; rfl)
        (by simp [State.storeIp, State.setTarget])
  | drop =>
    simp only [State.step, Option.ite_none_right_eq_some, Option.some.injEq] at h
    obtain ⟨-, rfl⟩ := h
    exact State.covers_of_not_listed rfl

end Steps

/-! ## Runs -/

section Runs

variable {s u : State} {capacity : ℕ} {tasks : List Task} {actions : List Action}

theorem State.Covers.stopsOthers (hs : s.Covers) (hinv : s.Inv) : s.StopsOthers where
  stopped hreturned tid halive := by
    obtain ⟨hlisted, hwaited, hresumed⟩ := Installer.of_hasReturned hreturned
    obtain ⟨k, target, htarget, rfl, hlive⟩ := hs.listed hlisted tid halive
    obtain ⟨hstopped, hruns⟩ := (hinv.sound.stays hwaited k target htarget hlive).2 (hresumed k)
    exact ⟨hruns, k, target, htarget, rfl, hlive, hstopped⟩
  stays hwaited k target htarget hlive := (hinv.sound.stays hwaited k target htarget hlive).2

/-- In every run that loses no thread, whatever else the threads, the signals and the kernel do. -/
theorem stopsOthers_of_run
    (hrun : Transition.run State.step (.init capacity tasks) actions = some u)
    (hmeets : Transition.Meets State.step LosesNoThread (.init capacity tasks) actions) :
    u.StopsOthers := by
  have hcovers : (State.init capacity tasks).Covers := State.covers_of_not_listed rfl
  have hinv : u.Inv ∧ u.Covers :=
    Transition.run_invariant (I := fun s : State => s.Inv ∧ s.Covers)
      (fun s a t hs ha h => ⟨step_inv hs.1 h, step_covers hs.1 hs.2 ha h⟩)
      ⟨inv_init capacity tasks, hcovers⟩ hmeets hrun
  exact hinv.2.stopsOthers hinv.1

end Runs

/-- Thread 0 is alive, and its signal is refused. -/
def refuseSignal : List Action :=
  [.entry 0, .endOfDir, .installer true, .installer false, .installer true, .installer true,
    .installer true, .installer true, .installer true]

/-- `suspend_other_threads` returns `Ok`, and thread 0 runs. -/
theorem not_stopsOthers_refused : ∃ u,
    Transition.run State.step (.init 8 [⟨true, 0x10, false⟩]) refuseSignal = some u ∧
      u.installer = .suspended ∧ u.Runs 0 ∧ ¬u.StopsOthers := by
  refine ⟨_, rfl, rfl, by decide, fun h => ?_⟩
  exact (h.stopped rfl 0 ⟨_, rfl, rfl⟩).1 (by decide)

/-- The run up to the drop of the guard. -/
def stopThread : List Action :=
  moveThread.take 25

/-- Thread 1 exits before its signal is delivered, and thread 0 is stopped. -/
theorem stopsOthers_stopThread : ∃ u,
    Transition.run State.step (.init 8 [⟨true, 0x10, false⟩, ⟨true, 0x20, false⟩]) stopThread =
      some u ∧ u.installer = .suspended ∧ IsAlive u.tasks 0 ∧ u.StopsOthers := by
  have hrun : Transition.run State.step (.init 8 [⟨true, 0x10, false⟩, ⟨true, 0x20, false⟩])
    stopThread = some _ := rfl
  exact ⟨_, hrun, rfl, ⟨_, rfl, rfl⟩, stopsOthers_of_run hrun (by decide)⟩

end Suspend

end Diversion
