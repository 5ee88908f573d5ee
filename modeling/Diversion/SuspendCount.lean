import Diversion.SuspendInv

/-!
# Counting the suspended threads off

`suspend_count` is how the handlers tell the installer that their threads have stopped. In every
state of every run it is the number of targets that were neither counted off by their handler nor
written off, no target is counted off twice, and once it is zero every target that was not written
off stays in its handler until it is resumed, at the instruction pointer in its channel
(`suspension_sound`).
-/

namespace Diversion

namespace Suspend

namespace Installer

/-- The wait loop has ended. -/
def hasWaited : Installer → Bool
  | .closing | .unsharing | .suspended | .setting _ | .resuming _ | .dropping _ | .done => true
  | _ => false

/-- `Thread::resume` was called. -/
def hasResumed (k : ℕ) : Installer → Bool
  | .resuming i => k < i
  | .dropping _ | .done => true
  | _ => false

variable {i : Installer} {k : ℕ}

/-- The wait loop has ended for all targets alike. -/
theorem stage_of_hasWaited (h : i.hasWaited = true) :
    i.stage k = .waited ∧ i.hasResumed k = false ∨
      (i.stage k).isResumed = true ∧ i.hasResumed k = true := by
  cases i <;> simp only [hasWaited, Bool.false_eq_true] at h <;> simp only [stage, hasResumed]
  case resuming j => by_cases hk : k < j <;> simp [hk, Stage.isResumed]
  case dropping j => by_cases hk : k < j <;> simp [hk, Stage.isResumed]
  all_goals simp [Stage.isResumed]

end Installer

/-- What the installer and the handlers rely on. -/
structure State.Sound (s : State) : Prop where
  /-- `suspend_count` is the number of targets that are neither counted off nor written off. -/
  count : s.installer.isStarted = true → s.suspendCount = s.targets.countP Target.isUncounted
  noUnderflow : ∀ a t, s.step a = some t → countsOff s a ≠ [] → 0 < s.suspendCount
  /-- Both upgrades of the handler succeed. -/
  upgrades : ∀ target ∈ s.targets, target.phase ≠ .panicked
  stays : s.installer.hasWaited = true → ∀ (k : ℕ) (target : Target),
    s.targets[k]? = some target → target.live = true → target.phase.isUncounted = false ∧
      (s.installer.hasResumed k = false → target.phase.isStopped = true ∧ ¬s.Runs target.tid)
  /-- A thread continues at the instruction pointer stored last. -/
  continues : ∀ (k : ℕ) (target : Target) t, s.targets[k]? = some target →
    target.phase = .returning → s.step (.handler k) = some t →
      (t.tasks[target.tid]?).map Task.ip = some target.channel.value

section Sound

variable {s t u : State} {a : Action} {stage : Stage} {target : Target} {l : List ℕ}
  {capacity : ℕ} {tasks : List Task} {actions : List Action}

theorem Target.Ok.ne_panicked (h : target.Ok stage) : target.phase ≠ .panicked := by
  rintro hphase
  have hallows := h.allows (by rw [hphase]; rfl)
  rw [hphase] at hallows
  cases stage <;> exact absurd hallows (by decide)

theorem Target.Ok.stays (h : target.Ok stage) (hlive : target.live = true)
    (hwaited : stage = .waited ∨ stage.isResumed = true) :
    target.phase.isUncounted = false ∧ (stage = .waited → target.phase.isStopped = true) := by
  have hallows := h.phase hlive
  rcases hwaited with rfl | hresumed
  · refine ⟨?_, fun _ => hallows⟩
    cases hphase : target.phase <;> rw [hphase] at hallows <;>
      first | rfl | exact absurd hallows (by decide)
  · refine ⟨?_, fun hwaited => by rw [hwaited] at hresumed; exact absurd hresumed (by decide)⟩
    cases stage <;> first | exact absurd hresumed (by decide) | skip
    all_goals
      cases hphase : target.phase <;> rw [hphase] at hallows <;>
        first | rfl | exact absurd hallows (by decide)

theorem Phase.inHandler_of_isStopped {phase : Phase} (h : phase.isStopped = true) :
    phase.inHandler = true := by
  cases phase <;> first | rfl | exact absurd h (by decide)

theorem State.Inv.noUnderflow (hs : s.Inv) (h : s.step a = some t) (hoff : countsOff s a ≠ []) :
    0 < s.suspendCount := by
  rcases step_cases hs h with ⟨k, target, target', off, htarget, hmoves, heq⟩ | ⟨-, heq⟩
  · cases off with
    | false => exact absurd heq hoff
    | true => exact hs.suspendCount_pos hmoves.isStarted.1 htarget (hmoves.isUncounted rfl)
  · exact absurd heq hoff

theorem State.Inv.continues (hs : s.Inv) {k : ℕ} (htarget : s.targets[k]? = some target)
    (hphase : target.phase = .returning) (h : s.step (.handler k) = some t) :
    (t.tasks[target.tid]?).map Task.ip = some target.channel.value := by
  obtain ⟨task, htask, -⟩ :=
    hs.alive target (List.mem_of_getElem? htarget) (by rw [hphase]; rfl)
  have hip := (hs.ok k target htarget).ip (by rw [hphase]; rfl)
  rw [State.step, htarget, Option.bind_some, State.handler, hphase] at h
  obtain rfl := Option.some.inj h
  change ((s.tasks.modify target.tid fun task => { task with ip := target.ip })[target.tid]?).map
    Task.ip = _
  rw [List.getElem?_modify, htask, ← hip]
  simp

theorem State.Inv.sound (hs : s.Inv) : s.Sound where
  count := hs.count
  noUnderflow _ _ := hs.noUnderflow
  upgrades target hmem := by
    obtain ⟨k, hk⟩ := List.getElem?_of_mem hmem
    exact (hs.ok k target hk).ne_panicked
  stays hwaited k target htarget hlive := by
    have hok := hs.ok k target htarget
    rcases Installer.stage_of_hasWaited (k := k) hwaited with ⟨hstage, -⟩ | ⟨hstage, hresumed⟩
    · obtain ⟨hcounted, hstopped⟩ := hok.stays hlive (Or.inl hstage)
      refine ⟨hcounted, fun _ => ⟨hstopped hstage, fun hruns => hruns.2 ?_⟩⟩
      exact isInterrupted_of_mem (List.mem_of_getElem? htarget)
        (Phase.inHandler_of_isStopped (hstopped hstage))
    · refine ⟨(hok.stays hlive (Or.inr hstage)).1, fun hne => ?_⟩
      exact absurd (hresumed.symm.trans hne) (by decide)
  continues _ _ _ := hs.continues

/-! ## No target is counted off twice -/

/-- The targets counted off so far. -/
structure Tracks (l : List ℕ) (s : State) : Prop where
  inv : s.Inv
  nodup : l.Nodup
  counted : ∀ k ∈ l, ∃ target : Target, s.targets[k]? = some target ∧ target.isUncounted = false
  listing : s.installer = .listing → l = []

theorem step_tracks (hs : Tracks l s) (h : s.step a = some t) :
    Tracks (l ++ countsOff s a) t := by
  obtain ⟨hinv, hnodup, hcounted, hlisting⟩ := hs
  rcases step_cases hinv h with ⟨k, target, target', off, htarget, hmoves, heq⟩ | ⟨hkeeps, heq⟩
  · have hkeep : ∀ i ∈ l, i ≠ k ∨ target.isUncounted = false := by
      intro i hi
      by_cases hik : i = k
      · subst hik
        obtain ⟨other, hother, hfalse⟩ := hcounted i hi
        obtain rfl := Option.some.inj (htarget.symm.trans hother)
        exact Or.inr hfalse
      · exact Or.inl hik
    have hset : t.targets[k]? = some target' := by
      rw [hmoves.targets, Pool.getElem?_set_of_getElem? htarget]
    have hrest : ∀ i ∈ l, ∃ target : Target, t.targets[i]? = some target ∧
        target.isUncounted = false := by
      intro i hi
      obtain ⟨other, hother, hfalse⟩ := hcounted i hi
      by_cases hik : i = k
      · subst hik
        obtain rfl := Option.some.inj (htarget.symm.trans hother)
        exact ⟨target', hset, by rw [hmoves.counted, hfalse, Bool.false_and]⟩
      · exact ⟨other, by rw [hmoves.targets, List.getElem?_set_ne (Ne.symm hik), hother], hfalse⟩
    have hstarted : t.installer ≠ .listing := by
      rintro hinstaller
      have := hmoves.isStarted.2
      rw [hinstaller] at this
      exact absurd this (by decide)
    rw [heq]
    cases off with
    | false =>
      rw [if_neg Bool.false_ne_true, List.append_nil]
      exact ⟨hinv.moves htarget hmoves, hnodup, hrest, fun h => absurd h hstarted⟩
    | true =>
      have huncounted := hmoves.isUncounted rfl
      rw [if_pos rfl]
      refine ⟨hinv.moves htarget hmoves, ?_, fun i hi => ?_, fun h => absurd h hstarted⟩
      · refine List.nodup_append.2 ⟨hnodup, by simp, fun i hi j hj hij => ?_⟩
        rcases hkeep i hi with hne | hfalse
        · exact hne (hij.trans (List.mem_singleton.1 hj))
        · exact absurd (huncounted.symm.trans hfalse) (by decide)
      · rcases List.mem_append.1 hi with hi | hi
        · exact hrest i hi
        · obtain rfl := List.mem_singleton.1 hi
          exact ⟨target', hset, by rw [hmoves.counted, Bool.not_true, Bool.and_false]⟩
  · rw [heq, List.append_nil]
    refine ⟨hkeeps.inv, hnodup, fun k hk => ?_, fun h => hlisting (hkeeps.listing h)⟩
    rcases hkeeps.counted with hl | hkeep
    · rw [hlisting hl] at hk
      cases hk
    · obtain ⟨target, htarget, hfalse⟩ := hcounted k hk
      obtain ⟨target', htarget', heq'⟩ := hkeep k target htarget
      exact ⟨target', htarget', heq'.trans hfalse⟩

theorem tracks_init : Tracks [] (.init capacity tasks) :=
  ⟨inv_init capacity tasks, List.nodup_nil, by simp, fun _ => rfl⟩

/-- Whatever the threads, the signals and the kernel do. -/
theorem suspension_sound
    (hrun : Transition.run State.step (.init capacity tasks) actions = some u) :
    u.Sound ∧ (Transition.trace State.step countsOff (.init capacity tasks) actions).Nodup := by
  have htracks := Transition.run_trace (fun l s a t hs h => step_tracks hs h) tracks_init hrun
  rw [List.nil_append] at htracks
  exact ⟨htracks.inv.sound, htracks.nodup⟩

end Sound

/-- Thread 1 exits before its signal is delivered, thread 0 is moved from 0x10 to 0x30. -/
def moveThread : List Action :=
  [.entry 0, .entry 1, .endOfDir, .installer true, .installer true, .exit 1, .installer true,
    .deliver 1, .handler 1, .handler 1, .handler 1, .installer true, .installer true,
    .installer false, .installer true, .installer true, .installer true, .installer true,
    .installer true, .installer true, .handler 1, .handler 1, .handler 1, .setIp 1,
    .storeIp (some 0x30), .drop, .installer true, .installer true, .handler 1, .handler 1,
    .handler 1, .handler 1, .handler 1, .handler 1]

theorem suspension_sound_moveThread : ∃ u,
    Transition.run State.step (.init 8 [⟨true, 0x10, false⟩, ⟨true, 0x20, false⟩]) moveThread =
      some u ∧ u.tasks = [⟨true, 0x30, false⟩, ⟨false, 0x20, false⟩] ∧ u.Sound ∧
    (Transition.trace State.step countsOff (.init 8 [⟨true, 0x10, false⟩, ⟨true, 0x20, false⟩])
      moveThread).Nodup :=
  ⟨_, rfl, rfl, suspension_sound rfl⟩

end Suspend

end Diversion
