import Diversion.Lib.Pool
import Diversion.SuspendStage

/-!
# The invariant of a suspension

`State.Inv` ties the shared counter to the targets that are not counted off, and the reference
counts to the references there are. A step either changes one target (`Moves`) or counts none off
(`Keeps`), which `step_cases` says of every step of a thread, a handler or the installer.
-/

namespace Diversion

namespace Suspend

/-- The thread is there. -/
def IsAlive (tasks : List Task) (tid : ℕ) : Prop :=
  ∃ task, tasks[tid]? = some task ∧ task.alive = true

section IsAlive

variable {tasks : List Task} {task : Task} {tid i : ℕ}

/-- A change that keeps the thread. -/
theorem IsAlive.modify {f : Task → Task} (h : IsAlive tasks tid)
    (hf : ∀ task, (f task).alive = task.alive) : IsAlive (tasks.modify i f) tid := by
  obtain ⟨task, htask, halive⟩ := h
  refine ⟨_, by rw [List.getElem?_modify, htask]; rfl, ?_⟩
  split_ifs
  · exact (hf task).trans halive
  · exact halive

/-- A change of another thread. -/
theorem IsAlive.modify_of_ne {f : Task → Task} (h : IsAlive tasks tid) (hi : i ≠ tid) :
    IsAlive (tasks.modify i f) tid := by
  obtain ⟨task, htask, halive⟩ := h
  refine ⟨task, ?_, halive⟩
  rw [List.getElem?_modify, htask]
  exact congrArg some (if_neg hi)

/-- A new state of a thread that is there. -/
theorem IsAlive.set (h : IsAlive tasks tid) (halive : task.alive = true) :
    IsAlive (tasks.set i task) tid := by
  obtain ⟨task', htask, halive'⟩ := h
  by_cases hi : i = tid
  · subst hi
    exact ⟨task, Pool.getElem?_set_of_getElem? htask, halive⟩
  · exact ⟨task', by rwa [List.getElem?_set_ne hi], halive'⟩

theorem IsAlive.append (h : IsAlive tasks tid) : IsAlive (tasks ++ [task]) tid := by
  obtain ⟨task', htask, halive⟩ := h
  exact ⟨task', Pool.getElem?_append_of_getElem? htask, halive⟩

end IsAlive

/-- The invariant of the suspension : where each target stands, what `suspend_count` counts, and
who holds a reference to it. -/
structure State.Inv (s : State) : Prop where
  ok : ∀ (k : ℕ) (target : Target), s.targets[k]? = some target → target.Ok (s.installer.stage k)
  alive : ∀ target ∈ s.targets, target.phase.isActive = true → IsAlive s.tasks target.tid
  isSuspending : s.isSuspending = s.installer.isSuspending
  count : s.installer.isStarted = true → s.suspendCount = s.targets.countP Target.isUncounted
  idle : s.installer.isStarted = false → s.suspendCount = 0
  refs : s.countRefs.Backs (s.installer.holdsCount.toNat + s.targets.countP Target.holdsCount)
    (s.targets.countP Target.shared)
  sane : s.installer ≠ .panicked

/-- A step that changes one target, and counts it off if `off`. -/
structure Moves (s t : State) (k : ℕ) (target target' : Target) (off : Bool) : Prop where
  targets : t.targets = s.targets.set k target'
  tid : target'.tid = target.tid
  tasks : ∀ tid, IsAlive s.tasks tid → IsAlive t.tasks tid
  alive : target'.phase.isActive = true → target.phase.isActive = true ∨ IsAlive s.tasks target.tid
  ok : target'.Ok (t.installer.stage k)
  stage : ∀ i ≠ k, t.installer.stage i = s.installer.stage i
  isSuspending : t.isSuspending = t.installer.isSuspending
  isStarted : s.installer.isStarted = true ∧ t.installer.isStarted = true
  holdsCount : t.installer.holdsCount = s.installer.holdsCount
  isUncounted : off = true → target.isUncounted = true
  counted : target'.isUncounted = (target.isUncounted && !off)
  count : t.suspendCount = if off then fetchSub s.suspendCount else s.suspendCount
  refs : ∀ arcs weaks,
    s.countRefs.Backs (arcs + target.holdsCount.toNat) (weaks + target.shared.toNat) →
      t.countRefs.Backs (arcs + target'.holdsCount.toNat) (weaks + target'.shared.toNat)
  sane : t.installer ≠ .panicked

/-- A target that is not counted off keeps the count above zero. -/
theorem State.Inv.suspendCount_pos {s : State} {k : ℕ} {target : Target} (hs : s.Inv)
    (hstarted : s.installer.isStarted = true) (htarget : s.targets[k]? = some target)
    (huncounted : target.isUncounted = true) : 0 < s.suspendCount := by
  rw [hs.count hstarted]
  exact Pool.countP_pos_of_getElem? htarget huncounted

/-- The invariant is kept by a step of one target. -/
theorem State.Inv.moves {s t : State} {k : ℕ} {target target' : Target} {off : Bool} (hs : s.Inv)
    (htarget : s.targets[k]? = some target) (h : Moves s t k target target' off) : t.Inv where
  ok i other hi := by
    rw [h.targets] at hi
    rcases Pool.mem_of_getElem?_set hi with ⟨rfl, rfl⟩ | ⟨hne, hi⟩
    · exact h.ok
    · rw [h.stage i hne.symm]
      exact hs.ok i other hi
  alive other hmem hactive := by
    rw [h.targets] at hmem
    obtain ⟨i, hi⟩ := List.getElem?_of_mem hmem
    rcases Pool.mem_of_getElem?_set hi with ⟨rfl, rfl⟩ | ⟨-, hi⟩
    · rw [h.tid]
      rcases h.alive hactive with hactive | halive
      · exact h.tasks _ (hs.alive target (List.mem_of_getElem? htarget) hactive)
      · exact h.tasks _ halive
    · exact h.tasks _ (hs.alive other (List.mem_of_getElem? hi) hactive)
  isSuspending := h.isSuspending
  count _ := by
    have hpos := hs.suspendCount_pos h.isStarted.1 htarget
    have hcount := h.count
    obtain ⟨n, hn, hset⟩ := Pool.exists_countP_set (p := Target.isUncounted) target' htarget
    rw [← hs.count h.isStarted.1] at hn
    rw [h.targets, hset, h.counted]
    cases off with
    | false => simpa using hcount.trans hn
    | true =>
      have huncounted := h.isUncounted rfl
      have := hpos huncounted
      rw [if_pos rfl, fetchSub, if_neg (by omega)] at hcount
      rw [huncounted, Bool.toNat_true] at hn
      rw [huncounted, hcount, hn]
      rfl
  idle hidle := absurd (h.isStarted.2.symm.trans hidle) (by decide)
  refs := by
    obtain ⟨arcs, harcs, harcs'⟩ := Pool.exists_countP_set (p := Target.holdsCount) target' htarget
    obtain ⟨weaks, hweaks, hweaks'⟩ := Pool.exists_countP_set (p := Target.shared) target' htarget
    have hrefs := hs.refs
    rw [harcs, hweaks, ← Nat.add_assoc] at hrefs
    rw [h.targets, harcs', hweaks', h.holdsCount, ← Nat.add_assoc]
    exact h.refs _ _ hrefs
  sane := h.sane

/-- A step that counts no target off. -/
structure Keeps (s t : State) : Prop where
  inv : t.Inv
  counted : s.installer = .listing ∨ ∀ (k : ℕ) (target : Target), s.targets[k]? = some target →
    ∃ target' : Target, t.targets[k]? = some target' ∧ target'.isUncounted = target.isUncounted
  listing : t.installer = .listing → s.installer = .listing

/-- Nothing is counted off by doing nothing. -/
theorem Keeps.refl {s : State} (hs : s.Inv) : Keeps s s where
  inv := hs
  counted := Or.inr fun _ target htarget => ⟨target, htarget, rfl⟩
  listing h := h

/-- The targets that a step takes off `suspend_count`. -/
def countsOff (s : State) : Action → List ℕ
  | .handler k => if ∃ target ∈ s.targets[k]?, target.phase = .counting then [k] else []
  | .installer _ =>
    match s.installer with
    | .unsent k | .gone k => [k]
    | _ => []
  | _ => []

/-! ## The handler -/

namespace Installer

variable {i : Installer} {k : ℕ}

/-- A target that was reached was reached by a suspension. -/
theorem isStarted_of_stage (h : i.stage k ≠ .before) : i.isStarted = true := by
  cases i <;> first | rfl | exact absurd rfl h

/-- While the installer waits it suspends, and it holds the count. -/
theorem of_stage_sent (h : i.stage k = .sent) : i.isSuspending = true ∧ i.holdsCount = true := by
  cases i <;> simp only [stage, reduceCtorEq] at h <;> first | exact ⟨rfl, rfl⟩ | split_ifs at h

/-! What one more target does to the stages of the others. -/

section Stage

variable {j : ℕ}

@[simp] theorem stage_sending : (sending k).stage k = .before := by
  simp [stage]

@[simp] theorem stage_sending_succ : (sending (k + 1)).stage k = .sent := by
  simp [stage]

@[simp] theorem stage_unsent : (unsent k).stage k = .failing := by
  simp [stage]

@[simp] theorem stage_gone : (gone k).stage k = .gone := by
  simp [stage]

@[simp] theorem stage_resuming : (resuming k).stage k = .waited := by
  simp [stage]

@[simp] theorem stage_resuming_succ : (resuming (k + 1)).stage k = .resumed := by
  simp [stage]

@[simp] theorem stage_dropping : (dropping k).stage k = .resumed := by
  simp [stage]

@[simp] theorem stage_dropping_succ : (dropping (k + 1)).stage k = .dropped := by
  simp [stage]

variable (h : j ≠ k)
include h

theorem stage_sending_of_ne : (sending (k + 1)).stage j = (sending k).stage j := by
  have hiff : j < k + 1 ↔ j < k := by omega
  simp only [stage, hiff]

theorem stage_unsent_of_ne : (unsent k).stage j = (sending k).stage j := by
  simp only [stage, if_neg h]

theorem stage_gone_of_ne : (gone k).stage j = .sent := by
  simp only [stage, if_neg h]

theorem stage_resuming_of_ne : (resuming (k + 1)).stage j = (resuming k).stage j := by
  have hiff : j < k + 1 ↔ j < k := by omega
  simp only [stage, hiff]

theorem stage_dropping_of_ne : (dropping (k + 1)).stage j = (dropping k).stage j := by
  have hiff : j < k + 1 ↔ j < k := by omega
  simp only [stage, hiff]

end Stage

end Installer

section Handler

variable {s t : State} {k : ℕ} {target target' : Target} {stage : Stage}

/-- A step of a handler leaves the installer alone. -/
theorem State.Inv.handlerMoves {tasks : List Task} {suspendCount : ℕ} {countRefs : RefCount}
    {off : Bool} (hs : s.Inv) (hstage : s.installer.stage k ≠ .before)
    (hactive : target.phase.isActive = true) (htid : target'.tid = target.tid)
    (htasks : ∀ tid, IsAlive s.tasks tid → IsAlive tasks tid)
    (hok : target'.Ok (s.installer.stage k)) (huncounted : off = true → target.isUncounted = true)
    (hcounted : target'.isUncounted = (target.isUncounted && !off))
    (hcount : suspendCount = if off then fetchSub s.suspendCount else s.suspendCount)
    (hrefs : ∀ arcs weaks,
      s.countRefs.Backs (arcs + target.holdsCount.toNat) (weaks + target.shared.toNat) →
        countRefs.Backs (arcs + target'.holdsCount.toNat) (weaks + target'.shared.toNat)) :
    Moves s ({ s with tasks, suspendCount, countRefs }.setTarget k target') k target target' off := by
  have hstarted := Installer.isStarted_of_stage hstage
  exact ⟨rfl, htid, htasks, fun _ => Or.inl hactive, hok, fun _ _ => rfl, hs.isSuspending,
    ⟨hstarted, hstarted⟩, rfl, huncounted, hcounted, hcount, hrefs, hs.sane⟩

/-- A step in a handler that neither counts nor drops. -/
theorem State.Inv.handlerKeeps (hs : s.Inv) (hstage : s.installer.stage k ≠ .before)
    (hactive : target.phase.isActive = true) (htid : target'.tid = target.tid)
    (hok : target'.Ok (s.installer.stage k))
    (hcounted : target'.isUncounted = target.isUncounted)
    (hholds : target'.holdsCount = target.holdsCount) (hshared : target'.shared = target.shared) :
    Moves s (s.setTarget k target') k target target' false :=
  hs.handlerMoves hstage hactive htid (fun _ h => h) hok nofun (by simpa using hcounted) rfl
    fun arcs weaks hrefs => by rwa [hholds, hshared]

/-- The steps of the handler, of which `counting` counts its target off. -/
theorem handler_moves (hs : s.Inv) (htarget : s.targets[k]? = some target)
    (h : s.handler k target = some t) :
    ∃ target', Moves s t k target target' (target.phase = .counting) := by
  have hok := hs.ok k target htarget
  obtain ⟨tid, live, channel, channelRefs, payload, shared, phase, ip⟩ := target
  cases phase <;> simp only [State.handler, reduceCtorEq] at h
  case delivered =>
    have hsent := Stage.eq_sent_of_allows (hok.allows rfl) rfl rfl
    rw [hs.isSuspending, (Installer.of_stage_sent hsent).1, if_pos rfl] at h
    obtain rfl := Option.some.inj h
    exact ⟨_, hs.handlerKeeps (hok.stage_ne nofun) rfl rfl
      (hok.next rfl rfl (by rw [hsent]; rfl) rfl hok.send nofun (hok.backs rfl)) rfl rfl rfl⟩
  case entered =>
    have hsent := Stage.eq_sent_of_allows (hok.allows rfl) rfl rfl
    have hholds := (Installer.of_stage_sent hsent).2
    obtain ⟨countRefs, hupgrade⟩ := hs.refs.exists_upgrade (by rw [hholds, Bool.toNat_true]; omega)
    obtain rfl : shared = true := hok.shared_eq rfl
    rw [if_pos rfl, hupgrade] at h
    obtain rfl := Option.some.inj h
    exact ⟨_, hs.handlerMoves (hok.stage_ne nofun) rfl rfl (fun _ h => h)
      (hok.next rfl rfl (by rw [hsent]; rfl) rfl hok.send nofun (hok.backs rfl)) nofun
      (Bool.and_true _).symm rfl fun _ _ hrefs => hrefs.of_upgrade hupgrade⟩
  case counting =>
    have hsent := Stage.eq_sent_of_allows (hok.allows rfl) rfl rfl
    obtain rfl := Option.some.inj h
    obtain rfl : live = true := hok.live_eq rfl
    exact ⟨_, hs.handlerMoves (hok.stage_ne nofun) rfl rfl (fun _ h => h)
      (hok.next rfl rfl (by rw [hsent]; rfl) rfl hok.send nofun (hok.backs rfl)) (fun _ => rfl) rfl
      rfl fun _ _ h => h⟩
  case opening =>
    have hne := Stage.ne_dropped_of_allows (hok.allows rfl) rfl
    obtain ⟨channelRefs', hupgrade⟩ := (hok.backs rfl).exists_upgrade
      (Nat.add_pos_left (by rw [decide_eq_true hne]; exact Nat.one_pos) _)
    rw [hupgrade] at h
    obtain rfl := Option.some.inj h
    exact ⟨_, hs.handlerKeeps (hok.stage_ne nofun) rfl rfl
      (hok.next rfl rfl (Stage.allows_stopped (hok.allows rfl) rfl rfl nofun) rfl hok.send nofun
        ((hok.backs rfl).of_upgrade hupgrade)) rfl rfl rfl⟩
  case storing =>
    obtain rfl := Option.some.inj h
    exact ⟨_, hs.handlerKeeps (hok.stage_ne nofun) rfl rfl
      (hok.next rfl rfl (Stage.allows_stopped (hok.allows rfl) rfl rfl nofun) rfl hok.send nofun
        (hok.backs rfl)) rfl rfl rfl⟩
  case notifying =>
    obtain rfl := Option.some.inj h
    exact ⟨_, hs.handlerKeeps (hok.stage_ne nofun) rfl rfl
      (hok.next rfl rfl (Stage.allows_stopped (hok.allows rfl) rfl rfl nofun) rfl rfl nofun
        (hok.backs rfl)) rfl rfl rfl⟩
  case waiting =>
    split_ifs at h with hrecv
    obtain rfl := Option.some.inj h
    have hresumed : (s.installer.stage k).isResumed = true :=
      (Bool.and_eq_true _ _ ▸ hok.recv.symm.trans hrecv).2
    exact ⟨_, hs.handlerKeeps (hok.stage_ne nofun) rfl rfl
      (hok.next rfl rfl (Stage.allows_sent hresumed rfl) rfl hok.send nofun (hok.backs rfl))
      rfl rfl rfl⟩
  case loading =>
    obtain rfl := Option.some.inj h
    have hresumed := Stage.isResumed_of_allows (hok.allows rfl) rfl rfl
    exact ⟨_, hs.handlerKeeps (hok.stage_ne nofun) rfl rfl
      (hok.next rfl rfl (Stage.allows_sent hresumed rfl) rfl hok.send (fun _ => rfl)
        (hok.backs rfl)) rfl rfl rfl⟩
  case droppingChannel =>
    obtain rfl := Option.some.inj h
    have hresumed := Stage.isResumed_of_allows (hok.allows rfl) rfl rfl
    exact ⟨_, hs.handlerKeeps (hok.stage_ne nofun) rfl rfl
      (hok.next rfl rfl (Stage.allows_sent hresumed rfl) rfl hok.send hok.ip
        (hok.backs rfl).dropStrong) rfl rfl rfl⟩
  case droppingCount =>
    obtain rfl := Option.some.inj h
    have hresumed := Stage.isResumed_of_allows (hok.allows rfl) rfl rfl
    exact ⟨_, hs.handlerMoves (hok.stage_ne nofun) rfl rfl (fun _ h => h)
      (hok.next rfl rfl (Stage.allows_sent hresumed rfl) rfl hok.send hok.ip (hok.backs rfl))
      nofun (Bool.and_true _).symm rfl fun _ _ hrefs => hrefs.dropStrong⟩
  case droppingPayload =>
    obtain rfl := Option.some.inj h
    obtain rfl : shared = true := hok.shared_eq rfl
    exact ⟨_, hs.handlerMoves (hok.stage_ne nofun) rfl rfl (fun _ h => h) (hok.dropPayload rfl)
      nofun (Bool.and_true _).symm rfl fun _ _ hrefs => hrefs.dropWeak⟩
  case returning =>
    obtain rfl := Option.some.inj h
    exact ⟨_, hs.handlerMoves (hok.stage_ne nofun) rfl rfl (fun _ h => h.modify fun _ => rfl)
      (hok.leave rfl) nofun (Bool.and_true _).symm rfl fun _ _ h => h⟩

end Handler

/-! ## The installer -/

section Installer

variable {s t : State} {k : ℕ} {target target' : Target} {installer : Installer}

/-- A step of the installer with one target. -/
theorem State.Inv.installerMoves {suspendCount : ℕ} {countRefs : RefCount} {off : Bool}
    (hs : s.Inv) (htid : target'.tid = target.tid)
    (halive : target'.phase.isActive = true →
      target.phase.isActive = true ∨ IsAlive s.tasks target.tid)
    (hok : target'.Ok (installer.stage k))
    (hstage : ∀ i ≠ k, installer.stage i = s.installer.stage i)
    (hsuspending : installer.isSuspending = s.installer.isSuspending)
    (hstarted : s.installer.isStarted = true ∧ installer.isStarted = true)
    (hholds : installer.holdsCount = s.installer.holdsCount)
    (huncounted : off = true → target.isUncounted = true)
    (hcounted : target'.isUncounted = (target.isUncounted && !off))
    (hcount : suspendCount = if off then fetchSub s.suspendCount else s.suspendCount)
    (hrefs : ∀ arcs weaks,
      s.countRefs.Backs (arcs + target.holdsCount.toNat) (weaks + target.shared.toNat) →
        countRefs.Backs (arcs + target'.holdsCount.toNat) (weaks + target'.shared.toNat)) :
    Moves s ({ s with suspendCount, countRefs, installer }.setTarget k target') k target target'
      off :=
  ⟨rfl, htid, fun _ h => h, halive, hok, hstage, hs.isSuspending.trans hsuspending.symm, hstarted,
    hholds, huncounted, hcounted, hcount, hrefs, by
      rintro (hpanicked : installer = .panicked)
      rw [hpanicked] at hstarted
      exact absurd hstarted.2 (by decide)⟩

/-- `tgkill`, sent or not. -/
theorem sendSignal_moves (hs : s.Inv) (htarget : s.targets[k]? = some target)
    (hinstaller : s.installer = .sending k) (ok : Bool) :
    ∃ target', Moves s (s.sendSignal k target ok) k target target' false := by
  have hok := hs.ok k target htarget
  rw [hinstaller, Installer.stage_sending] at hok
  obtain ⟨tid, live, channel, channelRefs, payload, shared, phase, ip⟩ := target
  obtain ⟨rfl, rfl, rfl, rfl⟩ := hok.eq_new
  cases ok with
  | true =>
    cases halive : (s.tasks[tid]?).any Task.alive with
    | true =>
      simp only [State.sendSignal, if_true, halive]
      obtain ⟨task, htask, halive⟩ := (Option.any_eq_true _ _).1 halive
      refine ⟨_, hs.installerMoves rfl (fun _ => Or.inr ⟨task, htask, halive⟩) ?_
        (fun i hi => hinstaller ▸ Installer.stage_sending_of_ne hi) (hinstaller ▸ rfl)
        (hinstaller ▸ ⟨rfl, rfl⟩) (hinstaller ▸ rfl) nofun rfl rfl
        fun _ _ hrefs => hrefs.downgrade⟩
      rw [Installer.stage_sending_succ]
      exact hok.send_signal (Or.inl rfl)
    | false =>
      simp only [State.sendSignal, if_true, halive, Bool.false_eq_true, if_false]
      refine ⟨_, hs.installerMoves rfl nofun ?_
        (fun i hi => hinstaller ▸ Installer.stage_sending_of_ne hi) (hinstaller ▸ rfl)
        (hinstaller ▸ ⟨rfl, rfl⟩) (hinstaller ▸ rfl) nofun rfl rfl
        fun _ _ hrefs => hrefs.downgrade⟩
      rw [Installer.stage_sending_succ]
      exact hok.send_signal (Or.inr rfl)
  | false =>
    simp only [State.sendSignal, if_true, Bool.false_eq_true, if_false]
    refine ⟨_, hs.installerMoves rfl nofun ?_
      (fun i hi => hinstaller ▸ Installer.stage_unsent_of_ne hi) (hinstaller ▸ rfl)
      (hinstaller ▸ ⟨rfl, rfl⟩) (hinstaller ▸ rfl) nofun rfl rfl
      fun _ _ hrefs => hrefs.downgrade⟩
    rw [Installer.stage_unsent]
    exact hok.fail

/-- The installer drops its `Arc` of a target. -/
theorem dropThread_moves (hs : s.Inv) (htarget : s.targets[k]? = some target)
    (hinstaller : s.installer = .dropping k) :
    ∃ target', Moves s (s.dropThread k target) k target target' false := by
  have hok := hs.ok k target htarget
  rw [hinstaller, Installer.stage_dropping] at hok
  simp only [State.dropThread]
  split_ifs with hpayload
  · have hshared : target.shared = true := by
      rw [hok.shared, hpayload]
      rfl
    refine ⟨_, hs.installerMoves rfl Or.inl ?_
      (fun i hi => hinstaller ▸ Installer.stage_dropping_of_ne hi) (hinstaller ▸ rfl)
      (hinstaller ▸ ⟨rfl, rfl⟩) (hinstaller ▸ rfl) nofun (Bool.and_true _).symm rfl
      fun arcs weaks hrefs => ?_⟩
    · rw [Installer.stage_dropping_succ]
      exact hok.drop_payload hpayload
    · rw [hshared] at hrefs
      rw [State.dropPayload, if_pos hshared]
      exact hrefs.dropWeak
  · refine ⟨_, hs.installerMoves rfl Or.inl ?_
      (fun i hi => hinstaller ▸ Installer.stage_dropping_of_ne hi) (hinstaller ▸ rfl)
      (hinstaller ▸ ⟨rfl, rfl⟩) (hinstaller ▸ rfl) nofun (Bool.and_true _).symm rfl
      fun _ _ h => h⟩
    rw [Installer.stage_dropping_succ]
    exact hok.drop hpayload

/-- A step of the installer alone. -/
theorem State.Inv.installerKeeps {isSuspending : Bool} {suspendCount : ℕ} {countRefs : RefCount}
    (hs : s.Inv) (hinstaller : installer ≠ .listing)
    (hok : ∀ (k : ℕ) (target : Target), s.targets[k]? = some target →
      target.Ok (s.installer.stage k) → target.Ok (installer.stage k))
    (hsuspending : isSuspending = installer.isSuspending)
    (hcount : installer.isStarted = true → suspendCount = s.targets.countP Target.isUncounted)
    (hidle : installer.isStarted = false → suspendCount = 0)
    (hrefs : countRefs.Backs (installer.holdsCount.toNat + s.targets.countP Target.holdsCount)
      (s.targets.countP Target.shared)) (hsane : installer ≠ .panicked) :
    Keeps s { s with isSuspending, suspendCount, countRefs, installer } where
  inv := ⟨fun k target htarget => hok k target htarget (hs.ok k target htarget), hs.alive,
    hsuspending, hcount, hidle, hrefs, hsane⟩
  counted := Or.inr fun _ target htarget => ⟨target, htarget, rfl⟩
  listing hlisting := absurd hlisting hinstaller

/-- A step of the installer that changes none of the targets. -/
theorem State.Inv.installerGoes (hs : s.Inv) (hinstaller : installer ≠ .listing)
    (hok : ∀ (k : ℕ) (target : Target), s.targets[k]? = some target →
      target.Ok (s.installer.stage k) → target.Ok (installer.stage k))
    (hsuspending : installer.isSuspending = s.installer.isSuspending)
    (hstarted : installer.isStarted = s.installer.isStarted)
    (hholds : installer.holdsCount = s.installer.holdsCount) (hsane : installer ≠ .panicked) :
    Keeps s { s with installer } :=
  hs.installerKeeps hinstaller hok (hs.isSuspending.trans hsuspending.symm)
    (fun h => hs.count (hstarted ▸ h)) (fun h => hs.idle (hstarted ▸ h)) (hholds ▸ hs.refs) hsane

/-- Nothing was sent yet. -/
theorem State.Inv.starting (hs : s.Inv) (hinstaller : s.installer = .starting) :
    s.targets.countP Target.isUncounted = s.targets.length ∧
      s.targets.countP Target.holdsCount = 0 ∧ s.targets.countP Target.shared = 0 := by
  have hnew : ∀ target ∈ s.targets, target.live = true ∧ target.phase = .unsent ∧
      target.payload = .thread ∧ target.shared = false := by
    intro target hmem
    obtain ⟨k, hk⟩ := List.getElem?_of_mem hmem
    have hok := hs.ok k target hk
    rw [hinstaller] at hok
    exact hok.eq_new
  refine ⟨List.countP_eq_length.2 fun target hmem => ?_,
    List.countP_eq_zero.2 fun target hmem => ?_, List.countP_eq_zero.2 fun target hmem => ?_⟩ <;>
    obtain ⟨hlive, hphase, -, hshared⟩ := hnew target hmem
  · rw [Target.isUncounted, hlive, hphase]
    rfl
  · rw [Target.holdsCount, hphase]
    decide
  · rw [hshared]
    decide

/-- Behind the last target. -/
theorem lt_of_getElem?_eq_none {i : ℕ} (hnone : s.targets[k]? = none)
    (htarget : s.targets[i]? = some target) : i < k := by
  have hlen := List.getElem?_eq_none_iff.1 hnone
  have hi := (List.getElem?_eq_some_iff.1 htarget).1
  omega

/-! One lemma for each phase of the installer. -/

/-- `IS_SUSPENDING` and the count are set for the targets of the listing, or the installer
fails. -/
theorem starting_keeps (hs : s.Inv) (hinstaller : s.installer = .starting) {ok : Bool}
    (h : s.installerStep ok = some t) : Keeps s t := by
  obtain ⟨hlength, hholds, hshared⟩ := hs.starting hinstaller
  have hidle := hs.idle (by rw [hinstaller]; rfl)
  simp only [State.installerStep, hinstaller] at h
  split_ifs at h with hempty <;> obtain rfl := Option.some.inj h
  · refine hs.installerKeeps nofun (fun k target htarget => ?_) (hs.isSuspending.trans ?_)
      (fun _ => by rw [hidle, hempty]; rfl) nofun ?_ nofun
    · rw [hempty] at htarget
      cases htarget
    · rw [hinstaller]
      rfl
    · have hrefs := hs.refs
      rwa [hinstaller] at hrefs
  · refine hs.installerKeeps nofun (fun k target _ hok => ?_) rfl (fun _ => hlength.symm) nofun ?_
      nofun
    · rw [hinstaller] at hok
      rw [Installer.stage, if_neg (Nat.not_lt_zero k)]
      exact hok
    · rw [hholds, hshared]
      exact RefCount.backs_new
  · exact hs.installerGoes nofun (fun k target _ hok => by rwa [hinstaller] at hok)
      (by rw [hinstaller]; rfl) (by rw [hinstaller]; rfl) (by rw [hinstaller]; rfl) nofun

/-- All signals were sent. -/
theorem sent_keeps (hs : s.Inv) (hinstaller : s.installer = .sending k)
    (hnone : s.targets[k]? = none) : Keeps s { s with installer := .checking } := by
  refine hs.installerGoes nofun (fun i target hi hok => ?_) (by rw [hinstaller]; rfl)
    (by rw [hinstaller]; rfl) (by rw [hinstaller]; rfl) nofun
  rwa [hinstaller, Installer.stage, if_pos (lt_of_getElem?_eq_none hnone hi)] at hok

/-- The target of a signal that was not sent is counted off by the installer. -/
theorem unsent_moves (hs : s.Inv) (htarget : s.targets[k]? = some target)
    (hinstaller : s.installer = .unsent k) :
    ∃ target', Moves s ({ s with
      suspendCount := fetchSub s.suspendCount
      installer := .sending (k + 1) }.setTarget k { target with payload := .thread, live := false })
      k target target' true := by
  have hok := hs.ok k target htarget
  rw [hinstaller, Installer.stage_unsent] at hok
  refine ⟨_, hs.installerMoves rfl Or.inl ?_ (fun i hi => ?_) (by rw [hinstaller]; rfl)
    (by rw [hinstaller]; exact ⟨rfl, rfl⟩) (by rw [hinstaller]; rfl)
    (fun _ => hok.isUncounted_of_failing) (Bool.and_false _).symm rfl fun _ _ h => h⟩
  · rw [Installer.stage_sending_succ]
    exact hok.unsent
  · rw [hinstaller, Installer.stage_unsent_of_ne hi, Installer.stage_sending_of_ne hi]

/-- Once nobody is uncounted, the wait is over. -/
theorem checking_keeps (hs : s.Inv) (hinstaller : s.installer = .checking) {ok : Bool}
    (h : s.installerStep ok = some t) : Keeps s t := by
  simp only [State.installerStep, hinstaller] at h
  split_ifs at h with hzero <;> obtain rfl := Option.some.inj h
  · refine hs.installerGoes nofun (fun k target htarget hok => ?_) (by rw [hinstaller]; rfl)
      (by rw [hinstaller]; rfl) (by rw [hinstaller]; rfl) nofun
    rw [hinstaller] at hok
    refine hok.wait (Bool.eq_false_iff.2 fun huncounted => ?_)
    have := hs.suspendCount_pos (by rw [hinstaller]; rfl) htarget huncounted
    omega
  · exact hs.installerGoes nofun (fun k target _ hok => by rwa [hinstaller] at hok)
      (by rw [hinstaller]; rfl) (by rw [hinstaller]; rfl) (by rw [hinstaller]; rfl) nofun

/-- A thread that is found gone is in no handler. -/
theorem polling_keeps (hs : s.Inv) (hinstaller : s.installer = .polling k) {ok : Bool}
    (h : s.installerStep ok = some t) : Keeps s t := by
  have hgoes : ∀ installer : Installer, installer ≠ .listing →
      (∀ i, installer.stage i = .sent) → installer.isSuspending = true →
      installer.isStarted = true → installer.holdsCount = true → installer ≠ .panicked →
        Keeps s { s with installer } := fun installer hne hstage hsuspending hstarted hholds hsane =>
    hs.installerGoes hne (fun i target _ hok => by
      rw [hinstaller] at hok
      rw [hstage]
      exact hok) (by rw [hinstaller, hsuspending]; rfl) (by rw [hinstaller, hstarted]; rfl)
      (by rw [hinstaller, hholds]; rfl) hsane
  simp only [State.installerStep, hinstaller] at h
  cases htarget : s.targets[k]? with
  | none =>
    simp only [htarget, Option.some.injEq] at h
    subst h
    exact hgoes .checking nofun (fun _ => rfl) rfl rfl rfl nofun
  | some target =>
    simp only [htarget] at h
    split_ifs at h with hpoll halive <;> obtain rfl := Option.some.inj h
    · exact hgoes (.polling (k + 1)) nofun (fun _ => rfl) rfl rfl rfl nofun
    · refine hs.installerGoes nofun (fun i other hi hok => ?_) (by rw [hinstaller]; rfl)
        (by rw [hinstaller]; rfl) (by rw [hinstaller]; rfl) nofun
      rw [hinstaller] at hok
      by_cases hik : i = k
      · subst hik
        obtain rfl := Option.some.inj (htarget.symm.trans hi)
        rw [Installer.stage_gone]
        refine (hok.poll (by simpa using (not_or.1 hpoll).1) (Bool.eq_false_iff.2 ?_)).2
        rintro hactive
        obtain ⟨task, htask, halive'⟩ := hs.alive target (List.mem_of_getElem? htarget) hactive
        exact halive ((Option.any_eq_true _ _).2 ⟨task, htask, halive'⟩)
      · rw [Installer.stage_gone_of_ne hik]
        exact hok

/-- So is a thread that is gone. -/
theorem gone_moves (hs : s.Inv) (htarget : s.targets[k]? = some target)
    (hinstaller : s.installer = .gone k) :
    ∃ target', Moves s ({ s with
      suspendCount := fetchSub s.suspendCount
      installer := .polling (k + 1) }.setTarget k { target with live := false }) k target target'
      true := by
  have hok := hs.ok k target htarget
  rw [hinstaller, Installer.stage_gone] at hok
  refine ⟨_, hs.installerMoves rfl Or.inl hok.gone (fun i hi => ?_) (by rw [hinstaller]; rfl)
    (by rw [hinstaller]; exact ⟨rfl, rfl⟩) (by rw [hinstaller]; rfl)
    (fun _ => hok.isUncounted_of_gone) (Bool.and_false _).symm rfl fun _ _ h => h⟩
  rw [hinstaller, Installer.stage_gone_of_ne hi]
  rfl

/-- `IS_SUSPENDING` is cleared. -/
theorem closing_keeps (hs : s.Inv) (hinstaller : s.installer = .closing) :
    Keeps s { s with isSuspending := false, installer := .unsharing } := by
  have hcount := hs.count (by rw [hinstaller]; rfl)
  have hrefs := hs.refs
  rw [hinstaller] at hrefs
  exact hs.installerKeeps nofun (fun k target _ hok => by rwa [hinstaller] at hok) rfl
    (fun _ => hcount) nofun hrefs nofun

/-- The installer drops its reference to `suspend_count`. -/
theorem unsharing_keeps (hs : s.Inv) (hinstaller : s.installer = .unsharing) :
    Keeps s { s with countRefs := s.countRefs.dropStrong, installer := .suspended } := by
  have hcount := hs.count (by rw [hinstaller]; rfl)
  have hrefs := hs.refs
  rw [hinstaller, Installer.holdsCount, Bool.toNat_true, Nat.add_comm] at hrefs
  refine hs.installerKeeps nofun (fun k target _ hok => by rwa [hinstaller] at hok)
    (by rw [hs.isSuspending, hinstaller]; rfl) (fun _ => hcount) nofun ?_ nofun
  exact (Nat.zero_add _).symm ▸ hrefs.dropStrong

/-- A thread is resumed, unless it is gone. -/
theorem resume_cases (hs : s.Inv) (htarget : s.targets[k]? = some target)
    (hinstaller : s.installer = .resuming k) (h : s.resume k target = some t) :
    (∃ target', Moves s t k target target' false) ∨ Keeps s t := by
  have hok := hs.ok k target htarget
  rw [hinstaller, Installer.stage_resuming] at hok
  unfold State.resume at h
  split_ifs at h with hlive hsend <;> obtain rfl := Option.some.inj h
  · refine Or.inl ⟨_, hs.installerMoves rfl Or.inl ?_ (fun i hi => ?_) (by rw [hinstaller]; rfl)
      (by rw [hinstaller]; exact ⟨rfl, rfl⟩) (by rw [hinstaller]; rfl) nofun
      (Bool.and_true _).symm rfl fun _ _ h => h⟩
    · rw [Installer.stage_resuming_succ]
      exact hok.resume hlive hsend
    · rw [hinstaller, Installer.stage_resuming_of_ne hi]
  · refine Or.inr (hs.installerGoes nofun (fun i other hi hok' => ?_) (by rw [hinstaller]; rfl)
      (by rw [hinstaller]; rfl) (by rw [hinstaller]; rfl) nofun)
    by_cases hik : i = k
    · subst hik
      obtain rfl := Option.some.inj (htarget.symm.trans hi)
      rw [Installer.stage_resuming_succ]
      exact hok.skip (Bool.eq_false_iff.2 hlive)
    · rwa [hinstaller, ← Installer.stage_resuming_of_ne hik] at hok'

/-- All threads were resumed. -/
theorem resumed_keeps (hs : s.Inv) (hinstaller : s.installer = .resuming k)
    (hnone : s.targets[k]? = none) : Keeps s { s with installer := .dropping 0 } := by
  refine hs.installerGoes nofun (fun i target hi hok => ?_) (by rw [hinstaller]; rfl)
    (by rw [hinstaller]; rfl) (by rw [hinstaller]; rfl) nofun
  rw [hinstaller, Installer.stage, if_pos (lt_of_getElem?_eq_none hnone hi)] at hok
  rwa [Installer.stage, if_neg (Nat.not_lt_zero i)]

/-- All threads were dropped. -/
theorem dropped_keeps (hs : s.Inv) (hinstaller : s.installer = .dropping k)
    (hnone : s.targets[k]? = none) : Keeps s { s with installer := .done } := by
  refine hs.installerGoes nofun (fun i target hi hok => ?_) (by rw [hinstaller]; rfl)
    (by rw [hinstaller]; rfl) (by rw [hinstaller]; rfl) nofun
  rwa [hinstaller, Installer.stage, if_pos (lt_of_getElem?_eq_none hnone hi)] at hok

/-- What a step of the installer can do. -/
theorem installerStep_cases (hs : s.Inv) {ok : Bool} (h : s.installerStep ok = some t) :
    (∃ k target target' off, s.targets[k]? = some target ∧ Moves s t k target target' off ∧
      countsOff s (.installer ok) = if off then [k] else []) ∨
        Keeps s t ∧ countsOff s (.installer ok) = [] := by
  have hstep := h
  cases hinstaller : s.installer <;> simp only [State.installerStep, hinstaller, reduceCtorEq] at h
  case starting =>
    exact Or.inr ⟨starting_keeps hs hinstaller hstep, by simp [countsOff, hinstaller]⟩
  case sending k =>
    cases htarget : s.targets[k]? with
    | none =>
      simp only [htarget, Option.some.injEq] at h
      subst h
      exact Or.inr ⟨sent_keeps hs hinstaller htarget, by simp [countsOff, hinstaller]⟩
    | some target =>
      simp only [htarget, Option.some.injEq] at h
      subst h
      obtain ⟨target', hmoves⟩ := sendSignal_moves hs htarget hinstaller ok
      exact Or.inl ⟨k, target, target', false, htarget, hmoves, by simp [countsOff, hinstaller]⟩
  case unsent k =>
    obtain ⟨target, htarget, rfl⟩ := Option.map_eq_some_iff.1 h
    obtain ⟨target', hmoves⟩ := unsent_moves hs htarget hinstaller
    exact Or.inl ⟨k, target, target', true, htarget, hmoves, by simp [countsOff, hinstaller]⟩
  case checking =>
    exact Or.inr ⟨checking_keeps hs hinstaller hstep, by simp [countsOff, hinstaller]⟩
  case polling k =>
    exact Or.inr ⟨polling_keeps hs hinstaller hstep, by simp [countsOff, hinstaller]⟩
  case gone k =>
    obtain ⟨target, htarget, rfl⟩ := Option.map_eq_some_iff.1 h
    obtain ⟨target', hmoves⟩ := gone_moves hs htarget hinstaller
    exact Or.inl ⟨k, target, target', true, htarget, hmoves, by simp [countsOff, hinstaller]⟩
  case closing =>
    obtain rfl := Option.some.inj h
    exact Or.inr ⟨closing_keeps hs hinstaller, by simp [countsOff, hinstaller]⟩
  case unsharing =>
    obtain rfl := Option.some.inj h
    exact Or.inr ⟨unsharing_keeps hs hinstaller, by simp [countsOff, hinstaller]⟩
  case resuming k =>
    cases htarget : s.targets[k]? with
    | none =>
      simp only [htarget, Option.some.injEq] at h
      subst h
      exact Or.inr ⟨resumed_keeps hs hinstaller htarget, by simp [countsOff, hinstaller]⟩
    | some target =>
      simp only [htarget] at h
      rcases resume_cases hs htarget hinstaller h with ⟨target', hmoves⟩ | hkeeps
      · exact Or.inl ⟨k, target, target', false, htarget, hmoves, by simp [countsOff, hinstaller]⟩
      · exact Or.inr ⟨hkeeps, by simp [countsOff, hinstaller]⟩
  case dropping k =>
    cases htarget : s.targets[k]? with
    | none =>
      simp only [htarget, Option.some.injEq] at h
      subst h
      exact Or.inr ⟨dropped_keeps hs hinstaller htarget, by simp [countsOff, hinstaller]⟩
    | some target =>
      simp only [htarget, Option.some.injEq] at h
      subst h
      obtain ⟨target', hmoves⟩ := dropThread_moves hs htarget hinstaller
      exact Or.inl ⟨k, target, target', false, htarget, hmoves, by simp [countsOff, hinstaller]⟩

end Installer

/-! ## The threads -/

section Tasks

variable {s t : State} {k tid : ℕ} {target : Target}

/-- A thread in its handler runs nothing else. -/
theorem isInterrupted_of_mem (hmem : target ∈ s.targets) (h : target.phase.inHandler = true) :
    s.isInterrupted target.tid = true :=
  List.any_eq_true.2 ⟨target, hmem, by rw [h, decide_eq_true rfl]; rfl⟩

/-- A step of a thread leaves the targets and the installer alone. -/
theorem State.Inv.taskKeeps {tasks : List Task} (hs : s.Inv)
    (htasks : ∀ tid, IsAlive s.tasks tid → IsAlive tasks tid) : Keeps s { s with tasks } where
  inv := ⟨hs.ok, fun target hmem hactive => htasks _ (hs.alive target hmem hactive),
    hs.isSuspending, hs.count, hs.idle, hs.refs, hs.sane⟩
  counted := Or.inr fun _ target htarget => ⟨target, htarget, rfl⟩
  listing h := h

/-- A thread that is not interrupted goes on with its own code. -/
theorem execute_keeps (hs : s.Inv) {ip : ℕ} {inHeap : Bool}
    (h : s.execute tid ip inHeap = some t) : Keeps s t := by
  unfold State.execute at h
  split_ifs at h
  obtain rfl := Option.some.inj h
  exact hs.taskKeeps fun _ halive => halive.set rfl

/-- A thread creates another one, with a new id or one of a thread that is gone. -/
theorem create_keeps (hs : s.Inv) {parent ip : ℕ} {reused : Option ℕ}
    (h : s.create parent reused ip = some t) : Keeps s t := by
  unfold State.create at h
  split_ifs at h
  cases reused with
  | none =>
    obtain rfl := Option.some.inj h
    exact hs.taskKeeps fun _ halive => halive.append
  | some tid =>
    obtain ⟨task, -, h⟩ := Option.bind_eq_some_iff.1 h
    split_ifs at h
    obtain rfl := Option.some.inj h
    exact hs.taskKeeps fun _ halive => halive.set rfl

/-- The exit of a thread loses the signals that are queued for it. -/
theorem Target.exit_cases (tid : ℕ) (target : Target) : target.exit tid = target ∨
    target.tid = tid ∧ target.phase = .queued ∧
      target.exit tid = { target with phase := .lost } := by
  unfold Target.exit
  split_ifs with h
  · exact Or.inr ⟨h.1, h.2, rfl⟩
  · exact Or.inl rfl

/-- The signals of a thread that exits are lost, and it is not in a handler. -/
theorem exit_keeps (hs : s.Inv) (h : s.exit tid = some t) : Keeps s t := by
  unfold State.exit at h
  split_ifs at h with hruns
  obtain rfl := Option.some.inj h
  have hcountP : ∀ p : Target → Bool, (∀ target, p (target.exit tid) = p target) →
      (s.targets.map (Target.exit tid)).countP p = s.targets.countP p := by
    intro p hp
    rw [List.countP_map]
    exact congrArg (List.countP · s.targets) (funext hp)
  have huncounted : ∀ target : Target, (target.exit tid).isUncounted = target.isUncounted := by
    intro target
    rcases target.exit_cases tid with heq | ⟨-, hphase, heq⟩ <;> rw [heq]
    rw [Target.isUncounted, Target.isUncounted, hphase]
    rfl
  have hholds : ∀ target : Target, (target.exit tid).holdsCount = target.holdsCount := by
    intro target
    rcases target.exit_cases tid with heq | ⟨-, hphase, heq⟩ <;> rw [heq]
    rw [Target.holdsCount, Target.holdsCount, hphase]
    rfl
  have hshared : ∀ target : Target, (target.exit tid).shared = target.shared := by
    intro target
    rcases target.exit_cases tid with heq | ⟨-, -, heq⟩ <;> rw [heq]
  refine ⟨⟨fun k target hk => ?_, fun target hmem hactive => ?_, hs.isSuspending, fun h => ?_,
    hs.idle, ?_, hs.sane⟩, Or.inr fun k target hk => ⟨target.exit tid, ?_, huncounted target⟩,
    fun h => h⟩
  · obtain ⟨target', htarget', rfl⟩ := Option.map_eq_some_iff.1 (List.getElem?_map .. ▸ hk)
    have hok := hs.ok k target' htarget'
    rcases target'.exit_cases tid with heq | ⟨-, hphase, heq⟩ <;> rw [heq]
    · exact hok
    · exact hok.lose hphase
  · obtain ⟨target', hmem', rfl⟩ := List.mem_map.1 hmem
    rcases target'.exit_cases tid with heq | ⟨-, -, heq⟩ <;> rw [heq] at hactive ⊢
    · have halive := hs.alive target' hmem' hactive
      refine halive.modify_of_ne ?_
      rintro rfl
      by_cases hphase : target'.phase = .queued
      · rw [Target.exit, if_pos ⟨rfl, hphase⟩] at heq
        cases hphase.symm.trans (congrArg Target.phase heq).symm
      · refine hruns.2 (isInterrupted_of_mem hmem' ?_)
        cases hp : target'.phase <;> rw [hp] at hactive hphase <;>
          first | exact hactive | exact absurd rfl hphase
    · exact absurd hactive Bool.false_ne_true
  · exact (hs.count h).trans (hcountP _ huncounted).symm
  · have hrefs := hs.refs
    rwa [← hcountP _ hholds, ← hcountP _ hshared] at hrefs
  · rw [List.getElem?_map, hk]
    rfl

/-- A queued signal interrupts its thread. -/
theorem deliver_moves (hs : s.Inv) (htarget : s.targets[k]? = some target)
    (h : s.deliver k target = some t) : ∃ target', Moves s t k target target' false := by
  have hok := hs.ok k target htarget
  obtain ⟨tid, live, channel, channelRefs, payload, shared, phase, ip⟩ := target
  unfold State.deliver at h
  split_ifs at h with hqueued
  obtain rfl := hqueued.1
  obtain ⟨task, -, rfl⟩ := Option.map_eq_some_iff.1 h
  have hsent := Stage.eq_sent_of_allows (hok.allows rfl) rfl rfl
  exact ⟨_, hs.handlerKeeps (hok.stage_ne nofun) rfl rfl
    (hok.next rfl rfl (by rw [hsent]; rfl) rfl hok.send nofun (hok.backs rfl)) rfl rfl rfl⟩

/-- A thread is listed before any signal is sent. -/
theorem entry_keeps (hs : s.Inv) (hinstaller : s.installer = .listing) (tid : ℕ) :
    Keeps s (s.entry tid) := by
  unfold State.entry
  split_ifs
  · refine ⟨⟨fun k target hk => ?_, fun target hmem hactive => ?_, hs.isSuspending, fun h => ?_,
      hs.idle, ?_, hs.sane⟩, Or.inl hinstaller, fun _ => hinstaller⟩
    · have hstage : ∀ i, s.installer.stage i = .before := fun i => by rw [hinstaller]; rfl
      change target.Ok (s.installer.stage k)
      rw [hstage]
      cases k with
      | zero =>
        obtain rfl := Option.some.inj hk
        exact Target.ok_new tid
      | succ k => exact hstage k ▸ hs.ok k target hk
    · rcases List.mem_cons.1 hmem with rfl | hmem
      · exact absurd hactive Bool.false_ne_true
      · exact hs.alive target hmem hactive
    · exact absurd (hinstaller ▸ h) (by decide)
    · have hholds : (Target.new tid :: s.targets).countP Target.holdsCount =
          s.targets.countP Target.holdsCount := List.countP_cons_of_neg Bool.false_ne_true
      have hshared : (Target.new tid :: s.targets).countP Target.shared =
          s.targets.countP Target.shared := List.countP_cons_of_neg Bool.false_ne_true
      have hrefs := hs.refs
      rwa [← hholds, ← hshared] at hrefs
  · exact .refl hs

end Tasks

/-! ## Every step -/

section Step

variable {s t : State} {a : Action}

/-- What a step can do : it moves one target, counted off or not, or it keeps all of them. -/
theorem step_cases (hs : s.Inv) (h : s.step a = some t) :
    (∃ k target target' off, s.targets[k]? = some target ∧ Moves s t k target target' off ∧
      countsOff s a = if off then [k] else []) ∨ Keeps s t ∧ countsOff s a = [] := by
  cases a with
  | execute tid ip inHeap => exact Or.inr ⟨execute_keeps hs h, rfl⟩
  | create parent reused ip => exact Or.inr ⟨create_keeps hs h, rfl⟩
  | exit tid => exact Or.inr ⟨exit_keeps hs h, rfl⟩
  | deliver k =>
    obtain ⟨target, htarget, h⟩ := Option.bind_eq_some_iff.1 h
    obtain ⟨target', hmoves⟩ := deliver_moves hs htarget h
    exact Or.inl ⟨k, target, target', false, htarget, hmoves, rfl⟩
  | handler k =>
    obtain ⟨target, htarget, h⟩ := Option.bind_eq_some_iff.1 h
    obtain ⟨target', hmoves⟩ := handler_moves hs htarget h
    exact Or.inl ⟨k, target, target', _, htarget, hmoves, by simp [countsOff, htarget]⟩
  | noDir =>
    simp only [State.step, Option.ite_none_right_eq_some, Option.some.injEq] at h
    obtain ⟨hlisting, rfl⟩ := h
    exact Or.inr ⟨hs.installerGoes nofun (fun k target _ hok => by rwa [hlisting] at hok)
      (by rw [hlisting]; rfl) (by rw [hlisting]; rfl) (by rw [hlisting]; rfl) nofun, rfl⟩
  | entry tid =>
    simp only [State.step, Option.ite_none_right_eq_some, Option.some.injEq] at h
    obtain ⟨⟨hlisting, -⟩, rfl⟩ := h
    exact Or.inr ⟨entry_keeps hs hlisting tid, rfl⟩
  | endOfDir =>
    simp only [State.step, Option.ite_none_right_eq_some, Option.some.injEq] at h
    obtain ⟨hlisting, rfl⟩ := h
    exact Or.inr ⟨hs.installerGoes nofun (fun k target _ hok => by rwa [hlisting] at hok)
      (by rw [hlisting]; rfl) (by rw [hlisting]; rfl) (by rw [hlisting]; rfl) nofun, rfl⟩
  | installer ok => exact installerStep_cases hs h
  | setIp k =>
    simp only [State.step, Option.ite_none_right_eq_some, Option.bind_eq_some_iff] at h
    obtain ⟨hsuspended, target, -, h⟩ := h
    unfold State.setIp at h
    split_ifs at h <;> obtain rfl := Option.some.inj h
    · exact Or.inr ⟨hs.installerGoes nofun (fun k target _ hok => by rwa [hsuspended] at hok)
        (by rw [hsuspended]; rfl) (by rw [hsuspended]; rfl) (by rw [hsuspended]; rfl) nofun, rfl⟩
    · exact Or.inr ⟨.refl hs, rfl⟩
  | storeIp ip =>
    cases hinstaller : s.installer <;> simp only [State.step, hinstaller, reduceCtorEq] at h
    case setting k =>
      obtain ⟨target, htarget, rfl⟩ := Option.map_eq_some_iff.1 h
      have hok := hs.ok k target htarget
      rw [hinstaller] at hok
      exact Or.inl ⟨k, target, _, false, htarget, hs.installerMoves rfl Or.inl (hok.setValue _)
        (fun i _ => by rw [hinstaller]; rfl) (by rw [hinstaller]; rfl)
        (by rw [hinstaller]; exact ⟨rfl, rfl⟩) (by rw [hinstaller]; rfl) nofun
        (Bool.and_true _).symm rfl fun _ _ h => h, rfl⟩
  | drop =>
    simp only [State.step, Option.ite_none_right_eq_some, Option.some.injEq] at h
    obtain ⟨hsuspended, rfl⟩ := h
    refine Or.inr ⟨hs.installerGoes nofun (fun k target _ hok => ?_)
      (by rw [hsuspended]; rfl) (by rw [hsuspended]; rfl) (by rw [hsuspended]; rfl) nofun, rfl⟩
    rw [hsuspended] at hok
    rwa [Installer.stage, if_neg (Nat.not_lt_zero k)]

/-- Every step keeps the invariant. -/
theorem step_inv (hs : s.Inv) (h : s.step a = some t) : t.Inv := by
  rcases step_cases hs h with ⟨k, target, target', off, htarget, hmoves, -⟩ | ⟨hkeeps, -⟩
  · exact hs.moves htarget hmoves
  · exact hkeeps.inv

/-- It holds at first. -/
theorem inv_init (capacity : ℕ) (tasks : List Task) : (State.init capacity tasks).Inv where
  ok := by simp [State.init]
  alive := by simp [State.init]
  isSuspending := rfl
  count := nofun
  idle _ := rfl
  refs := ⟨rfl, rfl⟩
  sane := nofun

/-- So it holds in every run. -/
theorem inv_of_run {capacity : ℕ} {tasks : List Task} {actions : List Action} {u : State}
    (hrun : Transition.run State.step (.init capacity tasks) actions = some u) : u.Inv :=
  Transition.run_invariant_of_step (fun _ _ _ => step_inv) (inv_init capacity tasks) hrun

end Step

end Suspend

end Diversion
