import Diversion.Suspend

/-!
# Stages of a suspension

A `Stage` is how far the installer is with a target : whether its signal was sent, the wait has
ended, it was resumed and dropped. `Target.Ok` says what a target looks like at each stage, and
the lemmas below it what becomes of that when the handler or the installer goes on.
-/

namespace Diversion

namespace Suspend

/-! ## Stages -/

/-- How far the installer is with a target. -/
inductive Stage where
  | before
  /-- The signal could not be sent. -/
  | failing
  | sent
  /-- The poll has failed. -/
  | gone
  /-- The wait loop has ended. -/
  | waited
  | resumed
  | dropped
deriving DecidableEq, Repr

/-- Where the installer stands with the target `k`. -/
def Installer.stage (k : ℕ) : Installer → Stage
  | .listing | .starting | .failed | .panicked => .before
  | .sending i => if k < i then .sent else .before
  | .unsent i => if k < i then .sent else if k = i then .failing else .before
  | .checking | .polling _ => .sent
  | .gone i => if k = i then .gone else .sent
  | .closing | .unsharing | .suspended | .setting _ => .waited
  | .resuming i => if k < i then .resumed else .waited
  | .dropping i => if k < i then .dropped else .resumed
  | .done => .dropped

namespace Stage

/-- Where the handler of a target is that is not written off. -/
def allows : Stage → Phase → Bool
  | .before, phase | .failing, phase => phase = .unsent
  | .sent, phase => phase.isUncounted && phase ≠ .unsent || phase.isStopped
  | .gone, phase => phase = .lost
  | .waited, phase => phase.isStopped
  | .resumed, phase | .dropped, phase => phase.isSent

/-- A target may be written off. -/
def allowsOff : Stage → Bool
  | .before | .failing | .gone => false
  | _ => true

/-- `Thread::resume` was called. -/
def isResumed : Stage → Bool
  | .resumed | .dropped => true
  | _ => false

/-- Where the payload is, by the phase of the handler. -/
def payload : Stage → Phase → PayloadAt
  | .failing, .unsent => .signal
  | .dropped, .unsent => .freed
  | _, .unsent => .thread
  | _, .returning | _, .returned => .freed
  | _, _ => .signal

variable {stage : Stage} {phase phase' : Phase}

theorem payload_of_holdsPayload (h : phase.holdsPayload = true) :
    stage.payload phase = .signal := by
  cases phase <;> first | exact absurd h (by decide) | (cases stage <;> rfl)

/-- Only the wait has handlers that have not counted their thread off. -/
theorem eq_sent_of_allows (h : stage.allows phase = true) (hphase : phase.holdsPayload = true)
    (huncounted : phase.isUncounted = true) : stage = .sent := by
  cases phase <;> first | exact absurd hphase (by decide) | exact absurd huncounted (by decide) |
    (cases stage <;> first | rfl | exact absurd h (by decide))

theorem allows_stopped (h : stage.allows phase = true) (hphase : phase.isStopped = true)
    (hphase' : phase'.isStopped = true) (hsent : phase.isSent = true → phase'.isSent = true) :
    stage.allows phase' = true := by
  cases stage <;> simp only [allows, hphase', Bool.or_true] at h ⊢
  · rw [of_decide_eq_true h] at hphase
    exact absurd hphase (by decide)
  · rw [of_decide_eq_true h] at hphase
    exact absurd hphase (by decide)
  · rw [of_decide_eq_true h] at hphase
    exact absurd hphase (by decide)
  · exact hsent h
  · exact hsent h

theorem allows_sent (h : stage.isResumed = true) (hphase : phase.isSent = true) :
    stage.allows phase = true := by
  cases stage <;> first | exact absurd h (by decide) | exact hphase

/-- A handler is past `wait_recv` only if its thread was resumed. -/
theorem isResumed_of_allows (h : stage.allows phase = true) (hphase : phase.isSent = true)
    (hstopped : phase.isStopped = false) : stage.isResumed = true := by
  cases phase <;> first | exact absurd hphase (by decide) | exact absurd hstopped (by decide) |
    (cases stage <;> first | rfl | exact absurd h (by decide))

theorem ne_dropped_of_allows (h : stage.allows phase = true) (hphase : phase.isSent = false) :
    stage ≠ .dropped := by
  rintro rfl
  exact absurd (h.symm.trans hphase) (by decide)

end Stage

/-- What a target looks like. -/
structure Target.Ok (stage : Stage) (target : Target) : Prop where
  phase : target.live = true → stage.allows target.phase = true
  off : target.live = false →
    stage.allowsOff = true ∧ (target.phase = .unsent ∨ target.phase = .lost)
  payload : target.payload = stage.payload target.phase
  shared : target.shared = (decide (stage ≠ .before) && decide (target.payload ≠ .freed))
  recv : target.channel.recv = (target.live && stage.isResumed)
  send : target.channel.send = target.phase.isSent
  ip : target.phase.hasLoaded = true → target.ip = target.channel.value
  refs : target.channelRefs.Backs
    ((decide (stage ≠ .dropped)).toNat + target.phase.holdsChannel.toNat)
    (decide (target.payload ≠ .freed)).toNat

namespace Target

variable {stage : Stage} {target : Target}

theorem ok_new (tid : ℕ) : (new tid).Ok .before where
  phase _ := rfl
  off := nofun
  payload := rfl
  shared := rfl
  recv := rfl
  send := rfl
  ip := nofun
  refs := RefCount.backs_new.downgrade

theorem Ok.live (h : target.Ok stage) (hunsent : target.phase ≠ .unsent)
    (hlost : target.phase ≠ .lost) : target.live = true := by
  by_contra hoff
  rcases (h.off (Bool.eq_false_iff.2 hoff)).2 with hphase | hphase
  · exact hunsent hphase
  · exact hlost hphase

/-- Only a target that was sent its signal has left the first phase. -/
theorem Ok.stage_ne (h : target.Ok stage) (hphase : target.phase ≠ .unsent) :
    stage ≠ .before := by
  rintro rfl
  cases hlive : target.live with
  | false => exact absurd (h.off hlive).1 (by decide)
  | true => exact hphase (of_decide_eq_true (h.phase hlive))

section HoldsPayload

variable (h : target.Ok stage) (hphase : target.phase.holdsPayload = true)
include h hphase

theorem Ok.live_eq : target.live = true := by
  refine h.live ?_ ?_ <;> rintro heq <;> rw [heq] at hphase <;> exact absurd hphase (by decide)

theorem Ok.allows : stage.allows target.phase = true :=
  h.phase (h.live_eq hphase)

theorem Ok.payload_eq : target.payload = .signal :=
  h.payload.trans (Stage.payload_of_holdsPayload hphase)

theorem Ok.shared_eq : target.shared = true := by
  have hne := h.stage_ne (by rintro heq; rw [heq] at hphase; exact absurd hphase (by decide))
  rw [h.shared, h.payload_eq hphase, decide_eq_true hne]
  rfl

theorem Ok.backs : target.channelRefs.Backs
    ((decide (stage ≠ .dropped)).toNat + target.phase.holdsChannel.toNat) 1 := by
  have hrefs := h.refs
  rwa [h.payload_eq hphase] at hrefs

/-- A handler with its payload goes on. -/
theorem Ok.next {phase : Phase} {channel : Oneshot} {channelRefs : RefCount} {ip : ℕ}
    (hphase' : phase.holdsPayload = true) (hallows : stage.allows phase = true)
    (hrecv : channel.recv = target.channel.recv) (hsend : channel.send = phase.isSent)
    (hip : phase.hasLoaded = true → ip = channel.value)
    (hrefs : channelRefs.Backs
      ((decide (stage ≠ .dropped)).toNat + phase.holdsChannel.toNat) 1) :
    Ok stage { target with phase, channel, channelRefs, ip } where
  phase _ := hallows
  off hoff := absurd ((h.live_eq hphase).symm.trans hoff) (by decide)
  payload := (h.payload_eq hphase).trans (Stage.payload_of_holdsPayload hphase').symm
  shared := h.shared
  recv := hrecv.trans h.recv
  send := hsend
  ip := hip
  refs := by
    rw [h.payload_eq hphase]
    exact hrefs

end HoldsPayload

/-- A signal that was not delivered is lost. -/
theorem Ok.lose (h : target.Ok stage) (hphase : target.phase = .queued) :
    Ok stage { target with phase := .lost } := by
  have hsent := Stage.eq_sent_of_allows (h.allows (by rw [hphase]; rfl)) (by rw [hphase]; rfl)
    (by rw [hphase]; rfl)
  obtain ⟨-, hoff, hpayload, hshared, hrecv, hsend, -, hrefs⟩ := h
  rw [hphase] at hoff hpayload hsend hrefs
  subst hsent
  refine ⟨fun _ => rfl, fun hlive => ⟨rfl, Or.inr rfl⟩, ?_, hshared, hrecv, hsend, nofun, hrefs⟩
  rw [hpayload]
  rfl

/-- The end of a handler. -/
theorem Ok.dropPayload (h : target.Ok stage) (hphase : target.phase = .droppingPayload) :
    Ok stage { target.dropPayload with phase := .returning } where
  phase hlive := Stage.allows_sent (Stage.isResumed_of_allows (h.phase hlive) (by rw [hphase]; rfl)
    (by rw [hphase]; rfl)) rfl
  off hoff := absurd ((h.live_eq (by rw [hphase]; rfl)).symm.trans hoff) (by decide)
  payload := by cases stage <;> rfl
  shared := (Bool.and_false _).symm
  recv := h.recv
  send := by
    have hsend := h.send
    rwa [hphase] at hsend
  ip _ := h.ip (by rw [hphase]; rfl)
  refs := by
    have hrefs := h.backs (by rw [hphase]; rfl)
    rw [hphase] at hrefs
    exact hrefs.dropWeak

theorem Ok.leave (h : target.Ok stage) (hphase : target.phase = .returning) :
    Ok stage { target with phase := .returned } := by
  obtain ⟨hallows, hoff, hpayload, hshared, hrecv, hsend, hip, hrefs⟩ := h
  rw [hphase] at hallows hoff hpayload hsend hip hrefs
  refine ⟨fun hlive => ?_, fun hlive => ?_, ?_, hshared, hrecv, hsend, hip, hrefs⟩
  · exact Stage.allows_sent (Stage.isResumed_of_allows (hallows hlive) rfl rfl) rfl
  · rcases (hoff hlive).2 with heq | heq <;> cases heq
  · rw [hpayload]
    cases stage <;> rfl

/-! ### What the installer does to a target -/

theorem Ok.of_allowsOff_eq_false (h : target.Ok stage) (hstage : stage.allowsOff = false) :
    target.live = true ∧ stage.allows target.phase = true := by
  have hlive : target.live = true := by
    by_contra hoff
    exact absurd ((h.off (Bool.eq_false_iff.2 hoff)).1.symm.trans hstage) (by decide)
  exact ⟨hlive, h.phase hlive⟩

/-- A target that was not sent its signal is as it was listed. -/
theorem Ok.eq_new (h : target.Ok .before) : target.live = true ∧ target.phase = .unsent ∧
    target.payload = .thread ∧ target.shared = false := by
  obtain ⟨hlive, hallows⟩ := h.of_allowsOff_eq_false rfl
  have hphase : target.phase = .unsent := of_decide_eq_true hallows
  refine ⟨hlive, hphase, ?_, h.shared⟩
  rw [h.payload, hphase]
  rfl

theorem Ok.send_signal (h : target.Ok .before) {phase : Phase}
    (hphase : phase = .queued ∨ phase = .lost) :
    Ok .sent { target with payload := .signal, shared := true, phase } := by
  obtain ⟨hlive, hunsent, hpayload, -⟩ := h.eq_new
  have hsend := h.send
  have hrefs := h.refs
  rw [hunsent] at hsend hrefs
  rw [hpayload] at hrefs
  rcases hphase with rfl | rfl <;>
    exact ⟨fun _ => rfl, fun hoff => absurd (hlive.symm.trans hoff) (by decide), rfl, rfl,
      h.recv, hsend, nofun, hrefs⟩

theorem Ok.fail (h : target.Ok .before) :
    Ok .failing { target with payload := .signal, shared := true } := by
  obtain ⟨hlive, hunsent, hpayload, -⟩ := h.eq_new
  have hrefs := h.refs
  rw [hpayload] at hrefs
  refine ⟨h.phase, fun hoff => absurd (hlive.symm.trans hoff) (by decide), ?_, rfl, h.recv, h.send,
    h.ip, hrefs⟩
  rw [hunsent]
  rfl

theorem Ok.isUncounted_of_failing (h : target.Ok .failing) : target.isUncounted = true := by
  obtain ⟨hlive, hallows⟩ := h.of_allowsOff_eq_false rfl
  rw [isUncounted, hlive, of_decide_eq_true hallows]
  rfl

theorem Ok.isUncounted_of_gone (h : target.Ok .gone) : target.isUncounted = true := by
  obtain ⟨hlive, hallows⟩ := h.of_allowsOff_eq_false rfl
  rw [isUncounted, hlive, of_decide_eq_true hallows]
  rfl

/-- What the installer does when a signal could not be sent. -/
theorem Ok.unsent (h : target.Ok .failing) :
    Ok .sent { target with payload := .thread, live := false } := by
  obtain ⟨hlive, hallows⟩ := h.of_allowsOff_eq_false rfl
  have hphase : target.phase = .unsent := of_decide_eq_true hallows
  obtain ⟨-, -, hpayload, hshared, hrecv, hsend, hip, hrefs⟩ := h
  rw [hphase] at hpayload
  rw [hpayload] at hrefs hshared
  refine ⟨nofun, fun _ => ⟨rfl, Or.inl hphase⟩, ?_, hshared, ?_, hsend, hip, hrefs⟩
  · rw [hphase]
    rfl
  · rw [hrecv, hlive]
    rfl

/-- The poll of a thread fails that is not there. -/
theorem Ok.poll (h : target.Ok .sent) (hlive : target.live = true)
    (hactive : target.phase.isActive = false) : target.phase = .lost ∧ target.Ok .gone := by
  obtain ⟨hallows, hoff, hpayload, hshared, hrecv, hsend, hip, hrefs⟩ := h
  have hphase : target.phase = .lost := by
    have := hallows hlive
    cases hphase : target.phase <;> rw [hphase] at this hactive <;>
      first | rfl | exact absurd this (by decide) | exact absurd hactive (by decide)
  refine ⟨hphase, ?_⟩
  rw [hphase] at hpayload
  refine ⟨fun _ => decide_eq_true hphase, fun hoff => absurd (hlive.symm.trans hoff) (by decide),
    ?_, hshared, hrecv, hsend, hip, hrefs⟩
  rw [hphase, hpayload]
  rfl

theorem Ok.gone (h : target.Ok .gone) : Ok .sent { target with live := false } := by
  obtain ⟨hlive, hallows⟩ := h.of_allowsOff_eq_false rfl
  have hphase : target.phase = .lost := of_decide_eq_true hallows
  obtain ⟨-, -, hpayload, hshared, hrecv, hsend, hip, hrefs⟩ := h
  rw [hphase] at hpayload
  refine ⟨nofun, fun _ => ⟨rfl, Or.inr hphase⟩, ?_, hshared, ?_, hsend, hip, hrefs⟩
  · rw [hphase, hpayload]
    rfl
  · rw [hrecv, hlive]
    rfl

/-- A target that is written off stays as it is. -/
theorem Ok.of_off {stage' : Stage} (h : target.Ok stage) (hlive : target.live = false)
    (hoff : stage'.allowsOff = true)
    (hpayload : ∀ phase, stage'.payload phase = stage.payload phase)
    (hdropped : stage' ≠ .dropped ∧ stage ≠ .dropped) : target.Ok stage' where
  phase hl := absurd (hlive.symm.trans hl) (by decide)
  off _ := ⟨hoff, (h.off hlive).2⟩
  payload := h.payload.trans (hpayload _).symm
  shared := by
    have hne : stage ≠ .before := by
      rintro rfl
      exact absurd (h.off hlive).1 (by decide)
    have hne' : stage' ≠ .before := by
      rintro rfl
      exact absurd hoff (by decide)
    rw [h.shared, decide_eq_true hne, decide_eq_true hne']
  recv := by rw [h.recv, hlive, Bool.false_and, Bool.false_and]
  send := h.send
  ip := h.ip
  refs := by
    have hrefs := h.refs
    rw [decide_eq_true hdropped.2] at hrefs
    rwa [decide_eq_true hdropped.1]

/-- The wait ends once the target is counted off. -/
theorem Ok.wait (h : target.Ok .sent) (hcounted : target.isUncounted = false) :
    target.Ok .waited := by
  cases hlive : target.live with
  | false => exact h.of_off hlive rfl (fun phase => by cases phase <;> rfl) ⟨nofun, nofun⟩
  | true =>
    obtain ⟨hallows, hoff, hpayload, hshared, hrecv, hsend, hip, hrefs⟩ := h
    refine ⟨fun _ => ?_, fun hl => absurd (hlive.symm.trans hl) (by decide), ?_, hshared, hrecv,
      hsend, hip, hrefs⟩
    · rw [isUncounted, hlive, Bool.true_and] at hcounted
      have := hallows hlive
      rwa [Stage.allows, hcounted, Bool.false_and, Bool.false_or] at this
    · rw [hpayload]
      cases target.phase <;> rfl

theorem Ok.skip (h : target.Ok .waited) (hlive : target.live = false) : target.Ok .resumed :=
  h.of_off hlive rfl (fun phase => by cases phase <;> rfl) ⟨nofun, nofun⟩

/-- `Thread::resume`, once the handler has sent. -/
theorem Ok.resume (h : target.Ok .waited) (hlive : target.live = true)
    (hsent : target.channel.send = true) :
    Ok .resumed { target with channel := { target.channel with recv := true } } := by
  obtain ⟨hallows, hoff, hpayload, hshared, hrecv, hsend, hip, hrefs⟩ := h
  refine ⟨fun _ => hsend.symm.trans hsent, fun hl => absurd (hlive.symm.trans hl) (by decide), ?_,
    hshared, ?_, hsend, hip, hrefs⟩
  · rw [hpayload]
    cases target.phase <;> rfl
  · rw [hlive]
    rfl

/-- `Thread::set_ip_if` between the wait and the resumption. -/
theorem Ok.setValue (h : target.Ok .waited) (value : ℕ) :
    Ok .waited { target with channel := { target.channel with value } } := by
  obtain ⟨hallows, hoff, hpayload, hshared, hrecv, hsend, hip, hrefs⟩ := h
  refine ⟨hallows, hoff, hpayload, hshared, hrecv, hsend, fun hloaded => ?_, hrefs⟩
  cases hlive : target.live with
  | false =>
    rcases (hoff hlive).2 with hphase | hphase <;> rw [hphase] at hloaded <;>
      exact absurd hloaded (by decide)
  | true =>
    have hstopped := hallows hlive
    cases hphase : target.phase <;> rw [hphase] at hstopped hloaded <;>
      first | exact absurd hstopped (by decide) | exact absurd hloaded (by decide)

/-- The drop of a thread without its payload. -/
theorem Ok.drop (h : target.Ok .resumed) (hpayload : target.payload ≠ .thread) :
    Ok .dropped { target with channelRefs := target.channelRefs.dropStrong } := by
  obtain ⟨hallows, hoff, hpayload', hshared, hrecv, hsend, hip, hrefs⟩ := h
  have hphase : target.phase ≠ .unsent := by
    rintro hphase
    rw [hphase] at hpayload'
    exact hpayload hpayload'
  refine ⟨hallows, hoff, ?_, hshared, hrecv, hsend, hip, ?_⟩
  · rw [hpayload']
    cases hp : target.phase <;> first | rfl | exact absurd hp hphase
  · rw [decide_eq_true (by nofun), Bool.toNat_true, Nat.add_comm] at hrefs
    rw [decide_eq_false (by simp), Bool.toNat_false, Nat.zero_add]
    exact hrefs.dropStrong

/-- The drop of a thread with its payload. -/
theorem Ok.drop_payload (h : target.Ok .resumed) (hpayload : target.payload = .thread) :
    Ok .dropped
      { target with channelRefs := target.channelRefs.dropStrong : Target }.dropPayload := by
  obtain ⟨hallows, hoff, hpayload', hshared, hrecv, hsend, hip, hrefs⟩ := h
  have hphase : target.phase = .unsent := by
    rw [hpayload] at hpayload'
    cases hp : target.phase <;> rw [hp] at hpayload' <;> first | rfl | cases hpayload'
  rw [hphase, hpayload] at hrefs
  refine ⟨hallows, hoff, ?_, rfl, hrecv, hsend, hip, ?_⟩
  · rw [Target.dropPayload, hphase]
    rfl
  · rw [Target.dropPayload, hphase]
    exact hrefs.dropStrong.dropWeak

end Target

end Suspend

end Diversion
