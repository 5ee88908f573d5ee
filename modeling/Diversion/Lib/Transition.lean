import Mathlib.Tactic.TypeStar
import Mathlib.Data.List.Induction

/-!
# Runs of a guarded transition system

A system is a partial step function : `step s a` is the state after the action `a`, or
`none` if `a` is not enabled in `s`. Actions carry every choice the system does not make
itself (which thread moves, what an external call returns), so a run is a list of actions
and the same definition is evaluated on a concrete run and reasoned about on all of them.

`run_invariant` is the induction for invariants that hold as long as each step of the run
meets a condition (`Meets`). `Throughout` is "in every state of the run", `run_foldl` the
induction for a system that tracks an abstract state step by step, `run_simulates` the one for
a system matched by another, `run_trace` the one for properties of what was observed on the
way, `run_history` the one for properties that look back at the actions taken.
`exists_run_of_lt` is the induction for what a system can get to, `Took` says of an action in
what state it was taken.
-/

namespace Transition

variable {σ α τ : Type*} (step : σ → α → Option σ)

/-- The state after the actions, if each was enabled in its turn. -/
def run : σ → List α → Option σ
  | s, [] => some s
  | s, a :: as => (step s a).bind fun t => run t as

/-- Every action of the run is taken in a state where `C` allows it. -/
def Meets (C : σ → α → Prop) : σ → List α → Prop
  | _, [] => True
  | s, a :: as => C s a ∧ ∀ t, step s a = some t → Meets C t as

/-- Every state of the run, the first and the last included, satisfies `P`. -/
def Throughout (P : σ → Prop) : σ → List α → Prop
  | s, [] => P s
  | s, a :: as => P s ∧ ∀ t, step s a = some t → Throughout P t as

/-- Among the actions of the run there is `a`, taken in a state that satisfies `P`. -/
def Took (s : σ) (as : List α) (a : α) (P : σ → Prop) : Prop :=
  ∃ pre post u, as = pre ++ a :: post ∧ run step s pre = some u ∧ P u

variable {step}

@[simp] theorem run_nil (s : σ) : run step s [] = some s :=
  rfl

theorem run_cons_eq_some {s u : σ} {a : α} {as : List α} :
    run step s (a :: as) = some u ↔ ∃ t, step s a = some t ∧ run step t as = some u :=
  Option.bind_eq_some_iff

/-- Runs compose. -/
theorem run_append (as bs : List α) :
    ∀ s, run step s (as ++ bs) = (run step s as).bind fun t => run step t bs := by
  induction as with
  | nil => exact fun s => rfl
  | cons a as ih =>
    intro s
    simp only [List.cons_append, run, Option.bind_assoc, ih]

/-- A run in two pieces. -/
theorem run_append_eq_some {s u : σ} {as bs : List α} :
    run step s (as ++ bs) = some u ↔ ∃ t, run step s as = some t ∧ run step t bs = some u := by
  rw [run_append, Option.bind_eq_some_iff]

/-- A run by its last step. -/
theorem run_snoc_eq_some {s u : σ} {as : List α} {a : α} :
    run step s (as ++ [a]) = some u ↔ ∃ t, run step s as = some t ∧ step t a = some u := by
  simp only [run_append_eq_some, run_cons_eq_some, run_nil, Option.some.injEq, exists_eq_right]

/-! ## Deciding on a run -/

/-- There is one step at most. -/
theorem forall_step_iff {s t : σ} {a : α} {Q : σ → Prop} (h : step s a = some t) :
    (∀ u, step s a = some u → Q u) ↔ Q t := by
  simp [h]

theorem forall_step_of_none {s : σ} {a : α} {Q : σ → Prop} (h : step s a = none) (u : σ)
    (hu : step s a = some u) : Q u := by
  simp [h] at hu

instance Meets.decidable {C : σ → α → Prop} [∀ s a, Decidable (C s a)] :
    ∀ s as, Decidable (Meets step C s as)
  | _, [] => isTrue trivial
  | s, a :: as =>
    match h : step s a with
    | none => decidable_of_iff (C s a) ⟨fun hC => ⟨hC, forall_step_of_none h⟩, And.left⟩
    | some t =>
      have := Meets.decidable (C := C) t as
      decidable_of_iff (C s a ∧ Meets step C t as)
        (and_congr_right' (forall_step_iff (Q := fun t => Meets step C t as) h).symm)

instance Throughout.decidable {P : σ → Prop} [DecidablePred P] :
    ∀ s as, Decidable (Throughout step P s as)
  | s, [] => inferInstanceAs (Decidable (P s))
  | s, a :: as =>
    match h : step s a with
    | none => decidable_of_iff (P s) ⟨fun hP => ⟨hP, forall_step_of_none h⟩, And.left⟩
    | some t =>
      have := Throughout.decidable (P := P) t as
      decidable_of_iff (P s ∧ Throughout step P t as)
        (and_congr_right' (forall_step_iff (Q := fun t => Throughout step P t as) h).symm)

/-- A run meets `C` if both of its parts do. -/
theorem meets_append_iff {C : σ → α → Prop} {as bs : List α} : ∀ {s t : σ},
    run step s as = some t → (Meets step C s (as ++ bs) ↔ Meets step C s as ∧ Meets step C t bs) := by
  induction as with
  | nil =>
    intro s t hrun
    obtain rfl := Option.some.inj hrun
    exact (and_iff_right trivial).symm
  | cons a as ih =>
    intro s t hrun
    obtain ⟨u, hu, hrun⟩ := run_cons_eq_some.1 hrun
    simp only [List.cons_append, Meets, forall_step_iff hu, ih hrun, and_assoc]

/-! ## Invariants -/

/-- What holds at the start and is kept by every step that meets `C` holds after every run
whose steps all meet `C`. -/
theorem run_invariant {I : σ → Prop} {C : σ → α → Prop}
    (hstep : ∀ s a t, I s → C s a → step s a = some t → I t) {as : List α} :
    ∀ {s u : σ}, I s → Meets step C s as → run step s as = some u → I u := by
  induction as with
  | nil =>
    intro s u hs _ hrun
    exact Option.some.inj hrun ▸ hs
  | cons a as ih =>
    intro s u hs hC hrun
    obtain ⟨t, ht, hrun⟩ := run_cons_eq_some.1 hrun
    exact ih (hstep s a t hs hC.1 ht) (hC.2 t ht) hrun

/-- What holds at the start and is kept by every step holds after every run. -/
theorem run_invariant_of_step {I : σ → Prop} (hstep : ∀ s a t, I s → step s a = some t → I t)
    {as : List α} {s u : σ} (hs : I s) (hrun : run step s as = some u) : I u := by
  induction as generalizing s with
  | nil => exact Option.some.inj hrun ▸ hs
  | cons a as ih =>
    obtain ⟨t, ht, hrun⟩ := run_cons_eq_some.1 hrun
    exact ih (hstep s a t hs ht) hrun

/-- What holds before the first action and is carried over by every next action holds of the
actions and the last state of every run. -/
theorem run_history {P : List α → σ → Prop} {s : σ} (hnil : P [] s)
    (hsnoc : ∀ as a t u, run step s as = some t → P as t → step t a = some u →
      P (as ++ [a]) u) (as : List α) : ∀ {u : σ}, run step s as = some u → P as u := by
  induction as using List.reverseRecOn with
  | nil =>
    intro u hrun
    exact Option.some.inj hrun ▸ hnil
  | append_singleton as a ih =>
    intro u hrun
    obtain ⟨t, hrun, ht⟩ := run_snoc_eq_some.1 hrun
    exact hsnoc as a t u hrun (ih hrun) ht

/-- A system whose every step is tracked by `next` on an abstract state ends every run
related to the abstract state folded over the actions. -/
theorem run_foldl {R : σ → τ → Prop} {next : τ → α → τ} {C : α → Prop}
    (hstep : ∀ s a t x, R s x → C a → step s a = some t → R t (next x a)) {as : List α} :
    ∀ {s u : σ} {x : τ}, R s x → (∀ a ∈ as, C a) → run step s as = some u →
      R u (as.foldl next x) := by
  induction as with
  | nil =>
    intro s u x hs _ hrun
    exact Option.some.inj hrun ▸ hs
  | cons a as ih =>
    intro s u x hs hC hrun
    obtain ⟨t, ht, hrun⟩ := run_cons_eq_some.1 hrun
    exact ih (hstep s a t x hs (hC a (by simp)) ht) (fun b hb => hC b (by simp [hb])) hrun

/-- A system whose every step is matched by steps of another one is matched by a run of it. -/
theorem run_simulates {β : Type*} {step' : τ → β → Option τ} {R : σ → τ → Prop}
    (hstep : ∀ s a t x, R s x → step s a = some t →
      ∃ bs y, run step' x bs = some y ∧ R t y) {as : List α} :
    ∀ {s u : σ} {x : τ}, R s x → run step s as = some u →
      ∃ bs y, run step' x bs = some y ∧ R u y := by
  induction as with
  | nil =>
    intro s u x hs hrun
    exact ⟨[], x, rfl, Option.some.inj hrun ▸ hs⟩
  | cons a as ih =>
    intro s u x hs hrun
    obtain ⟨t, ht, hrun⟩ := run_cons_eq_some.1 hrun
    obtain ⟨bs, y, hbs, hy⟩ := hstep s a t x hs ht
    obtain ⟨cs, z, hcs, hz⟩ := ih hy hrun
    exact ⟨bs ++ cs, z, run_append_eq_some.2 ⟨y, hbs, hcs⟩, hz⟩

/-- A system that can always take a step towards `D` can get there. -/
theorem exists_run_of_lt {I D : σ → Prop} (measure : σ → ℕ)
    (hstep : ∀ s, I s → ¬D s → ∃ a t, step s a = some t ∧ I t ∧ measure t < measure s) {s : σ}
    (hs : I s) : ∃ as t, run step s as = some t ∧ I t ∧ D t := by
  induction hn : measure s using Nat.strongRecOn generalizing s with
  | _ n ih =>
    by_cases hD : D s
    · exact ⟨[], s, rfl, hs, hD⟩
    · obtain ⟨a, t, hstep, ht, hlt⟩ := hstep s hs hD
      obtain ⟨as, u, has, hu⟩ := ih (measure t) (hn ▸ hlt) ht rfl
      exact ⟨a :: as, u, run_cons_eq_some.2 ⟨t, hstep, has⟩, hu⟩

/-! ## What happened on the way -/

/-- What was taken in a run was taken in a longer one. -/
theorem Took.append {s : σ} {as : List α} {a : α} {P : σ → Prop} (h : Took step s as a P)
    (bs : List α) : Took step s (as ++ bs) a P := by
  obtain ⟨pre, post, u, rfl, hrun, hu⟩ := h
  exact ⟨pre, post ++ bs, u, by simp, hrun, hu⟩

/-- The last action of a run was taken in the state before it. -/
theorem took_snoc {s u : σ} {as : List α} {a : α} {P : σ → Prop} (hrun : run step s as = some u)
    (hu : P u) : Took step s (as ++ [a]) a P :=
  ⟨as, [], u, rfl, hrun, hu⟩

/-! ## What is observed along a run -/

/-- The observations of the actions of a run, each made in the state the action is taken in. -/
def trace {β : Type*} (step : σ → α → Option σ) (obs : σ → α → List β) : σ → List α → List β
  | _, [] => []
  | s, a :: as => obs s a ++ (step s a).elim [] fun t => trace step obs t as

/-- An invariant that ties the state to the observations made so far. -/
theorem run_trace {β : Type*} {obs : σ → α → List β} {P : List β → σ → Prop}
    (hstep : ∀ l s a t, P l s → step s a = some t → P (l ++ obs s a) t) {as : List α} :
    ∀ {l : List β} {s u : σ}, P l s → run step s as = some u → P (l ++ trace step obs s as) u := by
  induction as with
  | nil =>
    intro l s u hs hrun
    rw [trace, List.append_nil]
    exact Option.some.inj hrun ▸ hs
  | cons a as ih =>
    intro l s u hs hrun
    obtain ⟨t, ht, hrun⟩ := run_cons_eq_some.1 hrun
    rw [trace, ht, Option.elim_some, ← List.append_assoc]
    exact ih (hstep l s a t hs ht) hrun

/-! ## The states of a run -/

theorem Throughout.first {P : σ → Prop} {s : σ} {as : List α} (h : Throughout step P s as) :
    P s := by
  cases as with
  | nil => exact h
  | cons a as => exact h.1

/-- `P` throughout a run is `P` after every prefix of it. -/
theorem throughout_iff {P : σ → Prop} {as : List α} : ∀ {s : σ}, Throughout step P s as ↔
    ∀ pre post u, as = pre ++ post → run step s pre = some u → P u := by
  induction as with
  | nil =>
    intro s
    constructor
    · intro h pre post u hsplit hrun
      obtain ⟨rfl, -⟩ := List.append_eq_nil_iff.1 hsplit.symm
      exact Option.some.inj hrun ▸ h
    · exact fun h => h [] [] s rfl rfl
  | cons a as ih =>
    intro s
    constructor
    · intro h pre post u hsplit hrun
      cases pre with
      | nil => exact Option.some.inj hrun ▸ h.1
      | cons b pre =>
        simp only [List.cons_append, List.cons.injEq] at hsplit
        obtain ⟨rfl, hsplit⟩ := hsplit
        obtain ⟨t, ht, hrun⟩ := run_cons_eq_some.1 hrun
        exact ih.1 (h.2 t ht) pre post u hsplit hrun
    · refine fun h => ⟨h [] (a :: as) s rfl rfl, fun t ht => ih.2 fun pre post u hsplit hrun => ?_⟩
      exact h (a :: pre) post u (by rw [hsplit, List.cons_append])
        (run_cons_eq_some.2 ⟨t, ht, hrun⟩)

/-- Where `C` says of every step whether it keeps `P`, it does so of whole runs. `I` is what is
known in any case. -/
theorem throughout_iff_meets {I P : σ → Prop} {C : σ → α → Prop}
    (hI : ∀ s a t, I s → step s a = some t → I t)
    (hP : ∀ s a t, I s → P s → step s a = some t → (P t ↔ C s a)) {as : List α} :
    ∀ {s u : σ}, I s → P s → run step s as = some u →
      (Throughout step P s as ↔ Meets step C s as) := by
  induction as with
  | nil => exact fun _ hs _ => iff_of_true hs trivial
  | cons a as ih =>
    intro s u hIs hPs hrun
    obtain ⟨t, ht, hrun⟩ := run_cons_eq_some.1 hrun
    have hstep := hP s a t hIs hPs ht
    have hIt := hI s a t hIs ht
    simp only [Throughout, Meets, forall_step_iff ht]
    constructor
    · intro h
      exact ⟨hstep.1 h.2.first, (ih hIt h.2.first hrun).1 h.2⟩
    · intro h
      exact ⟨hPs, (ih hIt (hstep.2 h.1) hrun).2 h.2⟩

/-- What holds throughout a run holds in its start. -/
theorem Throughout.of_append {P : σ → Prop} {s : σ} {as bs : List α}
    (h : Throughout step P s (as ++ bs)) : Throughout step P s as :=
  throughout_iff.2 fun pre post u hsplit hrun =>
    throughout_iff.1 h pre (post ++ bs) u (by rw [hsplit, List.append_assoc]) hrun

/-- It holds at the end. -/
theorem Throughout.last {P : σ → Prop} {s u : σ} {as : List α} (h : Throughout step P s as)
    (hrun : run step s as = some u) : P u :=
  throughout_iff.1 h as [] u (by simp) hrun

end Transition
