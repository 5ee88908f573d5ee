import Diversion.Install

/-!
# The table of thunks

Installations one after the other, each under the lock of the process context, on any
targets, whether they return an installer, return an error or panic. `installed` lists the
installers that were returned, in order.

`Inv` is that the table has the entries of the returned installers and is sorted. An
installation looks its slot up in that table and inserts at it after any number of rounds,
and none of them touches the table, so the slot is still the one for its target
(`Inv.step`). `thunkTable_of_run` is what follows for every sequence of installations.
-/

namespace Diversion

namespace ThunkTable

/-- The arguments of a call of `install` and what the outside decides in it. -/
structure Call (pageSize : ℕ) where
  encode : Encode
  decode : Decode
  mmap : Mmap
  lawful : LawfulMmap pageSize mmap
  acquired : Except IoError Unit
  target : ℕ
  rounds : List Round

/-- The context of the process and the installers that were returned. -/
structure State where
  context : ProcessContext
  /-- Target and thunk of the installers that were returned. -/
  installed : List (ℕ × ℕ)

/-- Nothing has been installed. -/
def State.init : State where
  context := .zeroed
  installed := []

/-- A call that never returns keeps the lock. -/
def step {pageSize : ℕ} (s : State) (call : Call pageSize) : Option State :=
  (install call.encode call.decode pageSize call.mmap call.acquired call.target call.rounds
    s.context).map fun (result, session) =>
      match result with
      | .ok installer => ⟨session.context, s.installed ++ [(call.target, installer.thunk)]⟩
      | .error _ => ⟨session.context, s.installed⟩

/-- The table has the entries of `l`, and they are those of the installers. -/
structure Inv (s : State) (l : List ThunkFn) : Prop where
  registers : s.context.Registers l
  installed : ∀ a thunk, ⟨a, thunk⟩ ∈ l ↔ (a, thunk) ∈ s.installed

section Inv

variable {pageSize a thunk : ℕ} {s t : State} {l : List ThunkFn} {call : Call pageSize}

theorem inv_init : Inv .init [] :=
  ⟨ProcessContext.registers_zeroed, by simp [State.init]⟩

theorem Inv.getThunk_eq_ok_iff (h : Inv s l) :
    s.context.getThunk a = .ok thunk ↔ (a, thunk) ∈ s.installed :=
  h.registers.getThunk_eq_ok_iff.trans (h.installed a thunk)

/-- What an installation does to the table : nothing, or an entry is inserted at the slot that
was looked up. -/
theorem install_cases {encode : Encode} {decode : Decode} {mmap : Mmap}
    {acquired : Except IoError Unit} {target : ℕ} {rounds : List Round}
    {context : ProcessContext} {result : Result ErasedInstaller} {session : Session}
    (h : install encode decode pageSize mmap acquired target rounds context =
      some (result, session)) :
    (session.context.thunks = context.thunks ∧
        ∀ installer, result = .ok installer → context.getThunk target = .ok installer.thunk) ∨
      ∃ (installer : ErasedInstaller) (slot : ThunkSlot) (middle : ProcessContext),
        result = .ok installer ∧
        context.getThunk target = .error slot ∧ middle.thunks = context.thunks ∧
        middle.insertThunk pageSize mmap slot installer.thunk = some session.context := by
  unfold install at h
  cases acquired with
  | error err =>
    obtain ⟨rfl, rfl⟩ := Prod.mk.inj (Option.some.inj h)
    exact Or.inl ⟨rfl, by simp⟩
  | ok _ =>
    simp only at h
    cases hget : context.getThunk target with
    | ok thunk =>
      obtain ⟨rfl, rfl⟩ := Prod.mk.inj (Option.some.inj (by simpa only [hget] using h))
      refine Or.inl ⟨rfl, fun installer hi => ?_⟩
      obtain rfl := Except.ok.inj hi
      rfl
    | error slot =>
      simp only [hget] at h
      obtain ⟨-, hthunks, hok⟩ := settles_installLoop h
      cases result with
      | error failure => exact Or.inl ⟨hthunks failure rfl, by simp⟩
      | ok installer =>
        obtain ⟨_, _, _, _, t, -, -, hpatches, hinsert, -, -⟩ := hok installer rfl
        exact Or.inr ⟨installer, slot, t.context, rfl, rfl, hpatches.thunks, hinsert⟩

/-- What a step does to the entries. -/
inductive Effect (s : State) (call : Call pageSize) (l : List ThunkFn) : List ThunkFn → Prop where
  | keep : Effect s call l l
  | insert (slot : ThunkSlot) (thunk : ℕ) (hget : s.context.getThunk call.target = .error slot) :
      Effect s call l (l.insertIdx slot.index ⟨call.target, thunk⟩)

theorem registers_of_thunks {c c' : ProcessContext} (h : c.Registers l)
    (hthunks : c'.thunks = c.thunks) : c'.Registers l :=
  ⟨hthunks ▸ h.holds, h.sorted⟩

theorem getThunk_of_thunks {c c' : ProcessContext} (hthunks : c'.thunks = c.thunks) (a : ℕ) :
    c'.getThunk a = c.getThunk a := by
  simp only [ProcessContext.getThunk, hthunks]

theorem Inv.step (h : Inv s l) (hstep : step s call = some t) :
    ∃ l', Inv t l' ∧ Effect s call l l' := by
  obtain ⟨⟨result, session⟩, hinstall, rfl⟩ := Option.map_eq_some_iff.1 hstep
  rcases install_cases hinstall with
    ⟨hthunks, hok⟩ | ⟨installer, slot, middle, rfl, hget, hmiddle, hinsert⟩
  · refine ⟨l, ?_, Effect.keep⟩
    have hregisters := registers_of_thunks h.registers hthunks
    cases result with
    | error failure => exact ⟨hregisters, h.installed⟩
    | ok installer =>
      have hmem := h.getThunk_eq_ok_iff.1 (hok installer rfl)
      refine ⟨hregisters, fun a thunk => ?_⟩
      rw [h.installed, List.mem_append, List.mem_singleton]
      exact ⟨Or.inl, fun h => h.elim id fun heq => heq ▸ hmem⟩
  · obtain ⟨htarget, hindex, -⟩ := h.registers.getThunk_eq_error hget
    obtain ⟨-, hregisters⟩ := (registers_of_thunks h.registers hmiddle).insertThunk call.lawful
      ((getThunk_of_thunks hmiddle call.target).trans hget) hinsert
    refine ⟨_, ⟨hregisters, fun a thunk => ?_⟩, Effect.insert slot installer.thunk hget⟩
    rw [List.mem_insertIdx hindex, List.mem_append, List.mem_singleton, ← h.installed, or_comm]
    simp

theorem toOption_eq_some {ε α : Type*} {x : Except ε α} {a : α} :
    x.toOption = some a ↔ x = .ok a := by
  cases x <;> simp [Except.toOption]

/-- Every other address is looked up as before. -/
theorem Inv.getThunk_of_ne {l' : List ThunkFn} (h : Inv s l) (h' : Inv t l')
    (heffect : Effect s call l l') (ha : a ≠ call.target) :
    (t.context.getThunk a).toOption = (s.context.getThunk a).toOption := by
  refine Option.ext fun thunk => ?_
  rw [toOption_eq_some, toOption_eq_some, h'.registers.getThunk_eq_ok_iff,
    h.registers.getThunk_eq_ok_iff]
  cases heffect with
  | keep => rfl
  | insert slot thunk' hget =>
    obtain ⟨-, hindex, -⟩ := h.registers.getThunk_eq_error hget
    simp [List.mem_insertIdx hindex, ha]

theorem Inv.thunk_unique (h : Inv s l) {thunk' : ℕ} (hthunk : (a, thunk) ∈ s.installed)
    (hthunk' : (a, thunk') ∈ s.installed) : thunk = thunk' := by
  rw [← h.getThunk_eq_ok_iff] at hthunk hthunk'
  exact Except.ok.inj (hthunk.symm.trans hthunk')

/-- A lookup finds the thunk of the first installer that was returned for the address. -/
theorem Inv.getThunk_eq_find? (h : Inv s l) (a : ℕ) :
    (s.context.getThunk a).toOption =
      (s.installed.find? fun installed => installed.1 = a).map Prod.snd := by
  refine Option.ext fun thunk => ?_
  rw [toOption_eq_some, h.getThunk_eq_ok_iff, Option.map_eq_some_iff]
  constructor
  · intro hmem
    cases hfind : s.installed.find? fun installed => installed.1 = a with
    | none =>
      have hne := List.find?_eq_none.1 hfind _ hmem
      simp at hne
    | some first =>
      obtain rfl : first.1 = a := by simpa using List.find?_some hfind
      exact ⟨first, rfl, h.thunk_unique (List.mem_of_find?_eq_some hfind) hmem⟩
  · rintro ⟨first, hfind, rfl⟩
    obtain rfl : first.1 = a := by simpa using List.find?_some hfind
    exact List.mem_of_find?_eq_some hfind

end Inv

theorem inv_of_run {pageSize : ℕ} {calls : List (Call pageSize)} {s : State}
    (h : Transition.run step .init calls = some s) : ∃ l, Inv s l :=
  Transition.run_invariant_of_step (I := fun s => ∃ l, Inv s l)
    (fun _ _ _ ⟨_, hinv⟩ hstep =>
      let ⟨l', hinv', _⟩ := hinv.step hstep
      ⟨l', hinv'⟩) ⟨[], inv_init⟩ h

/-- After every sequence of installations the table is sorted, and a lookup finds the thunk
that was first returned for an address, and nothing for the others. All installers for one
target have that thunk. The next installation changes the lookup of no other address, and if
it inserts an entry then at the slot it looked up. -/
theorem thunkTable_of_run {pageSize : ℕ} {calls : List (Call pageSize)} {s : State}
    (h : Transition.run step .init calls = some s) :
    (s.context.thunks.asSlice.Pairwise fun x y => x.addr < y.addr) ∧
      (∀ a, (s.context.getThunk a).toOption =
        (s.installed.find? fun installed => installed.1 = a).map Prod.snd) ∧
      (∀ a thunk thunk', (a, thunk) ∈ s.installed → (a, thunk') ∈ s.installed →
        thunk = thunk') ∧
      ∀ (call : Call pageSize) (t : State), step s call = some t →
        (∀ a, a ≠ call.target →
          (t.context.getThunk a).toOption = (s.context.getThunk a).toOption) ∧
        (t.context.thunks.asSlice = s.context.thunks.asSlice ∨
          ∃ slot thunk, s.context.getThunk call.target = .error slot ∧
            t.context.thunks.asSlice =
              s.context.thunks.asSlice.insertIdx slot.index ⟨call.target, thunk⟩) := by
  obtain ⟨l, hinv⟩ := inv_of_run h
  refine ⟨?_, hinv.getThunk_eq_find?, fun a _ _ => hinv.thunk_unique, fun call t hstep => ?_⟩
  · rw [hinv.registers.holds.asSlice_eq]
    exact hinv.registers.sorted
  · obtain ⟨l', hinv', heffect⟩ := hinv.step hstep
    refine ⟨fun a ha => hinv.getThunk_of_ne hinv' heffect ha, ?_⟩
    rw [hinv'.registers.holds.asSlice_eq, hinv.registers.holds.asSlice_eq]
    cases heffect with
    | keep => exact Or.inl rfl
    | insert slot thunk hget => exact Or.inr ⟨slot, thunk, hget, rfl⟩

/-- Installations at one target : the first fails, the second patches the code, the third
finds the thunk. -/
def sampleCall (rounds : List Round) : Call 4096 where
  encode := pushSubEncode
  decode := decodeSample
  mmap len := if len ≤ 0x10000 then some 0x30000 else none
  lawful :=
    { page_pow := ⟨12, rfl⟩
      page_le := by decide
      aligned := by
        intro len ptr h
        split_ifs at h
        exact Option.some.inj h ▸ by decide
      fits := by
        intro len ptr h
        split_ifs at h with hlen
        obtain rfl := Option.some.inj h
        unfold isizeMax
        omega }
  acquired := .ok ()
  target := 0x1000
  rounds := rounds

theorem thunkTable_sampleCalls :
    ∃ s, Transition.run step .init [sampleCall [failingRound],
        sampleCall [sampleRound (pushSubSample.toList.take 8)], sampleCall []] = some s ∧
      s.installed = [(0x1000, 0x10ff8), (0x1000, 0x10ff8)] ∧
      (s.context.getThunk 0x1000).toOption =
        (s.installed.find? fun installed => installed.1 = 0x1000).map Prod.snd := by
  have hinstalled : (Transition.run step .init [sampleCall [failingRound],
      sampleCall [sampleRound (pushSubSample.toList.take 8)], sampleCall []]).map
        State.installed = some [(0x1000, 0x10ff8), (0x1000, 0x10ff8)] := by
    decide +kernel
  obtain ⟨s, hrun, heq⟩ := Option.map_eq_some_iff.1 hinstalled
  exact ⟨s, hrun, heq, (thunkTable_of_run hrun).2.1 0x1000⟩

end ThunkTable

end Diversion
