import Diversion.EncodeAt
import Diversion.Lib.Substitution

/-!
# Relocating suspended threads

Before a jump is written over a function, `suspend_and_reloc_other_threads`
(src/installer/arch/os/linux.rs) suspends the other threads of the process and moves those
that stand in the part to be overwritten to the copy in the trampoline, as the table of
`encode_at` says. If another writer got there first, `undo_relocs` maps them back by
looking for an entry whose `toIp` is where the thread is now.

Both are substitutions along the table. `restorable_iff` says when the second undoes the
first at a thread : the entries of a run of rewritten instructions all have the same
`toIp`, so a thread at any but the first of them comes back at the first, and a thread the
table never moved is carried off if it stands at an address the decoder pass made up.
-/

namespace Diversion

/-! ## Threads -/

/-- Another thread of the process. A thread that can be suspended stops somewhere. -/
structure OtherThread where
  id : ℕ
  stopsAt : Option ℕ

/-- `Thread` : `value` is what its channel holds, the instruction pointer to resume at. -/
structure Thread where
  id : ℤ
  isSuspended : Bool
  value : ℕ
deriving DecidableEq, Repr

namespace Thread

/-- A thread that was suspended. -/
def new (id : ℕ) : Thread :=
  ⟨id, true, 1⟩

/-- A thread that does not answer the signal gets id -1. -/
def suspend (other : OtherThread) : Thread :=
  match other.stopsAt with
  | some ip => { new other.id with value := ip }
  | none => { new other.id with id := -1 }

/-- `Thread::set_ip_if` : a thread that is gone is left alone. -/
def setIpIf (f : ℕ → Option ℕ) (thread : Thread) : Option ℕ × Thread :=
  if thread.id < 0 then (none, thread)
  else
    match f thread.value with
    | some newIp => (some newIp, { thread with value := newIp })
    | none => (some thread.value, thread)

/-- Where the thread resumes, if it is suspended. -/
def resumesAt (thread : Thread) : Option ℕ :=
  if thread.id < 0 then none else some thread.value

end Thread

/-- `ThreadSuspendGuard`, the suspended threads with the table to undo. -/
structure ThreadSuspendGuard where
  threads : List Thread
  relocs : List IpReloc

/-- `suspend_other_threads`, of which only the listing can fail. -/
def suspendOtherThreads (others : Except IoError (List OtherThread)) :
    Except IoError (List Thread) :=
  others.map fun others => others.map Thread.suspend

/-- `Iterator::reduce`. -/
def reduce {α : Type} (f : α → α → α) : List α → Option α
  | [] => none
  | a :: l => some (l.foldl f a)

/-- The range any relocations would occur in. -/
def minMaxIp (relocs : List IpReloc) : Option (ℕ × ℕ) :=
  reduce (fun a b => (min a.1 b.1, max a.2 b.2))
    (relocs.map fun reloc => (reloc.fromIp, reloc.fromIp))

/-- Map an instruction pointer from `fromIp` to `toIp`. -/
def relocIp (relocs : List IpReloc) (minIp maxIp ip : ℕ) : Option ℕ :=
  if minIp ≤ ip ∧ ip ≤ maxIp then
    (relocs.find? fun reloc => ip = reloc.fromIp).map IpReloc.toIp
  else none

/-- `suspend_and_reloc_other_threads`. Without a table nobody is suspended. -/
def suspendAndRelocOtherThreads (others : Except IoError (List OtherThread))
    (relocs : List IpReloc) : Except IoError ThreadSuspendGuard :=
  match minMaxIp relocs with
  | none => .ok ⟨[], relocs⟩
  | some (minIp, maxIp) => do
    let threads ← suspendOtherThreads others
    .ok ⟨threads.map fun thread => (thread.setIpIf (relocIp relocs minIp maxIp)).2, relocs⟩

/-- The inverse of `suspendAndRelocOtherThreads` : map from `toIp` to `fromIp`. -/
def ThreadSuspendGuard.undoRelocs (guard : ThreadSuspendGuard) : ThreadSuspendGuard :=
  { guard with
    threads := guard.threads.map fun thread =>
      if thread.isSuspended then
        (thread.setIpIf fun ip =>
          (guard.relocs.find? fun r => ip = r.toIp).map IpReloc.fromIp).2
      else thread }

/-- Failures of an installation. -/
inductive InstallError where
  | error (e : Error)
  | tryAgain

/-- `suspend_and_detour`, given whether the compare-exchange of `detour` succeeds. The guard
is as it is dropped, when the threads resume. -/
def suspendAndDetour (others : Except IoError (List OtherThread)) (relocs : List IpReloc)
    (detoured : Bool) : Except InstallError Unit × Option ThreadSuspendGuard :=
  match suspendAndRelocOtherThreads others relocs with
  | .error err => (.error (.error (.suspend err)), none)
  | .ok guard =>
    if detoured then (.ok (), some guard) else (.error .tryAgain, some guard.undoRelocs)

/-- Where the other threads go on. A guard without threads has suspended none. -/
def resumeIps (others : List OtherThread) (guard : ThreadSuspendGuard) : List (Option ℕ) :=
  if guard.threads = [] then others.map OtherThread.stopsAt
  else guard.threads.map Thread.resumesAt

/-! ## Both ways are substitutions -/

section Substitution

open Substitution

variable {relocs : List IpReloc} {minIp maxIp ip : ℕ}

theorem foldl_minMax_bounds {l : List (ℕ × ℕ)} {a : ℕ × ℕ} :
    (l.foldl (fun a b => (min a.1 b.1, max a.2 b.2)) a).1 ≤ a.1 ∧
      a.2 ≤ (l.foldl (fun a b => (min a.1 b.1, max a.2 b.2)) a).2 ∧
      ∀ b ∈ l, (l.foldl (fun a b => (min a.1 b.1, max a.2 b.2)) a).1 ≤ b.1 ∧
        b.2 ≤ (l.foldl (fun a b => (min a.1 b.1, max a.2 b.2)) a).2 := by
  induction l generalizing a with
  | nil => simp
  | cons b l ih =>
    obtain ⟨hmin, hmax, hmem⟩ := ih (a := (min a.1 b.1, max a.2 b.2))
    rw [List.foldl_cons]
    refine ⟨hmin.trans (min_le_left _ _), (le_max_left _ _).trans hmax, fun c hc => ?_⟩
    rcases List.mem_cons.1 hc with rfl | hc
    · exact ⟨hmin.trans (min_le_right _ _), (le_max_right _ _).trans hmax⟩
    · exact hmem c hc

/-- The filter excludes no entry. -/
theorem mem_minMaxIp (h : minMaxIp relocs = some (minIp, maxIp)) {r : IpReloc} (hr : r ∈ relocs) :
    minIp ≤ r.fromIp ∧ r.fromIp ≤ maxIp := by
  cases relocs with
  | nil => cases hr
  | cons r₀ relocs =>
    rw [minMaxIp, List.map_cons, reduce, Option.some.injEq] at h
    obtain ⟨hmin, hmax, hmem⟩ := foldl_minMax_bounds
      (l := relocs.map fun reloc => (reloc.fromIp, reloc.fromIp)) (a := (r₀.fromIp, r₀.fromIp))
    rw [h] at hmin hmax hmem
    rcases List.mem_cons.1 hr with rfl | hr
    · exact ⟨hmin, hmax⟩
    · exact hmem _ (List.mem_map_of_mem hr)

theorem minMaxIp_eq_none_iff : minMaxIp relocs = none ↔ relocs = [] := by
  cases relocs <;> simp [minMaxIp, reduce]

theorem relocIp_getD (h : minMaxIp relocs = some (minIp, maxIp)) :
    (relocIp relocs minIp maxIp ip).getD ip =
      subst IpReloc.fromIp IpReloc.toIp relocs ip := by
  unfold relocIp
  split_ifs with hrange
  · rfl
  · refine (subst_of_forall_ne fun r hr heq => hrange ?_).symm
    have := mem_minMaxIp h hr
    rw [heq] at this
    exact this

theorem Thread.setIpIf_resumesAt (f : ℕ → Option ℕ) (thread : Thread) :
    (thread.setIpIf f).2.resumesAt = thread.resumesAt.map fun ip => (f ip).getD ip := by
  by_cases hid : thread.id < 0
  · simp [setIpIf, resumesAt, hid]
  · cases hf : f thread.value <;> simp [setIpIf, resumesAt, hid, hf]

@[simp] theorem Thread.setIpIf_isSuspended (f : ℕ → Option ℕ) (thread : Thread) :
    (thread.setIpIf f).2.isSuspended = thread.isSuspended := by
  unfold setIpIf
  split_ifs
  · rfl
  · split <;> rfl

theorem Thread.suspend_resumesAt (other : OtherThread) :
    (Thread.suspend other).resumesAt = other.stopsAt := by
  cases h : other.stopsAt with
  | none => simp [suspend, resumesAt, h]
  | some ip => simp [suspend, resumesAt, new, h]

theorem Thread.suspend_isSuspended (other : OtherThread) :
    (Thread.suspend other).isSuspended = true := by
  unfold suspend
  split <;> rfl

/-- Suspending moves the threads along the table, and undoing moves them back along it. -/
theorem exists_suspendAndReloc (others : List OtherThread) (relocs : List IpReloc) :
    ∃ guard, suspendAndRelocOtherThreads (.ok others) relocs = .ok guard ∧
      resumeIps others guard =
        others.map (fun other => other.stopsAt.map (subst IpReloc.fromIp IpReloc.toIp relocs)) ∧
      resumeIps others guard.undoRelocs =
        others.map (fun other => other.stopsAt.map fun ip =>
          subst IpReloc.toIp IpReloc.fromIp relocs
            (subst IpReloc.fromIp IpReloc.toIp relocs ip)) := by
  unfold suspendAndRelocOtherThreads
  cases hrange : minMaxIp relocs with
  | none =>
    obtain rfl := minMaxIp_eq_none_iff.1 hrange
    have hid : ∀ key val : IpReloc → ℕ, subst key val [] = id := fun _ _ => rfl
    refine ⟨_, rfl, ?_, ?_⟩ <;>
      simp [resumeIps, ThreadSuspendGuard.undoRelocs, hid]
  | some range =>
    obtain ⟨minIp, maxIp⟩ := range
    refine ⟨_, rfl, ?_⟩
    have hforward : ∀ other : OtherThread, ((Thread.suspend other).setIpIf
        (relocIp relocs minIp maxIp)).2.resumesAt =
          other.stopsAt.map (subst IpReloc.fromIp IpReloc.toIp relocs) := by
      intro other
      rw [Thread.setIpIf_resumesAt, Thread.suspend_resumesAt]
      exact congrArg (Option.map · other.stopsAt) (funext fun ip => relocIp_getD hrange)
    have hback : ∀ other : OtherThread, (((Thread.suspend other).setIpIf
        (relocIp relocs minIp maxIp)).2.setIpIf fun ip =>
          (relocs.find? fun r => ip = r.toIp).map IpReloc.fromIp).2.resumesAt =
          other.stopsAt.map fun ip => subst IpReloc.toIp IpReloc.fromIp relocs
            (subst IpReloc.fromIp IpReloc.toIp relocs ip) := by
      intro other
      rw [Thread.setIpIf_resumesAt, hforward, Option.map_map]
      rfl
    cases others with
    | nil => exact ⟨rfl, rfl⟩
    | cons other others =>
      simp [resumeIps, ThreadSuspendGuard.undoRelocs, Thread.suspend_isSuspended, hforward, hback]

end Substitution

/-! ## The table of an accepted site -/

section Table

variable {decode : Decode} {insns kept : List Instruction} {ip i j : ℕ} {encoded : Encoded}
  {layout : BlockLayout} {r : IpReloc}

theorem getElem?_relocTable_eq_some : (relocTable layout ip kept)[i]? = some r ↔
    ∃ insn, kept[i + 1]? = some insn ∧ r = ⟨insn.ip, layout.relocTarget ip (i + 1)⟩ := by
  rw [relocTable, List.getElem?_mapIdx, List.getElem?_drop, Nat.add_comm 1 i,
    Option.map_eq_some_iff]
  exact exists_congr fun insn => and_congr_right fun _ => eq_comm

theorem map_fromIp_relocTable :
    (relocTable layout ip kept).map IpReloc.fromIp = (kept.drop 1).map Instruction.ip := by
  refine List.ext_getElem? fun i => ?_
  rw [relocTable, List.getElem?_map, List.getElem?_mapIdx, List.getElem?_map, Option.map_map]
  rfl

theorem BlockLayout.strayIp_mono (h : i ≤ j) : layout.strayIp i ≤ layout.strayIp j := by
  induction h with
  | refl => exact le_rfl
  | step _ ih => exact ih.trans (Nat.le_add_right _ _)

theorem Lays.startOf_lt (h : Lays decode insns ip encoded layout) (hij : i < j)
    (hj : j ≤ layout.length) : layout.startOf i < layout.startOf j := by
  induction hij with
  | refl => exact h.startOf_lt_succ hj
  | step _ ih => exact (ih (by omega)).trans (h.startOf_lt_succ (by omega))

/-- Entries in front of an entry with its target : the instruction was rewritten together
with the one before it. -/
theorem exists_relocTarget_eq_iff (hL : Lays decode insns ip encoded layout)
    (hbuf : encoded.codeBuffer.length ≤ ip) (hj : j < layout.length) :
    (∃ i, 1 ≤ i ∧ i < j ∧ layout.relocTarget ip i = layout.relocTarget ip j) ↔
      2 ≤ j ∧ layout.rewritten j = true ∧ layout.rewritten (j - 1) = true := by
  have hend := (hL.startOf_lt_succ hj).trans_le hL.startOf_le
  constructor
  · rintro ⟨i, hi, hij, heq⟩
    have hlt := hL.startOf_lt hij hj.le
    have hstray := layout.strayIp_le_startOf (i := i)
    have hstrayj := layout.strayIp_le_startOf (i := j)
    obtain ⟨j, rfl⟩ : ∃ k, j = k + 1 := ⟨j - 1, by omega⟩
    -- a stray address is below the buffer, so only two of them can agree
    have hrw : layout.rewritten i = true ∧ layout.rewritten (j + 1) = true := by
      unfold BlockLayout.relocTarget at heq
      cases hri : layout.rewritten i <;> cases hrj : layout.rewritten (j + 1) <;>
        simp only [hri, hrj, if_true, Bool.false_eq_true, if_false] at heq <;> first | omega | simp
    rw [BlockLayout.relocTarget, BlockLayout.relocTarget, if_pos hrw.1, if_pos hrw.2] at heq
    have hmono := layout.strayIp_mono (show i ≤ j by omega)
    have hrun : layout.startsRun (j + 1) = false := by
      by_contra hrun
      have := hL.firstLen_pos (i := j) (by omega)
      rw [BlockLayout.strayIp_succ_of_startsRun (by simpa using hrun)] at heq
      omega
    refine ⟨by omega, hrw.2, ?_⟩
    simpa [BlockLayout.startsRun, hrw.2, show j ≠ 0 by omega] using hrun
  · rintro ⟨htwo, hrj, hri⟩
    obtain ⟨j, rfl⟩ : ∃ k, j = k + 1 := ⟨j - 1, by omega⟩
    refine ⟨j, by omega, by omega, ?_⟩
    rw [Nat.add_sub_cancel] at hri
    rw [BlockLayout.relocTarget, BlockLayout.relocTarget, if_pos hri, if_pos hrj]
    refine (BlockLayout.strayIp_succ_of_not_startsRun ?_).symm
    simp [BlockLayout.startsRun, hri, show j ≠ 0 by omega]

/-- A thread at `p` stands at an instruction that was rewritten together with the one before
it, and was relocated. -/
def InRun (kept : List Instruction) (layout : BlockLayout) (p : ℕ) : Prop :=
  ∃ i insn, 2 ≤ i ∧ kept[i]? = some insn ∧ insn.ip = p ∧ layout.rewritten i = true ∧
    layout.rewritten (i - 1) = true

/-- A thread at `p` stands at no relocated instruction, but where the decoder pass says that
a rewritten one went. -/
def AtStray (kept : List Instruction) (layout : BlockLayout) (p : ℕ) : Prop :=
  (∀ i insn, 1 ≤ i → kept[i]? = some insn → insn.ip ≠ p) ∧
    ∃ i, 1 ≤ i ∧ i < kept.length ∧ layout.rewritten i = true ∧ layout.strayIp i = p

/-- Undoing brings a thread back to `p` exactly if it stands neither within a run nor at a
stray address. -/
theorem restorable_iff {p : ℕ} (hL : Lays decode insns ip encoded layout)
    (hbuf : encoded.codeBuffer.length ≤ ip) (hlen : kept.length ≤ layout.length)
    (hnodup : (kept.map Instruction.ip).Nodup)
    (hout : p < ip ∨ ip + encoded.codeBuffer.length ≤ p) :
    Substitution.subst IpReloc.toIp IpReloc.fromIp (relocTable layout ip kept)
        (Substitution.subst IpReloc.fromIp IpReloc.toIp (relocTable layout ip kept) p) = p ↔
      ¬InRun kept layout p ∧ ¬AtStray kept layout p := by
  have hkeys : ((relocTable layout ip kept).map IpReloc.fromIp).Nodup := by
    rw [map_fromIp_relocTable, List.map_drop]
    exact hnodup.sublist (List.drop_sublist _ _)
  rw [Substitution.subst_subst_eq_iff hkeys]
  refine and_congr ⟨fun h => ?_, fun h => ?_⟩ ⟨fun h => ?_, fun h => ?_⟩
  · rintro ⟨j, insn, hj, hget, rfl, hrj, hrj'⟩
    obtain ⟨hlt, -⟩ := List.getElem?_eq_some_iff.1 hget
    obtain ⟨i, hi, hij, heq⟩ := (exists_relocTarget_eq_iff hL hbuf (by omega)).2 ⟨hj, hrj, hrj'⟩
    have hget' := List.getElem?_eq_getElem (show i < kept.length by omega)
    exact h (j - 1) _ (getElem?_relocTable (by omega) hget) rfl (i - 1) _ (by omega)
      (getElem?_relocTable hi hget') heq
  · intro j r hj hkey i r' hij hi heq
    obtain ⟨insn, hget, rfl⟩ := getElem?_relocTable_eq_some.1 hj
    obtain ⟨insn', hget', rfl⟩ := getElem?_relocTable_eq_some.1 hi
    obtain ⟨hlt, -⟩ := List.getElem?_eq_some_iff.1 hget
    obtain ⟨htwo, hrj, hrj'⟩ := (exists_relocTarget_eq_iff hL hbuf (j := j + 1) (by omega)).1
      ⟨i + 1, by omega, by omega, heq⟩
    exact h ⟨j + 1, insn, htwo, hget, hkey, hrj, hrj'⟩
  · rintro ⟨hne, j, hj, hlt, hrj, hstray⟩
    have hget := List.getElem?_eq_getElem hlt
    refine h (fun r hr hkey => ?_) _ (List.mem_of_getElem? (getElem?_relocTable hj hget)) ?_
    · obtain ⟨i, hi⟩ := List.getElem?_of_mem hr
      obtain ⟨insn, hget', rfl⟩ := getElem?_relocTable_eq_some.1 hi
      exact hne (i + 1) insn (by omega) hget' hkey
    · rw [← hstray, BlockLayout.relocTarget, if_pos hrj]
  · intro hne r hr hval
    obtain ⟨j, hj⟩ := List.getElem?_of_mem hr
    obtain ⟨insn, hget, rfl⟩ := getElem?_relocTable_eq_some.1 hj
    obtain ⟨hlt, -⟩ := List.getElem?_eq_some_iff.1 hget
    have hend := (hL.startOf_lt_succ (i := j + 1) (by omega)).trans_le hL.startOf_le
    have hval : layout.relocTarget ip (j + 1) = p := hval
    unfold BlockLayout.relocTarget at hval
    split_ifs at hval with hrj
    · refine h ⟨fun i insn' hi hget' hkey => ?_, j + 1, by omega, hlt, hrj, hval⟩
      exact hne _ (List.mem_of_getElem? (getElem?_relocTable hi hget')) hkey
    · -- the thread is not in the buffer
      omega

end Table

/-! ## Suspending, and giving up -/

/-- Suspending moves exactly the threads that stand at the `fromIp` of an entry, each to its
`toIp`. -/
structure MovesExactly (others : List OtherThread) (relocs : List IpReloc)
    (guard : ThreadSuspendGuard) : Prop where
  length : (resumeIps others guard).length = others.length
  moved : ∀ (k : ℕ) other r, others[k]? = some other → r ∈ relocs → other.stopsAt = some r.fromIp →
    (resumeIps others guard)[k]? = some (some r.toIp)
  stays : ∀ (k : ℕ) other, others[k]? = some other → (∀ r ∈ relocs, other.stopsAt ≠ some r.fromIp) →
    (resumeIps others guard)[k]? = some other.stopsAt

/-- The threads are moved as the table says, and if the compare-exchange fails every one of
them goes on where it stopped. -/
structure KeepsThreads (others : List OtherThread) (relocs : List IpReloc) : Prop where
  detoured : ∃ guard, suspendAndDetour (.ok others) relocs true = (.ok (), some guard) ∧
    MovesExactly others relocs guard
  undone : ∃ guard, suspendAndDetour (.ok others) relocs false =
      (.error .tryAgain, some guard) ∧
    resumeIps others guard = others.map OtherThread.stopsAt

/-- Along a table without repeated keys threads are moved exactly. -/
theorem movesExactly {others : List OtherThread} {relocs : List IpReloc}
    {guard : ThreadSuspendGuard} (hnodup : (relocs.map IpReloc.fromIp).Nodup)
    (h : resumeIps others guard = others.map fun other =>
      other.stopsAt.map (Substitution.subst IpReloc.fromIp IpReloc.toIp relocs)) :
    MovesExactly others relocs guard where
  length := by rw [h, List.length_map]
  moved := by
    intro k other r hk hr hstop
    rw [h, List.getElem?_map, hk, Option.map_some, hstop, Option.map_some,
      Substitution.subst_of_mem hnodup hr]
  stays := by
    intro k other hk hne
    rw [h, List.getElem?_map, hk, Option.map_some]
    cases hstop : other.stopsAt with
    | none => rfl
    | some ip =>
      rw [Option.map_some, Substitution.subst_of_forall_ne fun r hr heq =>
        hne r hr (hstop.trans (congrArg some heq.symm))]

/-- For the table of an accepted site, threads that stand outside of the buffer are moved as
the table says and are all restored if and only if none of them stands within a run of
rewritten instructions or at a stray address. -/
theorem keepsThreads_iff {encode : Encode} {decode decode' : Decode} {addr ip : ℕ}
    {bytes : Vector UInt8 disasmLen} {site : HookSite} {encoded : Encoded} {layout : BlockLayout}
    {relocs : List IpReloc} {others : List OtherThread} (hdecode : LawfulDecode decode')
    (hsite : HookSite.analyze decode' addr bytes = .ok site)
    (henc : encode site.insns ip = .ok encoded) (hL : Lays decode site.insns ip encoded layout)
    (hlow : encoded.codeBuffer.length ≤ ip) (hfit : ip + encoded.codeBuffer.length ≤ wordSize)
    (hrelocs : site.encodeAt encode decode ip = .ok (encoded.codeBuffer, relocs))
    (hout : ∀ other ∈ others, ∀ p, other.stopsAt = some p →
      p < ip ∨ ip + encoded.codeBuffer.length ≤ p) :
    KeepsThreads others relocs ↔ ∀ other ∈ others, ∀ p, other.stopsAt = some p →
      ¬InRun site.kept layout p ∧ ¬AtStray site.kept layout p := by
  obtain ⟨-, htake, -, hkept⟩ := HookSite.of_ofInsns (HookSite.ofInsns_of_analyze hsite)
  obtain rfl : relocs = relocTable layout ip site.kept := by
    rw [HookSite.encodeAt_eq hkept henc hL hfit] at hrelocs
    exact (Prod.mk.inj (Except.ok.inj hrelocs)).2.symm
  have hnodup : (site.kept.map Instruction.ip).Nodup := by
    rw [htake, List.map_take]
    exact (hdecode.nodup_ip (by rw [Vector.length_toList]; decide)).sublist
      (List.take_sublist _ _)
  have hlen : site.kept.length ≤ layout.length := hL.length ▸ site.kept_length_le
  have hkeys : ((relocTable layout ip site.kept).map IpReloc.fromIp).Nodup := by
    rw [map_fromIp_relocTable, List.map_drop]
    exact hnodup.sublist (List.drop_sublist _ _)
  obtain ⟨guard, hguard, hforward, hback⟩ :=
    exists_suspendAndReloc others (relocTable layout ip site.kept)
  have hrestore : resumeIps others guard.undoRelocs = others.map OtherThread.stopsAt ↔
      ∀ other ∈ others, ∀ p, other.stopsAt = some p →
        ¬InRun site.kept layout p ∧ ¬AtStray site.kept layout p := by
    rw [hback, List.map_inj_left]
    refine forall₂_congr fun other hother => ?_
    cases hstop : other.stopsAt with
    | none => simp
    | some p =>
      have := restorable_iff hL hlow hlen hnodup (hout other hother p hstop)
      simp [this]
  constructor
  · rintro ⟨-, guard', hguard', hsame⟩
    simp only [suspendAndDetour, hguard, Bool.false_eq_true, if_false, Prod.mk.injEq,
      Option.some.injEq, true_and] at hguard'
    rw [← hguard'] at hsame
    exact hrestore.1 hsame
  · intro h
    refine ⟨⟨guard, ?_, movesExactly hkeys hforward⟩, guard.undoRelocs, ?_, hrestore.2 h⟩ <;>
      simp [suspendAndDetour, hguard]

/-! ## Two sites -/

/-- A thread at the `sub` of a site nothing was rewritten of. -/
theorem keepsThreads_pushSub : KeepsThreads [⟨7, some 0x1001⟩] [⟨0x1001, 0x2001⟩] := by
  have henc : pushSubEncode pushSubSite.insns 0x2000 = .ok (pushSubLayout.encoded [] 0x2000) := rfl
  have hrw : ∀ i, pushSubLayout.rewritten i = false := fun i =>
    BlockLayout.rewritten_eq_false (by simp [pushSubLayout])
  refine (keepsThreads_iff lawfulDecode_decodeSample analyze_pushSubSample henc lays_pushSub
    (by decide) (by decide) rfl (by simp)).2 fun _ _ _ _ => ⟨?_, ?_⟩
  · rintro ⟨i, insn, -, -, -, h, -⟩
    rw [hrw] at h
    cases h
  · rintro ⟨-, i, -, -, h, -⟩
    rw [hrw] at h
    cases h

/-- `push rbp; je 0x1013; jne 0x1025`, behind it `int3`. -/
def pushJeJneSample : Vector UInt8 disasmLen :=
  ⟨#[0x55, 0x74, 0x10, 0x75, 0x20, 0xcc, 0xcc, 0xcc, 0xcc, 0xcc, 0xcc, 0xcc, 0xcc, 0xcc, 0xcc,
    0xcc, 0xcc, 0xcc, 0xcc], rfl⟩

/-- A site with two short jumps. -/
def pushJeJneSite : HookSite where
  bytes := pushJeJneSample
  insns := [⟨.other 2, 0x1000, 1, .next, none, none⟩,
    ⟨.other 5, 0x1001, 2, .conditionalBranch, none, none⟩,
    ⟨.other 6, 0x1003, 2, .conditionalBranch, none, none⟩, .jmpRel32 0x1005]
  minRelAddr := 0x1005
  maxRelAddr := 0x1005
  targetAddr := 0x1000
  trampolineTargetAddr := 0x1005
  willBranch := false

/-- Far from the target each of the branches becomes one over an indirect jump. -/
def pushJeJneLayout : BlockLayout :=
  [⟨[[0x55]], false⟩, ⟨[[0x75, 0x06], [0xff, 0x25, 17, 0, 0, 0]], true⟩,
    ⟨[[0x74, 0x06], [0xff, 0x25, 17, 0, 0, 0]], true⟩, ⟨[[0xff, 0x25, 19, 0, 0, 0]], true⟩]

/-- The three pointers, aligned. -/
def pushJeJnePointers : List UInt8 :=
  [0xcc, 0x13, 0x10, 0, 0, 0, 0, 0, 0, 0x25, 0x10, 0, 0, 0, 0, 0, 0, 0x05, 0x10, 0, 0, 0, 0, 0, 0]

/-- An encoder that has to make them longer. -/
def pushJeJneEncode : Encode := fun _ ip =>
  .ok (pushJeJneLayout.encoded pushJeJnePointers ip)

theorem lays_pushJeJne : Lays decodeSample pushJeJneSite.insns 0x7f0000000000
    (pushJeJneLayout.encoded pushJeJnePointers 0x7f0000000000) pushJeJneLayout where
  rip := rfl
  length := rfl
  code := ⟨_, rfl⟩
  offsets := rfl
  short := by decide
  machine := by simp [pushJeJneLayout]
  single := by simp [pushJeJneLayout]
  decodes := by simp [pushJeJneLayout, decodeSample, opcodeSample]

/-- A thread at the `jne` is undone to the `je`. -/
theorem not_keepsThreads_pushJeJne :
    HookSite.analyze decodeSample 0x1000 pushJeJneSample = .ok pushJeJneSite ∧
      Lays decodeSample pushJeJneSite.insns 0x7f0000000000
        (pushJeJneLayout.encoded pushJeJnePointers 0x7f0000000000) pushJeJneLayout ∧
      pushJeJneSite.encodeAt pushJeJneEncode decodeSample 0x7f0000000000 =
        .ok ((pushJeJneLayout.encoded pushJeJnePointers 0x7f0000000000).codeBuffer,
          [⟨0x1001, 1⟩, ⟨0x1003, 1⟩]) ∧
      ¬KeepsThreads [⟨7, some 0x1003⟩] [⟨0x1001, 1⟩, ⟨0x1003, 1⟩] := by
  refine ⟨rfl, lays_pushJeJne, rfl, ?_⟩
  rintro ⟨-, guard, hguard, hsame⟩
  obtain rfl := Option.some.inj (Prod.mk.inj hguard).2
  exact absurd hsame (by decide)

end Diversion
