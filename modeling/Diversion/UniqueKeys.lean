import Diversion.Lib.Extent
import Mathlib.Algebra.Group.Nat.Defs

/-!
# Duplicate register access

The arguments of a hook are registers of the saved context. Those that can be dereferenced have
a key, and `call_with_resolved` (src/hook/custom/place.rs) is not compiled if two arguments have
the same one (`has_dupes`). As long as its keys are in the 32 slots, what it accepts does not
alias : the bytes of the context that two arguments can access are disjoint
(`aliasFree_iff`). The names `Zmm30` and `Zmm31` have keys that are not.
-/

namespace Diversion

open Extent

/-- An argument type, with the size of its value for a general register. -/
inductive Argument where
  | gpr (size n : ℕ)
  | flag (n : ℕ)
  | st (n : ℕ)
  | xmm (n : ℕ)
  | ymm (n : ℕ)
  | zmm (n : ℕ)
  | kmask (n : ℕ)
  /-- A pointer to one of the areas of the context. -/
  | area
deriving DecidableEq, Repr

namespace Argument

/-- The key `UNIQUE`. -/
def unique : Argument → Option ℕ
  | gpr _ n => some n
  | xmm n | ymm n => some (n + 16)
  | zmm n => if n < 16 then some (n + 16) else none
  | flag _ | st _ | kmask _ | area => none

/-- The registers there are. The names `Zmm30` and `Zmm31` stand for `Ymm<30>` and `Ymm<31>`. -/
def IsRegister : Argument → Prop
  | gpr size n => size ≤ 8 ∧ n < 16
  | flag n => n < 32
  | st n | kmask n => n < 8
  | xmm n => n < 16
  | ymm n => n < 16 ∨ n = 30 ∨ n = 31
  | zmm n => n < 32
  | area => True

/-- The offset of `regs` in the saved context. -/
def regsOffset : ℕ :=
  4 + 4

/-- The offset of `xsave.legacy.xmm_regs`, behind the 16 registers and a reserved one. -/
def xmmOffset : ℕ :=
  regsOffset + 8 * 16 + 8 + (32 + 16 * 8)

/-- The bytes of the context that a dereferenced argument can access. `deref_mut` clears the
upper half of a register for a type of 4 bytes. -/
def bytes : Argument → Option (Extent ℕ)
  | gpr size n =>
    let start := regsOffset + 8 * n
    some ⟨start, start + if size = 4 then 8 else size⟩
  | xmm n => some ⟨xmmOffset + 16 * n, xmmOffset + 16 * n + 16⟩
  | _ => none

end Argument

/-- The loop of `has_dupes`, `none` if it indexes out of bounds. -/
def hasDupesLoop : List (Option ℕ) → List Bool → Bool → Option Bool
  | [], _, dupes => some dupes
  | none :: unique, slots, dupes => hasDupesLoop unique slots dupes
  | some key :: unique, slots, dupes =>
    match slots[key]? with
    | some slot => hasDupesLoop unique (slots.set key true) (dupes || slot)
    | none => none

/-- `has_dupes`, `none` where an index is out of bounds. -/
def hasDupes (unique : List (Option ℕ)) : Option Bool :=
  hasDupesLoop unique (List.replicate 32 false) false

/-- Two entries carry the same key. -/
def Repeats (unique : List (Option ℕ)) : Prop :=
  ∃ (i j key : ℕ), i < j ∧ unique[i]? = some (some key) ∧ unique[j]? = some (some key)

/-! ## The loop -/

section Loop

variable {unique : List (Option ℕ)} {slots : List Bool} {dupes : Bool} {key : ℕ}

theorem not_repeats_nil : ¬Repeats [] := by
  rintro ⟨i, j, key, -, hi, -⟩
  simp at hi

theorem repeats_cons {a : Option ℕ} : Repeats (a :: unique) ↔
    (∃ key, a = some key ∧ some key ∈ unique) ∨ Repeats unique := by
  constructor
  · rintro ⟨i, j, key, hij, hi, hj⟩
    obtain ⟨j, rfl⟩ := Nat.exists_eq_add_one.2 (Nat.zero_lt_of_lt hij)
    rw [List.getElem?_cons_succ] at hj
    cases i with
    | zero => exact Or.inl ⟨key, by simpa using hi, List.mem_of_getElem? hj⟩
    | succ i => exact Or.inr ⟨i, j, key, by omega, by simpa using hi, hj⟩
  · rintro (⟨key, rfl, hmem⟩ | ⟨i, j, key, hij, hi, hj⟩)
    · obtain ⟨j, hj⟩ := List.getElem?_of_mem hmem
      exact ⟨0, j + 1, key, by omega, rfl, hj⟩
    · exact ⟨i + 1, j + 1, key, by omega, hi, hj⟩

/-- The loop stays in bounds exactly if all keys do. -/
theorem hasDupesLoop_isSome : (hasDupesLoop unique slots dupes).isSome ↔
    ∀ key, some key ∈ unique → key < slots.length := by
  induction unique generalizing slots dupes with
  | nil => simp [hasDupesLoop]
  | cons a unique ih =>
    cases a with
    | none => simpa [hasDupesLoop] using ih
    | some key =>
      rcases Nat.lt_or_ge key slots.length with hlt | hge
      · simp only [hasDupesLoop, List.getElem?_eq_getElem hlt, ih, List.length_set, List.mem_cons,
          Option.some.injEq]
        constructor
        · rintro h k (rfl | hk)
          · exact hlt
          · exact h k hk
        · exact fun h k hk => h k (Or.inr hk)
      · simp only [hasDupesLoop, List.getElem?_eq_none hge, Option.isSome_none, Bool.false_eq_true,
          false_iff]
        exact fun h => absurd (h key (by simp)) (Nat.not_lt.2 hge)

/-- What is found : a key that was marked before, or one that comes twice. -/
theorem hasDupesLoop_eq_true_iff (hin : ∀ key, some key ∈ unique → key < slots.length) :
    hasDupesLoop unique slots dupes = some true ↔
      dupes = true ∨ (∃ key, some key ∈ unique ∧ slots[key]? = some true) ∨ Repeats unique := by
  induction unique generalizing slots dupes with
  | nil => simp [hasDupesLoop, not_repeats_nil]
  | cons a unique ih =>
    cases a with
    | none =>
      rw [hasDupesLoop, ih fun k hk => hin k (by simp [hk]), repeats_cons]
      simp
    | some key =>
      have hlt := hin key (by simp)
      have hin' : ∀ k, some k ∈ unique → k < (slots.set key true).length := fun k hk => by
        rw [List.length_set]
        exact hin k (by simp [hk])
      have hset : ∀ k, (slots.set key true)[k]? = some true ↔
          k = key ∨ slots[k]? = some true := by
        intro k
        rw [List.getElem?_set]
        split_ifs with heq
        · simp [heq]
        · simp [Ne.symm heq]
      simp only [hasDupesLoop, List.getElem?_eq_getElem hlt]
      rw [ih hin', repeats_cons]
      simp only [hset, Bool.or_eq_true, List.mem_cons, Option.some.injEq]
      have hslot : slots[key]? = some slots[key] := List.getElem?_eq_getElem hlt
      constructor
      · rintro ((hd | hs) | ⟨k, hk, rfl | hmarked⟩ | hrep)
        · exact Or.inl hd
        · exact Or.inr (Or.inl ⟨key, Or.inl rfl, hslot.trans (congrArg some hs)⟩)
        · exact Or.inr (Or.inr (Or.inl ⟨k, rfl, hk⟩))
        · exact Or.inr (Or.inl ⟨k, Or.inr hk, hmarked⟩)
        · exact Or.inr (Or.inr (Or.inr hrep))
      · rintro (hd | ⟨k, rfl | hk, hmarked⟩ | ⟨k, rfl, hk⟩ | hrep)
        · exact Or.inl (Or.inl hd)
        · exact Or.inl (Or.inr (Option.some.inj (hslot.symm.trans hmarked)))
        · exact Or.inr (Or.inl ⟨k, hk, Or.inr hmarked⟩)
        · exact Or.inr (Or.inl ⟨key, hk, Or.inl rfl⟩)
        · exact Or.inr (Or.inr hrep)

end Loop

/-! ## The check -/

namespace Argument

section Check

variable {keys : List (Option ℕ)} {args : List Argument}

theorem hasDupes_isSome : (hasDupes keys).isSome ↔ ∀ key, some key ∈ keys → key < 32 :=
  hasDupesLoop_isSome

theorem hasDupes_eq_true_iff (h : (hasDupes keys).isSome) :
    hasDupes keys = some true ↔ Repeats keys := by
  have hin : ∀ key, some key ∈ keys → key < (List.replicate 32 false).length :=
    hasDupes_isSome.1 h
  have hunmarked : ¬∃ key, some key ∈ keys ∧ (List.replicate 32 false)[key]? = some true := by
    rintro ⟨key, -, hmarked⟩
    rw [List.getElem?_replicate] at hmarked
    split_ifs at hmarked
    cases hmarked
  rw [hasDupes, hasDupesLoop_eq_true_iff hin]
  simp only [hunmarked, Bool.false_eq_true, false_or]

/-- What the check is for. -/
structure AliasFree (args : List Argument) : Prop where
  in_bounds : (hasDupes (args.map unique)).isSome
  dupes_iff : hasDupes (args.map unique) = some true ↔
    Repeats (args.map unique)
  disjoint : hasDupes (args.map unique) = some false →
    (args.filterMap bytes).Pairwise fun a b => Disjoint a.toSet b.toSet

/-- The bytes of the register with a key, if it can be dereferenced. -/
def cell (key : ℕ) : Extent ℕ :=
  if key < 16 then ⟨regsOffset + 8 * key, regsOffset + 8 * key + 8⟩
  else ⟨xmmOffset + 16 * (key - 16), xmmOffset + 16 * (key - 16) + 16⟩

theorem cell_apart {j k : ℕ} (hne : j ≠ k) : (cell j).Apart (cell k) := by
  unfold cell Apart regsOffset xmmOffset regsOffset
  split_ifs <;> simp only <;> omega

theorem bytes_within {arg : Argument} (harg : arg.IsRegister) {r : Extent ℕ}
    (hr : arg.bytes = some r) : ∃ key, arg.unique = some key ∧ r.Within (cell key) := by
  cases arg with
  | gpr size n =>
    obtain ⟨hsize, hn⟩ := harg
    obtain rfl := Option.some.inj hr
    refine ⟨n, rfl, ?_⟩
    rw [cell, if_pos hn]
    refine ⟨le_rfl, ?_⟩
    simp only
    split_ifs <;> omega
  | xmm n =>
    obtain rfl := Option.some.inj hr
    refine ⟨n + 16, rfl, ?_⟩
    rw [cell, if_neg (by omega), Nat.add_sub_cancel]
    exact ⟨le_rfl, le_rfl⟩
  | _ => cases hr

theorem disjoint_of_not_repeats (hargs : ∀ arg ∈ args, arg.IsRegister)
    (h : ¬Repeats (args.map unique)) :
    (args.filterMap bytes).Pairwise fun a b => Disjoint a.toSet b.toSet := by
  rw [List.pairwise_filterMap, List.pairwise_iff_getElem]
  intro i j hi hj hij r hr s hs
  obtain ⟨key, hkey, hwithin⟩ := bytes_within (hargs _ (List.getElem_mem hi)) hr
  obtain ⟨key', hkey', hwithin'⟩ := bytes_within (hargs _ (List.getElem_mem hj)) hs
  have hne : key ≠ key' := by
    rintro rfl
    refine h ⟨i, j, key, hij, ?_, ?_⟩
    · simp [List.getElem?_eq_getElem hi, hkey]
    · simp [List.getElem?_eq_getElem hj, hkey']
  exact ((cell_apart hne).disjoint.mono_left hwithin.toSet_subset).mono_right hwithin'.toSet_subset

theorem key_lt {arg : Argument} (harg : arg.IsRegister) (hne : arg ≠ ymm 30 ∧ arg ≠ ymm 31)
    {key : ℕ} (hkey : arg.unique = some key) : key < 32 := by
  cases arg with
  | zmm n =>
    simp only [unique, Option.ite_none_right_eq_some, Option.some.injEq] at hkey
    omega
  | gpr size n =>
    obtain rfl := Option.some.inj hkey
    exact harg.2.trans (by decide)
  | xmm n =>
    obtain rfl := Option.some.inj hkey
    exact Nat.add_lt_add_right harg 16
  | ymm n =>
    obtain rfl := Option.some.inj hkey
    rcases harg with hlt | rfl | rfl
    · exact Nat.add_lt_add_right hlt 16
    · exact absurd rfl hne.1
    · exact absurd rfl hne.2
  | _ => cases hkey

end Check

/-- The arguments of a hook. -/
structure Arguments where
  args : List Argument
  registers : ∀ arg ∈ args, arg.IsRegister

/-- The check does what it is for, on exactly the lists without the names `Zmm30` and `Zmm31`. -/
theorem aliasFree_iff (a : Arguments) :
    AliasFree a.args ↔ ∀ arg ∈ a.args, arg ≠ ymm 30 ∧ arg ≠ ymm 31 := by
  constructor
  · intro h arg harg
    have hlt := hasDupes_isSome.1 h.in_bounds
    constructor <;> rintro rfl
    · exact absurd (hlt 46 (List.mem_map.2 ⟨_, harg, rfl⟩)) (by decide)
    · exact absurd (hlt 47 (List.mem_map.2 ⟨_, harg, rfl⟩)) (by decide)
  · intro h
    have hsome : (hasDupes (a.args.map unique)).isSome := by
      rw [hasDupes_isSome]
      intro key hkey
      obtain ⟨arg, harg, hkey⟩ := List.mem_map.1 hkey
      exact key_lt (a.registers arg harg) (h arg harg) hkey
    have hiff := hasDupes_eq_true_iff hsome
    refine ⟨hsome, hiff, fun hfalse => disjoint_of_not_repeats a.registers fun hrep => ?_⟩
    cases hfalse.symm.trans (hiff.2 hrep)

/-- A hook that takes ZMM 30. -/
def zmm30 : Arguments where
  args := [ymm 30]
  registers := by simp [IsRegister]

theorem not_aliasFree_zmm30 :
    hasDupes (zmm30.args.map unique) = none ∧ ¬AliasFree zmm30.args := by
  have hnone : hasDupes (zmm30.args.map unique) = none := by
    decide
  refine ⟨hnone, fun h => ?_⟩
  have hsome := h.in_bounds
  rw [hnone] at hsome
  cases hsome

end Argument

end Diversion
