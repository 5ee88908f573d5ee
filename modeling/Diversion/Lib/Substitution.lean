import Mathlib.Data.List.Nodup
import Mathlib.Data.Nat.Find

/-!
# Substitution along a table

A table replaces a value by that of the first entry whose key it is, and leaves other
values alone. `subst_subst_eq_iff` says when the table read backwards undoes that : the
replaced value must not be the one of an earlier entry, and a value that was left alone
must not be the one of any entry.
-/

namespace Substitution

variable {ι α : Type*} [DecidableEq α] {key val : ι → α} {l : List ι} {x : α} {i : ℕ} {r : ι}

/-- Replace `x` by the value of the first entry whose key it is. -/
def subst (key val : ι → α) (l : List ι) (x : α) : α :=
  ((l.find? fun r => x = key r).map val).getD x

/-- What no entry names stays. -/
theorem subst_of_forall_ne (h : ∀ r ∈ l, key r ≠ x) : subst key val l x = x := by
  have hnone : (l.find? fun r => decide (x = key r)) = none := by
    rw [List.find?_eq_none]
    intro r hr
    simpa using (h r hr).symm
  rw [subst, hnone, Option.map_none, Option.getD_none]

/-- The first entry decides. -/
theorem subst_of_first (hget : l[i]? = some r) (hkey : key r = x)
    (hfirst : ∀ (j : ℕ) r', j < i → l[j]? = some r' → key r' ≠ x) : subst key val l x = val r := by
  obtain ⟨hi, rfl⟩ := List.getElem?_eq_some_iff.1 hget
  have hfind : (l.find? fun r => decide (x = key r)) = some l[i] := by
    rw [List.find?_eq_some_iff_getElem]
    refine ⟨by simpa using hkey.symm, i, hi, rfl, fun j hj => ?_⟩
    simpa using (hfirst j _ hj (List.getElem?_eq_getElem (Nat.lt_trans hj hi))).symm
  rw [subst, hfind, Option.map_some, Option.getD_some]

/-- A key of the table is that of a first entry. -/
theorem exists_first (h : ∃ r ∈ l, key r = x) : ∃ (i : ℕ) (r : ι), l[i]? = some r ∧ key r = x ∧
    ∀ (j : ℕ) r', j < i → l[j]? = some r' → key r' ≠ x := by
  obtain ⟨r, hr, hkey⟩ := h
  obtain ⟨i, hi⟩ := List.getElem?_of_mem hr
  have hex : ∃ i : ℕ, ∃ r, l[i]? = some r ∧ key r = x := ⟨i, r, hi, hkey⟩
  classical
  obtain ⟨r', hget, hkey'⟩ := Nat.find_spec hex
  exact ⟨Nat.find hex, r', hget, hkey', fun j r'' hj hj' hk => Nat.find_min hex hj ⟨r'', hj', hk⟩⟩

omit [DecidableEq α] in
/-- Entries of a table without repeated keys are told apart by them. -/
theorem index_eq (hnodup : (l.map key).Nodup) {j : ℕ} {r' : ι} (hi : l[i]? = some r)
    (hj : l[j]? = some r') (h : key r = key r') : i = j := by
  obtain ⟨hlt, -⟩ := List.getElem?_eq_some_iff.1 hi
  refine (List.getElem?_inj (by simpa using hlt) hnodup).1 ?_
  rw [List.getElem?_map, List.getElem?_map, hi, hj, Option.map_some, Option.map_some, h]

/-- With different keys every entry does. -/
theorem subst_of_mem (hnodup : (l.map key).Nodup) (hr : r ∈ l) :
    subst key val l (key r) = val r := by
  obtain ⟨i, hi⟩ := List.getElem?_of_mem hr
  exact subst_of_first hi rfl fun j r' hj hj' hk => Nat.ne_of_gt hj (index_eq hnodup hi hj' hk.symm)

/-- The table read backwards undoes the substitution at `x`. -/
theorem subst_subst_eq_iff (hnodup : (l.map key).Nodup) :
    subst val key l (subst key val l x) = x ↔
      (∀ (i : ℕ) r, l[i]? = some r → key r = x →
          ∀ (j : ℕ) r', j < i → l[j]? = some r' → val r' ≠ val r) ∧
        ((∀ r ∈ l, key r ≠ x) → ∀ r ∈ l, val r ≠ x) := by
  by_cases hex : ∃ r ∈ l, key r = x
  · obtain ⟨i, r, hi, rfl, -⟩ := exists_first hex
    rw [subst_of_mem hnodup (List.mem_of_getElem? hi)]
    constructor
    · intro h
      refine ⟨fun i' r₁ hi' hkey j r₂ hj hr₂ hval => ?_, fun hne => absurd hex (by simpa using hne)⟩
      obtain rfl := index_eq hnodup hi hi' hkey.symm
      obtain rfl := Option.some.inj (hi.symm.trans hi')
      -- the first entry with the value is an earlier one, with another key
      have hmem : ∃ r' ∈ l, val r' = val r := ⟨r₂, List.mem_of_getElem? hr₂, hval⟩
      obtain ⟨k, r₃, hk, hval', hfirst⟩ := exists_first hmem
      rw [subst_of_first hk hval' hfirst] at h
      obtain rfl := index_eq hnodup hi hk h.symm
      exact hfirst j r₂ hj hr₂ hval
    · exact fun ⟨hfirst, _⟩ =>
        subst_of_first hi rfl fun j r' hj hj' => hfirst i r hi rfl j r' hj hj'
  · have hne : ∀ r ∈ l, key r ≠ x := by simpa using hex
    rw [subst_of_forall_ne hne]
    constructor
    · refine fun h => ⟨fun i r hi hkey => absurd hkey (hne r (List.mem_of_getElem? hi)), ?_⟩
      intro _ r hr hval
      obtain ⟨k, r', hk, hval', hfirst⟩ := exists_first (show ∃ r ∈ l, val r = x from ⟨r, hr, hval⟩)
      rw [subst_of_first hk hval' hfirst] at h
      exact hne r' (List.mem_of_getElem? hk) h
    · exact fun ⟨_, h⟩ => subst_of_forall_ne (h hne)

end Substitution
