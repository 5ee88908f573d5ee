import Diversion.Lib.Extent

/-!
# Ledgers

What a program took from an allocator and what it gave back, in order. `Settled ledger held`
says that every block was given back by whoever held it, whole or after it was split in two,
and that `held` is what is left. So nothing was given back before it was taken or twice, and
at every point the ledger covers as often as it was given back and is still held
(`Settled.countP_take`).
-/

namespace Ledger

open Extent

variable {α : Type*} [LinearOrder α]

/-- A block is handed out or given back. -/
inductive Entry (α : Type*) where
  | take (block : Extent α)
  | give (block : Extent α)
deriving DecidableEq, Repr

/-- After the entries of the ledger the blocks that are left are `held`. -/
inductive Settled : List (Entry α) → List (Extent α) → Prop where
  | nil : Settled [] []
  | take {ledger : List (Entry α)} {held : List (Extent α)} (h : Settled ledger held)
      (block : Extent α) : Settled (ledger ++ [.take block]) (block :: held)
  | split {ledger : List (Entry α)} {pre post : List (Extent α)} {start mid stop : α}
      (h : Settled ledger (pre ++ ⟨start, stop⟩ :: post)) (hstart : start ≤ mid)
      (hstop : mid ≤ stop) : Settled ledger (pre ++ ⟨start, mid⟩ :: ⟨mid, stop⟩ :: post)
  | give {ledger : List (Entry α)} {pre post : List (Extent α)} {block : Extent α}
      (h : Settled ledger (pre ++ block :: post)) :
      Settled (ledger ++ [.give block]) (pre ++ post)

variable {ledger : List (Entry α)} {held : List (Extent α)}

/-- What was settled before stays settled next to what is held. -/
theorem Settled.append {ledger' : List (Entry α)} {held' : List (Extent α)}
    (h : Settled ledger held) (h' : Settled ledger' held') :
    Settled (ledger ++ ledger') (held' ++ held) := by
  induction h' with
  | nil => simpa using h
  | take _ block ih =>
    rw [← List.append_assoc]
    exact ih.take block
  | @split _ pre post start mid stop _ hstart hstop ih =>
    rw [List.append_assoc, List.cons_append, List.cons_append]
    rw [List.append_assoc, List.cons_append] at ih
    exact ih.split hstart hstop
  | @give _ pre post block _ ih =>
    rw [← List.append_assoc, List.append_assoc pre]
    rw [List.append_assoc, List.cons_append] at ih
    exact ih.give

/-- The point is in the block. -/
def covers (x : α) (block : Extent α) : Bool :=
  block.start ≤ x ∧ x < block.stop

/-- The point is handed out. -/
def Entry.takes (x : α) : Entry α → Bool
  | .take block => covers x block
  | .give _ => false

/-- The point is given back. -/
def Entry.gives (x : α) : Entry α → Bool
  | .take _ => false
  | .give block => covers x block

/-- Every point was given back as often as it was taken, or is still held. -/
theorem Settled.countP_take (h : Settled ledger held) (x : α) :
    ledger.countP (Entry.takes x) = ledger.countP (Entry.gives x) +
      held.countP (covers x) := by
  induction h with
  | nil => rfl
  | take _ block ih =>
    cases hx : covers x block <;> simp [Entry.takes, Entry.gives, hx, ih]
    omega
  | @split _ pre post start mid stop _ hstart hstop ih =>
    rw [ih]
    simp only [List.countP_append, List.countP_cons, covers, decide_eq_true_eq]
    have : (if start ≤ x ∧ x < stop then 1 else 0) =
        (if start ≤ x ∧ x < mid then 1 else 0) + (if mid ≤ x ∧ x < stop then 1 else 0) := by
      rcases lt_or_ge x mid with hx | hx
      · simp [hx, hx.trans_le hstop, hx.not_ge]
      · simp [hx, hstart.trans hx, hx.not_gt]
    omega
  | @give _ pre post block _ ih =>
    cases hx : covers x block <;>
      simp only [List.countP_append, List.countP_cons, List.countP_nil, Entry.takes, Entry.gives,
        hx, Bool.false_eq_true, if_true, if_false] at ih ⊢ <;> omega

end Ledger
