import Mathlib.Tactic.Common

/-!
# Merging adjacent parts by rank

Some strings have a rank.  A list of parts is merged by joining, again and again, the two
adjacent parts whose concatenation has the lowest rank, the leftmost of those, until no two
adjacent parts join to a string with a rank.
-/

namespace Eidnara.Lib

open List

variable {α : Type} (rank : List α → Option Nat)

/-- The parts `x` and `y` between `before` and `after` are the next to be joined. -/
structure IsNext (before : List (List α)) (x y : List α) (after : List (List α)) (r : Nat) :
    Prop where
  ranked : rank (x ++ y) = some r
  lowest : ∀ {b u v a s}, before ++ x :: y :: after = b ++ u :: v :: a → rank (u ++ v) = some s →
    r < s ∨ (r = s ∧ before.length ≤ b.length)

def Settled (parts : List (List α)) : Prop :=
  ∀ b u v a, parts = b ++ u :: v :: a → rank (u ++ v) = none

inductive Merges : List (List α) → List (List α) → Prop where
  | settled {parts} (h : Settled rank parts) : Merges parts parts
  | join {before x y after r final} (hnext : IsNext rank before x y after r)
      (h : Merges (before ++ (x ++ y) :: after) final) : Merges (before ++ x :: y :: after) final

variable {rank} {parts final : List (List α)}

theorem IsNext.unique {before before' after after' : List (List α)} {x x' y y' : List α}
    {r r' : Nat} (h : IsNext rank before x y after r) (h' : IsNext rank before' x' y' after' r')
    (heq : before ++ x :: y :: after = before' ++ x' :: y' :: after') :
    before = before' ∧ x = x' ∧ y = y' ∧ after = after' := by
  have hlength : before.length = before'.length := by
    rcases h.lowest heq h'.ranked with hlt | ⟨heqr, hle⟩ <;>
      rcases h'.lowest heq.symm h.ranked with hlt' | ⟨heqr', hle'⟩ <;> omega
  obtain ⟨hbefore, hrest⟩ := append_inj heq hlength
  simp only [List.cons.injEq] at hrest
  exact ⟨hbefore, hrest.1, hrest.2.1, hrest.2.2⟩

theorem Merges.unique {other : List (List α)} (h : Merges rank parts final)
    (h' : Merges rank parts other) : final = other := by
  induction h with
  | settled hsettled =>
    cases h' with
    | settled _ => rfl
    | join hnext _ =>
      have hnone := hsettled _ _ _ _ rfl
      rw [hnext.ranked] at hnone
      cases hnone
  | @join before x y after r final hnext _ ih =>
    generalize hparts : before ++ x :: y :: after = start at h'
    cases h' with
    | settled hsettled =>
      have hnone := hsettled _ _ _ _ hparts.symm
      rw [hnext.ranked] at hnone
      cases hnone
    | join hnext' hrest =>
      obtain ⟨rfl, rfl, rfl, rfl⟩ := hnext.unique hnext' hparts
      exact ih hrest

theorem Merges.flatten_eq (h : Merges rank parts final) : final.flatten = parts.flatten := by
  induction h with
  | settled _ => rfl
  | join _ _ ih => simpa using ih

/-- What holds of every part and of every string with a rank holds to the end. -/
theorem Merges.forall_mem {p : List α → Prop} (h : Merges rank parts final)
    (hparts : ∀ part ∈ parts, p part)
    (hjoin : ∀ x y r, p x → p y → rank (x ++ y) = some r → p (x ++ y)) :
    ∀ part ∈ final, p part := by
  induction h with
  | settled _ => exact hparts
  | @join before x y after r final hnext _ ih =>
    simp only [forall_mem_append, forall_mem_cons] at hparts ih
    exact ih ⟨hparts.1, hjoin x y r hparts.2.1 hparts.2.2.1 hnext.ranked, hparts.2.2.2⟩

theorem append_cons_eq_append_cons {β : Type} {a b c d : List β} {m z : β} :
    a ++ m :: b = c ++ z :: d ↔
      (∃ e, a = c ++ z :: e ∧ d = e ++ m :: b) ∨ (c = a ∧ z = m ∧ d = b) ∨
        ∃ e, c = a ++ m :: e ∧ b = e ++ z :: d := by
  constructor
  · intro h
    rcases append_eq_append_iff.mp h with ⟨e, hc, hrest⟩ | ⟨e, ha, hrest⟩
    · cases e with
      | nil =>
        simp only [nil_append, List.cons.injEq] at hrest
        exact .inr (.inl ⟨by simpa using hc, hrest.1.symm, hrest.2.symm⟩)
      | cons first e =>
        simp only [cons_append, List.cons.injEq] at hrest
        obtain ⟨rfl, hb⟩ := hrest
        exact .inr (.inr ⟨e, hc, hb⟩)
    · cases e with
      | nil =>
        simp only [nil_append, List.cons.injEq] at hrest
        exact .inr (.inl ⟨by simpa using ha.symm, hrest.1, hrest.2⟩)
      | cons first e =>
        simp only [cons_append, List.cons.injEq] at hrest
        obtain ⟨rfl, hd⟩ := hrest
        exact .inl ⟨e, ha, hd⟩
  · rintro (⟨e, rfl, rfl⟩ | ⟨rfl, rfl, rfl⟩ | ⟨e, rfl, rfl⟩) <;> simp

end Eidnara.Lib
