import Mathlib.Data.List.Induction
import Mathlib.Data.List.Nodup

/-!
# Growable arrays as lists

`pop` and `swapRemove` on a list whose last element is the top.
-/

namespace Eidnara.Lib.Vec

open List

variable {α : Type}

def pop (xs : List α) : Option (List α × α) := xs.getLast?.map (xs.dropLast, ·)

/-- Removes the element at an index by moving the last one into its place. -/
def swapRemove (xs : List α) (index : Nat) : List α :=
  match xs.getLast? with
  | none => xs
  | some last => (xs.set index last).dropLast

/-- Removes the first occurrence of a value, if there is one. -/
def removeValue [DecidableEq α] (xs : List α) (x : α) : List α :=
  match xs.findIdx? (· = x) with
  | none => xs
  | some index => swapRemove xs index

def setAt (xs : List α) (index : Nat) (x : α) : Option (List α) :=
  if index < xs.length then some (xs.set index x) else none

def removeAt (xs : List α) (index : Nat) : Option (List α) :=
  if index < xs.length then some (xs.eraseIdx index) else none

variable {xs : List α}

theorem setAt_of_lt {index : Nat} (h : index < xs.length) (x : α) :
    setAt xs index x = some (xs.set index x) :=
  if_pos h

theorem setAt_cons (first : α) (xs : List α) (index : Nat) (x : α) :
    setAt (first :: xs) (index + 1) x = (setAt xs index x).map (first :: ·) := by
  simp only [setAt, length_cons, Nat.add_lt_add_iff_right]
  split_ifs <;> rfl

theorem removeAt_cons (first : α) (xs : List α) (index : Nat) :
    removeAt (first :: xs) (index + 1) = (removeAt xs index).map (first :: ·) := by
  simp only [removeAt, length_cons, Nat.add_lt_add_iff_right]
  split_ifs <;> rfl

theorem pop_eq_some {rest : List α} {x : α} (h : pop xs = some (rest, x)) : xs = rest ++ [x] := by
  obtain ⟨last, hlast, heq⟩ := Option.map_eq_some_iff.mp h
  obtain ⟨rfl, rfl⟩ := Prod.mk.inj heq
  exact (dropLast_append_getLast? last hlast).symm

theorem pop_eq_none (h : pop xs = none) : xs = [] := by
  rw [pop, Option.map_eq_none_iff] at h
  exact getLast?_eq_none_iff.mp h

theorem perm_swapRemove {index : Nat} {x : α} (h : xs[index]? = some x) :
    xs ~ x :: swapRemove xs index := by
  obtain ⟨hlt, rfl⟩ := List.getElem?_eq_some_iff.mp h
  induction xs using reverseRecOn with
  | nil => cases hlt
  | append_singleton init last _ =>
    have hlast : (init ++ [last]).getLast? = some last := getLast?_concat
    rw [swapRemove, hlast]
    simp only
    by_cases hinit : index < init.length
    · rw [set_append_left _ _ hinit, dropLast_concat, getElem_append_left hinit]
      refine (perm_append_singleton last init).trans ?_
      rw [set_eq_take_cons_drop _ hinit]
      calc last :: init
          = last :: (init.take index ++ init[index] :: init.drop (index + 1)) := by
            rw [getElem_cons_drop, take_append_drop]
        _ ~ last :: init[index] :: (init.take index ++ init.drop (index + 1)) :=
            perm_middle.cons last
        _ ~ init[index] :: last :: (init.take index ++ init.drop (index + 1)) :=
            List.Perm.swap _ _ _
        _ ~ init[index] :: (init.take index ++ last :: init.drop (index + 1)) :=
            (perm_middle.symm).cons _
    · have hindex : index = init.length := by
        rw [length_append, length_singleton] at hlt
        omega
      subst hindex
      simp

section

variable [DecidableEq α]

variable {xs : List α} {x : α}

theorem perm_removeValue (h : x ∈ xs) : xs ~ x :: removeValue xs x := by
  unfold removeValue
  cases hfind : xs.findIdx? (· = x) with
  | none =>
    have hnone := findIdx?_eq_none_iff.mp hfind x h
    simp at hnone
  | some index =>
    obtain ⟨hlt, heq, -⟩ := findIdx?_eq_some_iff_getElem.mp hfind
    apply perm_swapRemove
    rw [List.getElem?_eq_getElem hlt]
    exact congrArg some (of_decide_eq_true heq)

theorem removeValue_of_not_mem (h : x ∉ xs) : removeValue xs x = xs := by
  have hnone : xs.findIdx? (· = x) = none := by
    rw [findIdx?_eq_none_iff]
    intro y hy
    exact decide_eq_false fun heq => h (heq ▸ hy)
  rw [removeValue, hnone]

theorem mem_removeValue {y : α} (h : xs.Nodup) : y ∈ removeValue xs x ↔ y ∈ xs ∧ y ≠ x := by
  by_cases hx : x ∈ xs
  · have hperm := perm_removeValue hx
    have hnodup : (x :: removeValue xs x).Nodup := hperm.nodup_iff.mp h
    rw [hperm.mem_iff, mem_cons]
    constructor
    · intro hy
      exact ⟨.inr hy, fun heq => (nodup_cons.mp hnodup).1 (heq ▸ hy)⟩
    · rintro ⟨hy | hy, hne⟩
      · exact absurd hy hne
      · exact hy
  · rw [removeValue_of_not_mem hx]
    constructor
    · intro hy
      exact ⟨hy, fun heq => hx (heq ▸ hy)⟩
    · exact And.left

theorem nodup_removeValue (h : xs.Nodup) (x : α) : (removeValue xs x).Nodup := by
  by_cases hx : x ∈ xs
  · exact (nodup_cons.mp ((perm_removeValue hx).nodup_iff.mp h)).2
  · rwa [removeValue_of_not_mem hx]

end

end Eidnara.Lib.Vec
