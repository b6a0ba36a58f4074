import Mathlib.Algebra.Order.BigOperators.Group.List
import Mathlib.Algebra.Ring.Nat

/-!
# Regions of an address range

Regions packed into a range in order, and cells of one size in a row.
-/

namespace Eidnara.Lib

open List

/-- Bytes from `start` on, whose start must be a multiple of `align`. -/
structure Region where
  start : Nat
  length : Nat
  align : Nat
deriving DecidableEq, Repr

/-- The regions lie between `low` and `high`, one behind the other, and are aligned. -/
structure Packed (regions : List Region) (low high : Nat) : Prop where
  apart : regions.Pairwise fun a b => a.start + a.length ≤ b.start
  low_le : ∀ region ∈ regions, low ≤ region.start
  le_high : ∀ region ∈ regions, region.start + region.length ≤ high
  aligned : ∀ region ∈ regions, region.start % region.align = 0

namespace Packed

variable {regions others : List Region} {low middle high : Nat}

theorem append (h : Packed regions low middle) (h' : Packed others middle high)
    (hlow : low ≤ middle) (hhigh : middle ≤ high) : Packed (regions ++ others) low high where
  apart := by
    refine pairwise_append.mpr ⟨h.apart, h'.apart, fun a ha b hb => ?_⟩
    exact (h.le_high a ha).trans (h'.low_le b hb)
  low_le := forall_mem_append.mpr
    ⟨h.low_le, fun region hregion => hlow.trans (h'.low_le region hregion)⟩
  le_high := forall_mem_append.mpr
    ⟨fun region hregion => (h.le_high region hregion).trans hhigh, h'.le_high⟩
  aligned := forall_mem_append.mpr ⟨h.aligned, h'.aligned⟩

theorem single {region : Region} (hlow : low ≤ region.start)
    (hhigh : region.start + region.length ≤ high)
    (haligned : region.start % region.align = 0) : Packed [region] low high where
  apart := pairwise_singleton _ _
  low_le := by simpa using hlow
  le_high := by simpa using hhigh
  aligned := by simpa using haligned

theorem row {start size count : Nat} (hstart : start % size = 0)
    (hend : start + count * size ≤ high) :
    Packed ((List.range count).map fun index => ⟨start + index * size, size, size⟩) start high where
  apart := by
    refine pairwise_map.mpr (pairwise_lt_range.imp fun hlt => ?_)
    rename_i a b
    have hmul : (a + 1) * size ≤ b * size := Nat.mul_le_mul_right size hlt
    rw [Nat.succ_mul] at hmul
    show start + a * size + size ≤ start + b * size
    omega
  low_le := by
    intro region hregion
    obtain ⟨index, -, rfl⟩ := mem_map.mp hregion
    exact Nat.le_add_right _ _
  le_high := by
    intro region hregion
    obtain ⟨index, hindex, rfl⟩ := mem_map.mp hregion
    have hmul : (index + 1) * size ≤ count * size :=
      Nat.mul_le_mul_right size (mem_range.mp hindex)
    rw [Nat.succ_mul] at hmul
    show start + index * size + size ≤ high
    omega
  aligned := by
    intro region hregion
    obtain ⟨index, -, rfl⟩ := mem_map.mp hregion
    show (start + index * size) % size = 0
    rw [Nat.add_mul_mod_self_right, hstart]

end Packed

/-! ## Consecutive sizes -/

theorem sum_take_succ_of_getElem? {sizes : List Nat} {index size : Nat}
    (h : sizes[index]? = some size) :
    (sizes.take (index + 1)).sum = (sizes.take index).sum + size := by
  obtain ⟨hlt, hget⟩ := List.getElem?_eq_some_iff.mp h
  rw [sum_take_succ sizes index hlt, hget]

theorem exists_sum_take_le (sizes : List Nat) {position : Nat} (h : position < sizes.sum) :
    ∃ index size, sizes[index]? = some size ∧ (sizes.take index).sum ≤ position ∧
      position < (sizes.take index).sum + size := by
  induction sizes generalizing position with
  | nil => simp at h
  | cons first sizes ih =>
    by_cases hfirst : position < first
    · exact ⟨0, first, rfl, Nat.zero_le _, by simpa using hfirst⟩
    · rw [sum_cons] at h
      obtain ⟨index, size, hget, hlow, hhigh⟩ := ih (show position - first < sizes.sum by omega)
      refine ⟨index + 1, size, by simpa using hget, ?_, ?_⟩ <;>
        rw [take_succ_cons, sum_cons] <;> omega

end Eidnara.Lib
