import Eidnara.Lib.Crossings
import Mathlib.Order.Nat

/-!
# Spans that tile a list of positions

Spans tile an ascending list of positions when each starts at the first position behind the one
before it.  Positions between the first start and the last end then lie in exactly one span.
-/

namespace Eidnara.Lib

open List

def nextAfter (positions : List Nat) (after : Nat) : Option Nat := positions.find? (after < ·)

/-- The spans start at `expected` and follow one another, with both ends among the positions. -/
def Tiles (positions : List Nat) : Option Nat → List Span → Prop
  | _, [] => True
  | expected, span :: rest =>
    expected = some span.1 ∧ span.1 ≤ span.2 ∧ span.1 ∈ positions ∧ span.2 ∈ positions ∧
      Tiles positions (nextAfter positions span.2) rest

variable {positions : List Nat} {expected : Option Nat} {spans : List Span} {position : Nat}

theorem lt_of_nextAfter {after start : Nat} (h : nextAfter positions after = some start) :
    after < start := by
  simpa using find?_some h

theorem exists_nextAfter {after : Nat} (hsorted : positions.Pairwise (· < ·))
    (hmem : position ∈ positions) (hlt : after < position) :
    ∃ start, nextAfter positions after = some start ∧ start ≤ position := by
  unfold nextAfter
  induction positions with
  | nil => cases hmem
  | cons head rest ih =>
    rw [find?_cons]
    obtain ⟨hhead, hrest⟩ := pairwise_cons.mp hsorted
    by_cases hafter : after < head
    · rw [decide_eq_true hafter]
      refine ⟨head, rfl, ?_⟩
      rcases mem_cons.mp hmem with rfl | hmem
      · exact le_rfl
      · exact (hhead position hmem).le
    · rw [decide_eq_false hafter]
      rcases mem_cons.mp hmem with rfl | hmem
      · exact absurd hlt hafter
      · exact ih hrest hmem

namespace Tiles

theorem of_append {others : List Span} (h : Tiles positions expected (spans ++ others)) :
    Tiles positions expected spans := by
  induction spans generalizing expected with
  | nil => trivial
  | cons span rest ih =>
    obtain ⟨hstart, hle, hfirst, hlast, hrest⟩ := h
    exact ⟨hstart, hle, hfirst, hlast, ih hrest⟩

variable {span : Span}

theorem span_mem (h : Tiles positions expected spans) (hspan : span ∈ spans) :
    span.1 ≤ span.2 ∧ span.1 ∈ positions ∧ span.2 ∈ positions := by
  induction spans generalizing expected with
  | nil => cases hspan
  | cons first rest ih =>
    obtain ⟨-, hle, hfirst, hlast, hrest⟩ := h
    rcases mem_cons.mp hspan with rfl | hspan
    · exact ⟨hle, hfirst, hlast⟩
    · exact ih hrest hspan

theorem after_lt {after : Nat} (h : Tiles positions (nextAfter positions after) spans)
    (hspan : span ∈ spans) : after < span.1 := by
  induction spans generalizing after with
  | nil => cases hspan
  | cons first rest ih =>
    obtain ⟨hstart, hle, -, -, hrest⟩ := h
    have hlt := lt_of_nextAfter hstart
    rcases mem_cons.mp hspan with rfl | hspan
    · exact hlt
    · have := ih hrest hspan
      omega

theorem pairwise (h : Tiles positions expected spans) :
    spans.Pairwise (fun a b => a.2 < b.1) := by
  induction spans generalizing expected with
  | nil => exact List.Pairwise.nil
  | cons first rest ih =>
    obtain ⟨-, -, -, -, hrest⟩ := h
    exact pairwise_cons.mpr ⟨fun span hspan => hrest.after_lt hspan, ih hrest⟩

theorem le_last (h : Tiles positions expected spans) {last : Span}
    (hlast : spans.getLast? = some last) (hspan : span ∈ spans) : span.2 ≤ last.2 := by
  obtain ⟨init, rfl⟩ := getLast?_eq_some_iff.mp hlast
  rcases mem_append.mp hspan with hinit | hsingle
  · have hlt := (pairwise_append.mp h.pairwise).2.2 span hinit last mem_cons_self
    have hle := (h.span_mem (mem_append_right init mem_cons_self)).1
    omega
  · rw [mem_singleton.mp hsingle]

theorem start_eq (h : Tiles positions expected spans) {i : Nat} {following : Span}
    (hspan : spans[i]? = some span) (hfollowing : spans[i + 1]? = some following) :
    nextAfter positions span.2 = some following.1 := by
  induction spans generalizing expected i with
  | nil => cases hspan
  | cons first rest ih =>
    obtain ⟨-, -, -, -, hrest⟩ := h
    cases i with
    | zero =>
      cases rest with
      | nil => cases hfollowing
      | cons second others =>
        cases hspan
        cases hfollowing
        exact hrest.1
    | succ i => exact ih hrest hspan hfollowing

theorem exists_span (h : Tiles positions expected spans) (hsorted : positions.Pairwise (· < ·))
    (hmem : position ∈ positions) {first last : Span} (hfirst : spans.head? = some first)
    (hlast : spans.getLast? = some last) (hge : first.1 ≤ position) (hle : position ≤ last.2) :
    ∃ i : Nat, ∃ span : Span, spans[i]? = some span ∧ span.1 ≤ position ∧ position ≤ span.2 := by
  induction spans generalizing expected first with
  | nil => cases hfirst
  | cons head rest ih =>
    obtain ⟨-, -, -, -, hrest⟩ := h
    cases hfirst
    by_cases hin : position ≤ head.2
    · exact ⟨0, head, rfl, hge, hin⟩
    · obtain ⟨start, hstart, hbound⟩ := exists_nextAfter hsorted hmem (not_le.mp hin)
      cases rest with
      | nil =>
        cases hlast
        exact absurd hle hin
      | cons second others =>
        have hsecond : nextAfter positions head.2 = some second.1 := hrest.1
        rw [hstart] at hsecond
        cases hsecond
        obtain ⟨i, span, hspan, hspec⟩ :=
          ih hrest rfl (by simpa using hlast) hbound
        exact ⟨i + 1, span, hspan, hspec⟩

theorem span_unique (h : Tiles positions expected spans) {i j : Nat} {a b : Span}
    (ha : spans[i]? = some a) (hb : spans[j]? = some b) (hina : a.1 ≤ position ∧ position ≤ a.2)
    (hinb : b.1 ≤ position ∧ position ≤ b.2) : i = j := by
  have hpairwise := pairwise_iff_getElem.mp h.pairwise
  obtain ⟨hi, rfl⟩ := List.getElem?_eq_some_iff.mp ha
  obtain ⟨hj, rfl⟩ := List.getElem?_eq_some_iff.mp hb
  rcases lt_trichotomy i j with hlt | heq | hgt
  · have := hpairwise i j hi hj hlt
    omega
  · exact heq
  · have := hpairwise j i hj hi hgt
    omega

end Tiles

end Eidnara.Lib
