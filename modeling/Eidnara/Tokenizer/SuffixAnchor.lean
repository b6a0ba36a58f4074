import Eidnara.Tokenizer.Estimate

/-!
# Suffix anchors

`suffix_anchor` scans a window at the end of a text and returns the start of its last piece,
from which a caller may count again once more text stands behind.  The piece before the last
may be an apostrophe that the appended text makes a contraction of.
-/

namespace Eidnara.Tokenizer

open Lib Utf8 List

/-- The last piece start in the window, after two pieces in which the scan gets in step. -/
def suffixAnchor (classes : Classes) (text : List Char) (lookback : Nat) : Option Nat := do
  let start := floorCharBoundary text ((utf8 text).length - lookback)
  let window ← sliceFrom text start
  let spans ← pieces classes (utf8 window)
  some (((spans.drop 2).map fun span => start + span.1).getLast?.getD 0)

/-- A piece begins at the offset. -/
def IsBoundary (classes : Classes) (text : List Char) (p : Nat) : Prop :=
  ∃ spans, pieces classes (utf8 text) = some spans ∧ p ∈ spans.map Prod.fst

/-- What is appended makes a contraction of an apostrophe and a letter, the last two pieces. -/
def CompletesContraction (classes : Classes) (text s : List Char) : Prop :=
  ∃ front letter, parts classes text = front ++ [['\''], [letter]] ∧
    contraction ('\'' :: letter :: s) ≠ none

/-- Two whitespace characters before the last piece, which begins with another character: the
second of them is given back. -/
def GivesBack (classes : Classes) (text : List Char) : Prop :=
  ∃ init a w g d b, parts classes text = init ++ [d :: b] ∧ init.flatten = a ++ [w, g] ∧
    classes.of w = .space ∧ classes.of g = .space ∧ classes.of d ≠ .space

variable {classes : Classes}

/-! ## Byte ranges -/

theorem byteSpans_append (offset : Nat) (ps qs : List (List Char)) :
    byteSpans offset (ps ++ qs) =
      byteSpans offset ps ++ byteSpans (offset + (utf8 ps.flatten).length) qs := by
  induction ps generalizing offset with
  | nil => rfl
  | cons p ps ih =>
    rw [cons_append, byteSpans, ih, byteSpans, flatten_cons, utf8_append,
      length_append, cons_append, Nat.add_assoc]

theorem length_byteSpans (offset : Nat) (ps : List (List Char)) :
    (byteSpans offset ps).length = ps.length := by
  induction ps generalizing offset with
  | nil => rfl
  | cons p ps ih => rw [byteSpans, length_cons, length_cons, ih]

theorem byteSpans_shift (offset p : Nat) (ps : List (List Char)) :
    byteSpans (p + offset) ps =
      (byteSpans offset ps).map fun span => (p + span.1, p + span.2) := by
  induction ps generalizing offset with
  | nil => rfl
  | cons q ps ih => rw [byteSpans, byteSpans, map_cons, Nat.add_assoc, ih]

theorem le_of_mem_byteSpans {offset : Nat} {ps : List (List Char)} {span : Nat × Nat}
    (h : span ∈ byteSpans offset ps) : offset ≤ span.1 := by
  induction ps generalizing offset with
  | nil => cases h
  | cons p ps ih =>
    rcases mem_cons.mp h with rfl | h
    · exact le_rfl
    · exact (Nat.le_add_right _ _).trans (ih h)

theorem lt_of_mem_byteSpans {offset : Nat} {ps : List (List Char)} (hps : ∀ p ∈ ps, p ≠ [])
    {span : Nat × Nat} (h : span ∈ byteSpans offset ps) :
    span.1 < offset + (utf8 ps.flatten).length := by
  induction ps generalizing offset with
  | nil => cases h
  | cons p ps ih =>
    obtain ⟨hp, hps⟩ := forall_mem_cons.mp hps
    have hpos : 0 < (utf8 p).length :=
      Nat.pos_of_ne_zero (length_utf8_eq_zero.not.mpr hp)
    rw [flatten_cons, utf8_append, length_append]
    rcases mem_cons.mp h with rfl | h
    · omega
    · have := ih hps h
      omega

theorem filter_byteSpans {front back : List (List Char)} (hfront : ∀ p ∈ front, p ≠ []) :
    (byteSpans 0 (front ++ back)).filter (fun span => (utf8 front.flatten).length ≤ span.1) =
      (byteSpans 0 back).map fun span =>
        ((utf8 front.flatten).length + span.1, (utf8 front.flatten).length + span.2) := by
  rw [byteSpans_append, filter_append, ← byteSpans_shift, Nat.zero_add, Nat.add_zero]
  have hbefore : (byteSpans 0 front).filter
      (fun span => (utf8 front.flatten).length ≤ span.1) = [] := by
    rw [filter_eq_nil_iff]
    intro span hspan
    have := lt_of_mem_byteSpans hfront hspan
    simp only [decide_eq_true_eq]
    omega
  have hafter : (byteSpans (utf8 front.flatten).length back).filter
      (fun span => (utf8 front.flatten).length ≤ span.1) =
        byteSpans (utf8 front.flatten).length back := by
    rw [filter_eq_self]
    intro span hspan
    simpa using le_of_mem_byteSpans hspan
  rw [hbefore, hafter, nil_append]

theorem isBoundary_of_parts {text : List Char} {front back : List (List Char)}
    (h : parts classes text = front ++ back) (hback : back ≠ []) :
    IsBoundary classes text (utf8 front.flatten).length := by
  obtain ⟨p, back, rfl⟩ := exists_cons_of_ne_nil hback
  refine ⟨_, pieces_eq_parts text, ?_⟩
  rw [h, byteSpans_append, map_append, Nat.zero_add]
  exact mem_append_right _ (mem_cons_self ..)

/-! ## The anchor -/

/-- The anchor is zero or where the last piece of the text begins. -/
theorem exists_suffixAnchor (text : List Char) (lookback : Nat) :
    ∃ p, suffixAnchor classes text lookback = some p ∧
      (0 < p → ∃ init last, parts classes text = init ++ [last] ∧
        p = (utf8 init.flatten).length) := by
  generalize hstart : floorCharBoundary text ((utf8 text).length - lookback) = start
  obtain ⟨hboundary, -, -⟩ := floorCharBoundary_spec text ((utf8 text).length - lookback)
  rw [hstart] at hboundary
  obtain ⟨w, hw⟩ := Option.isSome_iff_exists.mp hboundary
  obtain ⟨a, rfl, rfl⟩ := sliceFrom_eq_some hw
  obtain ⟨front, opening, back, hparts, hwindow, hopening⟩ := @parts_window classes a w
  have hanchor : suffixAnchor classes (a ++ w) lookback =
      some ((((byteSpans 0 (opening ++ back)).drop 2).map fun span =>
        (utf8 a).length + span.1).getLast?.getD 0) := by
    simp only [suffixAnchor, hstart, hw, pieces_eq_parts, hwindow, some_bind]
  rw [hanchor]
  refine ⟨_, rfl, fun hpos => ?_⟩
  by_cases hshort : (opening ++ back).length ≤ 2
  · rw [drop_eq_nil_of_le (by rwa [length_byteSpans])] at hpos
    exact absurd hpos (lt_irrefl 0)
  · obtain ⟨later, last, rfl⟩ : ∃ later last, back = later ++ [last] := by
      have hback : back ≠ [] := by
        rintro rfl
        rw [append_nil] at hshort
        exact hshort hopening
      exact ⟨_, _, (dropLast_append_getLast hback).symm⟩
    rw [← append_assoc] at hwindow hparts hshort ⊢
    refine ⟨front ++ later, last, hparts, ?_⟩
    rw [length_append, length_singleton] at hshort
    rw [byteSpans_append, drop_append_of_le_length (by rw [length_byteSpans]; omega)]
    simp only [byteSpans, map_append, map_cons, map_nil, getLast?_concat,
      Option.getD_some, Nat.zero_add]
    -- both ways the text before the last part is all of it but that part
    have hsame : a ++ (opening ++ later).flatten = (front ++ later).flatten := by
      have htext := flatten_parts classes (a ++ w)
      have hw' := flatten_parts classes w
      rw [hparts, flatten_append, flatten_singleton] at htext
      rw [hwindow, flatten_append, flatten_singleton] at hw'
      rw [← hw', ← append_assoc] at htext
      exact (append_cancel_right htext).symm
    rw [← hsame, utf8_append, length_append]

variable (classes) in
theorem suffixAnchor_isSome (text : List Char) (lookback : Nat) :
    (suffixAnchor classes text lookback).isSome = true := by
  obtain ⟨p, hp, -⟩ := @exists_suffixAnchor classes text lookback
  rw [hp]
  rfl

theorem isCharBoundary_suffixAnchor {text : List Char} {lookback p : Nat}
    (h : suffixAnchor classes text lookback = some p) : isCharBoundary text p = true := by
  obtain ⟨q, hq, hlast⟩ := @exists_suffixAnchor classes text lookback
  rw [h] at hq
  obtain rfl := Option.some.inj hq
  rcases Nat.eq_zero_or_pos p with rfl | hpos
  · exact isCharBoundary_zero text
  · obtain ⟨init, last, hparts, rfl⟩ := hlast hpos
    have htext := flatten_parts classes text
    rw [hparts, flatten_append] at htext
    exact isCharBoundary_iff.mpr ⟨_, _, htext.symm, rfl⟩

/-- A contraction that is completed covers where the last piece began. -/
theorem not_isBoundary_of_completes {text s : List Char} {init : List (List Char)}
    {last : List Char} (h : CompletesContraction classes text s)
    (hparts : parts classes text = init ++ [last]) :
    ¬ IsBoundary classes (text ++ s) (utf8 init.flatten).length := by
  obtain ⟨front, letter, hfront, hcontraction⟩ := h
  obtain ⟨k, hk⟩ := Option.ne_none_iff_exists'.mp hcontraction
  obtain ⟨hinit, -⟩ : init = front ++ [['\'']] ∧ [last] = [[letter]] :=
    append_inj' (hparts.symm.trans (hfront.trans (append_assoc front [['\'']] [[letter]]).symm)) rfl
  obtain ⟨word, hmem, rest, hword, rfl⟩ := contraction_eq_some.mp hk
  have hpiece : IsPiece classes ('\'' :: word) rest := .contracted (by
    have htake := contraction_take hk
    rwa [hword, take_contraction] at htake)
  have hlonger : parts classes (text ++ s) = front ++ ('\'' :: word) :: parts classes rest := by
    rw [parts_append hfront (by simp) fun _ _ _ hback => by simp at hback]
    have hflatten : [['\''], [letter]].flatten ++ s = ('\'' :: word) ++ rest := hword
    rw [hflatten, hpiece.parts_append]
  have hlong : 2 ≤ (utf8 ('\'' :: word)).length := by
    have hlength := length_utf8_contraction hk
    rw [hword, take_contraction] at hlength
    rw [hlength]
    exact (by decide : ∀ word ∈ contractionWords, 2 ≤ word.length + 1) word hmem
  rintro ⟨spans, hspans, hboundary⟩
  obtain ⟨span, hspan, hstart⟩ := mem_map.mp hboundary
  rw [pieces_eq_parts, hlonger] at hspans
  obtain rfl := Option.some.inj hspans
  have hquote : (utf8 init.flatten).length = (utf8 front.flatten).length + 1 := by
    rw [hinit, flatten_append, utf8_append, length_append]
    rfl
  rw [byteSpans_append, Nat.zero_add, byteSpans] at hspan
  rcases mem_append.mp hspan with hbefore | hspan
  · have := lt_of_mem_byteSpans (fun p hp => @ne_nil_of_mem_parts classes text p
      (by simp [hfront, hp])) hbefore
    omega
  · rcases mem_cons.mp hspan with rfl | hafter
    · simp only at hstart
      omega
    · have := le_of_mem_byteSpans hafter
      omega

/-- The anchor is a boundary of the text, and whatever is appended unless a contraction is
completed; then the pieces from there on are those of the text from there on.  The counts on both
sides of it add up, unless whitespace before it is given back. -/
theorem suffix_anchor_stable (encoder : Encoder) (text s : List Char) (lookback : Nat) :
    ∃ p, suffixAnchor encoder.classes text lookback = some p ∧
      (0 < p → IsBoundary encoder.classes text p ∧
        (IsBoundary encoder.classes (text ++ s) p ↔
          ¬ CompletesContraction encoder.classes text s) ∧
        (¬ CompletesContraction encoder.classes text s → ∃ head tail, text = head ++ tail ∧
          (utf8 head).length = p ∧
          (∃ spans later, pieces encoder.classes (utf8 (text ++ s)) = some spans ∧
            pieces encoder.classes (utf8 (tail ++ s)) = some later ∧
            spans.filter (fun span => p ≤ span.1) =
              later.map fun span => (p + span.1, p + span.2)) ∧
          (¬ GivesBack encoder.classes text → ∃ before after,
            estimateTokens encoder head = some before ∧
            estimateTokens encoder (tail ++ s) = some after ∧
            estimateTokens encoder (text ++ s) = some (before + after)))) := by
  obtain ⟨p, hanchor, hp⟩ := @exists_suffixAnchor encoder.classes text lookback
  refine ⟨p, hanchor, fun hpos => ?_⟩
  obtain ⟨init, last, hparts, rfl⟩ := hp hpos
  have htext := flatten_parts encoder.classes text
  rw [hparts, flatten_append, flatten_singleton] at htext
  have hlast : last ≠ [] := @ne_nil_of_mem_parts encoder.classes text last (by simp [hparts])
  have hinit : ∀ part ∈ init, part ≠ [] := fun part hpart =>
    @ne_nil_of_mem_parts encoder.classes text part (by simp [hparts, hpart])
  have hlonger (hquote : ¬ CompletesContraction encoder.classes text s) :
      parts encoder.classes (text ++ s) = init ++ parts encoder.classes (last ++ s) := by
    have happend := parts_append (s := s) hparts (by simp) fun front letter hfront hback => by
      by_contra hsome
      exact hquote ⟨front, letter, by rw [hparts, hfront, hback]; simp, hsome⟩
    rwa [flatten_singleton] at happend
  refine ⟨isBoundary_of_parts hparts (by simp), ⟨fun hboundary hquote =>
    not_isBoundary_of_completes hquote hparts hboundary, fun hquote =>
    isBoundary_of_parts (hlonger hquote) (by simp [parts_eq_nil, hlast])⟩, fun hquote => ?_⟩
  refine ⟨init.flatten, last, htext.symm, rfl, ?_, fun hspace => ?_⟩
  · refine ⟨_, _, pieces_eq_parts _, pieces_eq_parts _, ?_⟩
    rw [hlonger hquote]
    exact filter_byteSpans hinit
  · have hhead : parts encoder.classes init.flatten = init := by
      refine parts_flatten hparts (by simp) fun a w g d b hhead htail hw hg => ?_
      by_contra hd
      rw [flatten_singleton] at htail
      exact hspace ⟨init, a, w, g, d, b, htail ▸ hparts, hhead, hw, hg, hd⟩
    refine ⟨_, _, estimateTokens_eq _ _, estimateTokens_eq _ _, ?_⟩
    rw [estimateTokens_eq, hlonger hquote, hhead, tokensOf_append]

/-- The single bytes and a token for a space and a newline. -/
def spaceNewline : Encoder where
  classes := ⟨asciiClass, fun _ _ => rfl⟩
  tokens := withBytes [([0x20, 0x0A], 256)]
  valid := validTokens_withBytes (by decide) (by decide) (by decide)

theorem suffix_anchor_stable_word :
    ¬ CompletesContraction spaceNewline.classes "a b c".toList "d".toList ∧
      suffixAnchor spaceNewline.classes "a b c".toList 100 = some 3 ∧
      IsBoundary spaceNewline.classes ("a b c".toList ++ "d".toList) 3 := by
  have hquote : ¬ CompletesContraction spaceNewline.classes "a b c".toList "d".toList := by
    rintro ⟨front, letter, hparts, -⟩
    have hthree : parts spaceNewline.classes "a b c".toList =
        [['a']] ++ [[' ', 'b'], [' ', 'c']] := by
      decide +kernel
    rw [hthree] at hparts
    cases append_inj_right' hparts rfl
  have hanchor : suffixAnchor spaceNewline.classes "a b c".toList 100 = some 3 := by decide +kernel
  obtain ⟨p, hp, hstable⟩ := suffix_anchor_stable spaceNewline "a b c".toList "d".toList 100
  obtain rfl := Option.some.inj hp
  exact ⟨hquote, hanchor, (hstable (by decide)).2.1.mpr hquote⟩

/-- With `'r` at the end the anchor stands between them, and an `e` makes one piece of all
three.  A space and a newline are two pieces before a letter and one where the text ends. -/
theorem suffix_anchor_moves :
    (∃ text s p, suffixAnchor spaceNewline.classes text 100 = some p ∧ 0 < p ∧
      IsBoundary spaceNewline.classes text p ∧ ¬ IsBoundary spaceNewline.classes (text ++ s) p) ∧
    ∃ head tail, suffixAnchor spaceNewline.classes (head ++ tail) 100 = some (utf8 head).length ∧
      estimateTokens spaceNewline (head ++ tail) = some 4 ∧
      estimateTokens spaceNewline head = some 2 ∧ estimateTokens spaceNewline tail = some 1 := by
  refine ⟨⟨"a b'r".toList, "e".toList, 4, by decide +kernel, by decide, ?_, ?_⟩,
    "a \n".toList, "b".toList, by decide +kernel, by decide +kernel, by decide +kernel,
    by decide +kernel⟩
  · exact ⟨[(0, 1), (1, 3), (3, 4), (4, 5)], by decide +kernel, by decide⟩
  · rintro ⟨spans, hspans, hmem⟩
    have hpieces : pieces spaceNewline.classes (utf8 ("a b'r".toList ++ "e".toList)) =
        some [(0, 1), (1, 3), (3, 6)] := by
      decide +kernel
    obtain rfl := Option.some.inj hspans
    exact absurd hmem (by decide)

end Eidnara.Tokenizer
