import Eidnara.Tokenizer.Estimate

/-!
# Paragraphs

`paragraph_spans` cuts a text at each empty line that a character outside whitespace follows.
The whitespace run before that character gives its last newline back, so the cut is between
pieces and the counts of the paragraphs add up.
-/

namespace Eidnara.Tokenizer

open Lib Utf8 List

/-! ## The cuts -/

section

variable (classes : Classes)

def startsOutsideWhitespace (text : List Char) : Bool :=
  text.head?.any fun c => !classes.is .space c

def findNewline : List Char → Option Nat
  | [] => none
  | c :: s => if c = '\n' then some 0 else (findNewline s).map ((utf8 [c]).length + ·)

/-- The offset of the second newline of the next cut, from the offset `cursor` on. -/
def nextCut (text : List Char) : Nat → Nat → Option (Option Nat)
  | 0, _ => none
  | fuel + 1, cursor => do
    let rest ← sliceFrom text cursor
    match findNewline rest with
    | none => some none
    | some offset =>
      let second := cursor + offset + 1
      if (utf8 text)[second]? = some 0x0A then do
        let after ← sliceFrom text (second + 1)
        if startsOutsideWhitespace classes after then some (some second)
        else nextCut text fuel second
      else nextCut text fuel second

/-- The paragraphs from the offset `start` on, which is where each search begins as well. -/
def paragraphSpansFrom (text : List Char) : Nat → Nat → Option (List (List Char))
  | 0, _ => none
  | fuel + 1, start => do
    match ← nextCut classes text (text.length + 1) start with
    | none => (sliceFrom text start).map ([·])
    | some second => do
      let span ← sliceChars text start second
      let spans ← paragraphSpansFrom text fuel (second + 1)
      some (span :: spans)

def paragraphSpans (text : List Char) : Option (List (List Char)) :=
  paragraphSpansFrom classes text (text.length + 1) 0

end

variable {classes : Classes}

theorem findNewline_none {s : List Char} (h : '\n' ∉ s) : findNewline s = none := by
  induction s with
  | nil => rfl
  | cons c s ih =>
    rw [mem_cons, not_or] at h
    rw [findNewline, if_neg (Ne.symm h.1), ih h.2]
    rfl

theorem findNewline_append {x : List Char} (h : '\n' ∉ x) (s : List Char) :
    findNewline (x ++ '\n' :: s) = some (utf8 x).length := by
  induction x with
  | nil => rfl
  | cons c x ih =>
    rw [mem_cons, not_or] at h
    rw [cons_append, findNewline, if_neg (Ne.symm h.1), ih h.2, length_utf8_cons c x]
    rfl

theorem startsOutsideWhitespace_iff {text : List Char} :
    startsOutsideWhitespace classes text = true ↔
      ∃ c s, text = c :: s ∧ classes.of c ≠ .space := by
  cases text with
  | nil => simp [startsOutsideWhitespace]
  | cons c s => simp [startsOutsideWhitespace, Classes.is]

theorem utf8_newline : (utf8 ['\n']).length = 1 := rfl

/-- A cut found in what follows `a` is an empty line before a paragraph. -/
def IsCut (classes : Classes) (a r : List Char) (second : Nat) : Prop :=
  ∃ x b, r = x ++ ['\n'] ++ '\n' :: b ∧ startsOutsideWhitespace classes b = true ∧
    second = (utf8 (a ++ (x ++ ['\n']))).length

theorem IsCut.later {a r x : List Char} {second : Nat} (h : IsCut classes (a ++ x) r second) :
    IsCut classes a (x ++ r) second := by
  obtain ⟨x', b, rfl, hb, rfl⟩ := h
  exact ⟨x ++ x', b, by simp, hb, by simp⟩

theorem exists_nextCut {fuel : Nat} {a r : List Char} (hfuel : r.length < fuel) :
    ∃ found, nextCut classes (a ++ r) fuel (utf8 a).length = some found ∧
      ∀ second, found = some second → IsCut classes a r second := by
  induction fuel generalizing a r with
  | zero => omega
  | succ fuel ih =>
    rw [nextCut, sliceFrom_append, Option.bind_eq_bind, Option.bind_some]
    by_cases hnewline : '\n' ∈ r
    · obtain ⟨x, s, rfl, hx⟩ := eq_append_cons_of_mem hnewline
      have hsecond : (utf8 a).length + (utf8 x).length + 1 =
          (utf8 (a ++ (x ++ ['\n']))).length := by
        rw [utf8_append, utf8_append, length_append, length_append, utf8_newline]
        omega
      have hrest : x ++ '\n' :: s = x ++ ['\n'] ++ s := by simp
      have hlength : s.length < fuel := by
        rw [length_append, length_cons] at hfuel
        omega
      have hlater : ∃ found, nextCut classes (a ++ (x ++ '\n' :: s)) fuel
          (utf8 (a ++ (x ++ ['\n']))).length = some found ∧
            ∀ second, found = some second → IsCut classes a (x ++ '\n' :: s) second := by
        obtain ⟨found, hfound, hcut⟩ := @ih (a ++ (x ++ ['\n'])) s hlength
        rw [hrest]
        refine ⟨found, ?_, fun second hsome => (hcut second hsome).later⟩
        rwa [append_assoc] at hfound
      have hat : At (utf8 (a ++ (x ++ '\n' :: s))) (utf8 (a ++ (x ++ ['\n']))).length s := by
        have := (at_zero (a ++ (x ++ ['\n']) ++ s)).step
        rwa [Nat.zero_add, append_assoc, ← hrest] at this
      have hbyte := byte_eq_iff hat (a := '\n') (by decide) (v := 0x0A) rfl
      simp only [findNewline_append hx, hsecond]
      by_cases hnext : s.head? = some '\n'
      · obtain ⟨b, rfl⟩ := head?_eq_some_iff.mp hnext
        have hafter : sliceFrom (a ++ (x ++ '\n' :: '\n' :: b))
            ((utf8 (a ++ (x ++ ['\n']))).length + 1) = some b := by
          have := sliceFrom_append (a ++ (x ++ ['\n']) ++ ['\n']) b
          rw [utf8_append, length_append, utf8_newline] at this
          simpa using this
        rw [if_pos (hbyte.mpr hnext), hafter, Option.bind_some]
        by_cases houtside : startsOutsideWhitespace classes b = true
        · rw [if_pos houtside]
          refine ⟨_, rfl, fun second hsome => ?_⟩
          obtain rfl := Option.some.inj hsome
          exact ⟨x, b, by simp, houtside, rfl⟩
        · rw [if_neg houtside]
          exact hlater
      · rw [if_neg (hbyte.not.mpr hnext)]
        exact hlater
    · exact ⟨none, by rw [findNewline_none hnewline], nofun⟩

/-- A text cut at some of its empty lines. -/
inductive Splits (classes : Classes) : List Char → List (List Char) → Prop
  | whole (text : List Char) : Splits classes text [text]
  | cut {x b : List Char} {spans : List (List Char)}
      (hb : startsOutsideWhitespace classes b = true) (hspans : Splits classes b spans) :
      Splits classes (x ++ ['\n'] ++ '\n' :: b) ((x ++ ['\n']) :: spans)

theorem exists_paragraphSpansFrom {fuel : Nat} {a r : List Char} (hfuel : r.length < fuel) :
    ∃ spans, paragraphSpansFrom classes (a ++ r) fuel (utf8 a).length = some spans ∧
      Splits classes r spans := by
  induction fuel generalizing a r with
  | zero => omega
  | succ fuel ih =>
    obtain ⟨found, hfound, hcut⟩ := @exists_nextCut classes ((a ++ r).length + 1) a r (by
      rw [length_append]
      omega)
    rw [paragraphSpansFrom, hfound, some_bind]
    cases found with
    | none => exact ⟨[r], by simp only [sliceFrom_append, Option.map_some], .whole r⟩
    | some second =>
      obtain ⟨x, b, rfl, hb, rfl⟩ := hcut second rfl
      have hspan : sliceChars (a ++ (x ++ ['\n'] ++ '\n' :: b)) (utf8 a).length
          (utf8 (a ++ (x ++ ['\n']))).length = some (x ++ ['\n']) := by
        have := sliceChars_append a (x ++ ['\n']) ('\n' :: b)
        rwa [append_assoc, ← length_append, ← utf8_append] at this
      obtain ⟨spans, hspans, hsplits⟩ := @ih (a ++ (x ++ ['\n']) ++ ['\n']) b (by
        simp only [length_append, length_cons] at hfuel
        omega)
      have htext : a ++ (x ++ ['\n'] ++ '\n' :: b) =
          a ++ (x ++ ['\n']) ++ ['\n'] ++ b := by simp
      rw [utf8_append, length_append, utf8_newline, ← htext] at hspans
      refine ⟨(x ++ ['\n']) :: spans, ?_, .cut hb hsplits⟩
      simp only [hspan, hspans]
      rfl

/-! ## The counts -/

theorem IsPiece.forall_space {p rest : List Char} (h : IsPiece classes p rest)
    (hlast : ∀ c ∈ p.getLast?, classes.of c = .space) : ∀ c ∈ p, classes.of c = .space := by
  cases h with
  | contracted h =>
    obtain ⟨letters, rest, hne, hletters, rfl, hlength⟩ := contraction_letters classes h
    obtain rfl : rest = [] := by
      rw [length_cons, length_append] at hlength
      exact eq_nil_of_length_eq_zero (by omega)
    have hmem := getLast_mem hne
    have hspace := hlast (letters.getLast hne) (by
      rw [append_nil, Option.mem_def, ← singleton_append, getLast?_append_of_ne_nil _ hne,
        getLast?_eq_some_getLast hne])
    rw [hletters _ hmem] at hspace
    cases hspace
  | word hcls hlead hrun hall =>
    have hspace := hlast _ (by
      rw [getLast?_append_of_ne_nil _ hrun]
      exact getLast?_eq_some_getLast hrun)
    exact absurd ((hall _ (getLast_mem hrun)).symm.trans hspace) hcls
  | trailing _ hall => exact hall
  | lone hc => simpa
  | givenBack _ hall => exact hall

theorem contraction_none_of_space {c : Char} (hc : classes.of c = .space) (s : List Char) :
    contraction ('\'' :: c :: s) = none := by
  cases h : contraction ('\'' :: c :: s) with
  | none => rfl
  | some k =>
    obtain ⟨letters, rest, hne, hletters, hs, -⟩ := contraction_letters classes h
    obtain ⟨letter, letters, rfl⟩ := exists_cons_of_ne_nil hne
    obtain ⟨rfl, -⟩ := List.cons.inj (List.cons.inj hs).2
    rw [hletters c (mem_cons_self ..)] at hc
    cases hc

/-- Before a cut the pieces are those of a text that ends there. -/
theorem IsPiece.before_cut {p r b : List Char} (h : IsPiece classes p r)
    (hlast : ∀ c ∈ (p ++ r).getLast?, classes.of c = .space)
    (hb : startsOutsideWhitespace classes b = true) :
    IsPiece classes p (r ++ '\n' :: b) := by
  obtain ⟨d, s, rfl, hd⟩ := startsOutsideWhitespace_iff.mp hb
  by_cases hr : r = []
  · subst hr
    rw [append_nil] at hlast
    exact .givenBack h.ne_nil (h.forall_space hlast) of_newline hd
  · refine h.append hr fun letter _ hletter => ?_
    subst hletter
    exact contraction_none_of_space (hlast letter (by simp)) _

theorem parts_cut {u b : List Char} (hlast : ∀ c ∈ u.getLast?, classes.of c = .space)
    (hb : startsOutsideWhitespace classes b = true) :
    parts classes (u ++ '\n' :: b) = parts classes u ++ ['\n'] :: parts classes b := by
  generalize hparts : parts classes u = all
  induction all generalizing u with
  | nil =>
    obtain rfl := parts_eq_nil.mp hparts
    obtain ⟨d, s, rfl, hd⟩ := startsOutsideWhitespace_iff.mp hb
    exact (IsPiece.lone of_newline (by decide) hd).parts_append
  | cons p all ih =>
    obtain ⟨rest, rfl, hpiece, hrest⟩ := parts_eq_cons hparts
    have hrestLast : ∀ c ∈ rest.getLast?, classes.of c = .space := fun c hc =>
      hlast c (mem_getLast?_append_of_mem_getLast? hc)
    rw [append_assoc, (hpiece.before_cut hlast hb).parts_append, ih hrestLast hrest]
    rfl

theorem Splits.intercalate_eq {text : List Char} {spans : List (List Char)}
    (h : Splits classes text spans) : spans ≠ [] ∧ List.intercalate ['\n'] spans = text := by
  induction h with
  | whole text => exact ⟨cons_ne_nil _ _, by simp⟩
  | @cut x b spans hb hspans ih =>
    obtain ⟨hne, hjoin⟩ := ih
    obtain ⟨first, rest, rfl⟩ := exists_cons_of_ne_nil hne
    refine ⟨cons_ne_nil _ _, ?_⟩
    rw [intercalate_cons_cons, hjoin]
    simp

section

variable (encoder : Encoder)

def tokenCount (text : List Char) : Nat := tokensOf encoder (parts encoder.classes text)

variable {encoder}

theorem Splits.tokenCount_eq {text : List Char} {spans : List (List Char)}
    (h : Splits encoder.classes text spans) : tokenCount encoder text =
      (spans.map (tokenCount encoder)).sum + (spans.length - 1) * tokenCount encoder ['\n'] := by
  induction h with
  | whole text => simp
  | @cut x b spans hb hspans ih =>
    have hlast : ∀ c ∈ (x ++ ['\n']).getLast?, encoder.classes.of c = .space := by
      simpa using of_newline
    have hcount : tokenCount encoder (x ++ ['\n'] ++ '\n' :: b) =
        tokenCount encoder (x ++ ['\n']) + (tokenCount encoder ['\n'] + tokenCount encoder b) := by
      have hnewline : tokenCount encoder ['\n'] = tokensOf encoder [['\n']] := by
        rw [tokenCount, parts_singleton]
      rw [tokenCount, parts_cut hlast hb, tokensOf_append, hnewline]
      exact congrArg _ (tokensOf_append encoder [['\n']] (parts encoder.classes b))
    obtain ⟨first, rest, rfl⟩ := exists_cons_of_ne_nil hspans.intercalate_eq.1
    rw [hcount, ih]
    simp only [map_cons, sum_cons, length_cons, Nat.add_sub_cancel]
    rw [Nat.succ_mul]
    omega

/-- Texts joined by empty lines are split there. -/
theorem splits_join {front : List (List Char)} {last : List Char}
    (h : ∀ t ∈ (front ++ [last]).tail, startsOutsideWhitespace classes t = true) :
    Splits classes (List.intercalate ['\n', '\n'] (front ++ [last]))
      (front.map (· ++ ['\n']) ++ [last]) := by
  induction front with
  | nil =>
    simpa using Splits.whole last
  | cons t front ih =>
    obtain ⟨second, rest, hsecond⟩ : ∃ second rest, front ++ [last] = second :: rest :=
      exists_cons_of_ne_nil (by simp)
    have hstart : ∀ u ∈ front ++ [last], startsOutsideWhitespace classes u = true := h
    have hsplits := ih fun u hu => hstart u (mem_of_mem_tail hu)
    have houtside : startsOutsideWhitespace classes
        (List.intercalate ['\n', '\n'] (front ++ [last])) = true := by
      obtain ⟨c, s, hs, hc⟩ := startsOutsideWhitespace_iff.mp (hstart second (by simp [hsecond]))
      rw [startsOutsideWhitespace_iff, hsecond, hs]
      cases rest with
      | nil => exact ⟨c, s, by simp, hc⟩
      | cons third rest => exact ⟨c, _, by rw [intercalate_cons_cons]; rfl, hc⟩
    have hjoin : List.intercalate ['\n', '\n'] (t :: front ++ [last]) =
        t ++ ['\n'] ++ '\n' :: List.intercalate ['\n', '\n'] (front ++ [last]) := by
      rw [cons_append, hsecond, intercalate_cons_cons]
      simp
    rw [hjoin]
    exact .cut houtside hsplits

end

/-- The paragraphs of a text with a newline between any two are the text, and its count is
theirs and one newline's for each cut.  So is the count of texts joined by empty lines, where
each but the first starts outside whitespace. -/
theorem paragraph_counts_add_up (encoder : Encoder) :
    ∃ count : List Char → Nat, (∀ text, estimateTokens encoder text = some (count text)) ∧
      (∀ text, ∃ spans, paragraphSpans encoder.classes text = some spans ∧ spans ≠ [] ∧
        List.intercalate ['\n'] spans = text ∧
        count text = (spans.map count).sum + (spans.length - 1) * count ['\n']) ∧
      ∀ (front : List (List Char)) (last : List Char),
        (∀ t ∈ (front ++ [last]).tail, startsOutsideWhitespace encoder.classes t = true) →
        count (List.intercalate ['\n', '\n'] (front ++ [last])) =
          (front.map fun t => count (t ++ ['\n'])).sum + front.length * count ['\n'] +
            count last := by
  refine ⟨tokenCount encoder, estimateTokens_eq encoder, fun text => ?_, fun front last h => ?_⟩
  · obtain ⟨spans, hspans, hsplits⟩ :=
      @exists_paragraphSpansFrom encoder.classes (text.length + 1) [] text (Nat.lt_succ_self _)
    exact ⟨spans, hspans, hsplits.intercalate_eq.1, hsplits.intercalate_eq.2,
      hsplits.tokenCount_eq⟩
  · rw [(splits_join h).tokenCount_eq, map_append, sum_append, map_map,
      length_append, length_map]
    rw [Nat.add_right_comm]
    rfl

example : paragraphSpans ⟨asciiClass, fun _ _ => rfl⟩ "a\n\nb\n\n c\n\n\nd".toList =
    some ["a\n".toList, "b\n\n c\n\n".toList, "d".toList] := by
  decide +kernel

end Eidnara.Tokenizer
