import Eidnara.Tokenizer.Pieces
import Mathlib.Data.List.TakeWhile

/-!
# The parts of a text and of its extensions

The scanner never looks back, and it looks ahead only to see whether a run goes on.  `IsPiece`
says what may follow each kind of piece; from it come the parts of a text with something
appended, the parts of a prefix, and those of a window that opens anywhere.
-/

namespace Eidnara.Tokenizer

open Lib Utf8 List

variable {classes : Classes}

/-! ## Contractions -/

variable {s : List Char} {k : Nat}

theorem contraction_append (h : contraction s = some k) (t : List Char) :
    contraction (s ++ t) = some k := by
  obtain ⟨word, hword, rest, rfl, rfl⟩ := contraction_eq_some.mp h
  exact contraction_eq_some.mpr ⟨word, hword, rest ++ t, by simp, rfl⟩

theorem contraction_take (h : contraction s = some k) :
    contraction (s.take k) = some (s.take k).length := by
  obtain ⟨word, hword, rest, rfl, rfl⟩ := contraction_eq_some.mp h
  rw [take_contraction]
  exact contraction_eq_some.mpr ⟨word, hword, [], by simp, rfl⟩

variable {t : List Char}

theorem contraction_of_append (h : contraction (s ++ t) = none) : contraction s = none := by
  cases hs : contraction s with
  | none => rfl
  | some k => rw [contraction_append hs t] at h; cases h

theorem contraction_append_none (h : contraction s = none) (hlong : 2 < s.length) (t : List Char) :
    contraction (s ++ t) = none := by
  match s, h with
  | a :: b :: c :: s, h =>
    by_cases ha : a = '\''
    · subst ha
      exact h
    · exact contraction_none ha
  | [a, b], _ => simp at hlong
  | [a], _ => simp at hlong
  | [], _ => simp at hlong

variable {c : Char}

theorem of_letter (h : c.toNat < 0x80) (hc : asciiClass c.toNat = .letter) :
    classes.of c = .letter :=
  (classes.ascii _ h).trans hc

theorem of_quote : classes.of '\'' = .other := classes.ascii 0x27 (by decide)

theorem of_newline : classes.of '\n' = .space := classes.ascii 0x0A (by decide)

variable (classes) in
theorem contraction_letters (h : contraction s = some k) :
    ∃ letters rest, letters ≠ [] ∧ (∀ c ∈ letters, classes.of c = .letter) ∧
      s = '\'' :: (letters ++ rest) ∧ k = letters.length + 1 := by
  obtain ⟨word, hword, rest, rfl, rfl⟩ := contraction_eq_some.mp h
  have hwords : ∀ word ∈ contractionWords, word ≠ [] ∧
      ∀ c ∈ word, c.toNat < 0x80 ∧ asciiClass c.toNat = .letter := by
    simp only [contractionWords, forall_mem_cons, not_mem_nil, false_implies, implies_true]
    decide
  obtain ⟨hnil, hletters⟩ := hwords word hword
  exact ⟨word, rest, hnil, fun c hc => of_letter (hletters c hc).1 (hletters c hc).2, rfl, rfl⟩

/-! ## What may follow a piece -/

inductive IsPiece (classes : Classes) : List Char → List Char → Prop
  | contracted {p rest : List Char} (h : contraction p = some p.length) : IsPiece classes p rest
  | word {cls : Class} {lead run rest : List Char} (hcls : cls ≠ .space)
      (hlead : lead = [] ∨ lead = [' ']) (hrun : run ≠ []) (hall : ∀ c ∈ run, classes.of c = cls)
      (hstop : ∀ c ∈ rest.head?, classes.of c ≠ cls)
      (hnone : contraction (lead ++ run ++ rest) = none) :
      IsPiece classes (lead ++ run) rest
  | trailing {run : List Char} (hrun : run ≠ []) (hall : ∀ c ∈ run, classes.of c = .space) :
      IsPiece classes run []
  | lone {c d : Char} {rest : List Char} (hc : classes.of c = .space) (hblank : c ≠ ' ')
      (hd : classes.of d ≠ .space) : IsPiece classes [c] (d :: rest)
  | givenBack {run : List Char} {last d : Char} {rest : List Char} (hrun : run ≠ [])
      (hall : ∀ c ∈ run, classes.of c = .space) (hlast : classes.of last = .space)
      (hd : classes.of d ≠ .space) : IsPiece classes run (last :: d :: rest)

variable {cls : Class} {run rest : List Char}

theorem takeWhile_is_append (hall : ∀ c ∈ run, classes.of c = cls)
    (hstop : ∀ c ∈ rest.head?, classes.of c ≠ cls) :
    (run ++ rest).takeWhile (classes.is cls) = run ∧
      (run ++ rest).dropWhile (classes.is cls) = rest := by
  have hrun : ∀ c ∈ run, classes.is cls c = true := fun c hc => by simp [Classes.is, hall c hc]
  rw [takeWhile_append_of_pos hrun, dropWhile_append_of_pos hrun]
  cases rest with
  | nil => simp
  | cons c rest =>
    have hc : classes.is cls c = false := is_eq_false (hstop c rfl)
    rw [takeWhile_cons_of_neg (by simp [hc]), dropWhile_cons_of_neg (by simp [hc]),
      append_nil]
    exact ⟨rfl, rfl⟩

variable (classes) in
theorem exists_run (c : Char) (s : List Char) : ∃ run rest, c :: s = run ++ rest ∧ run ≠ [] ∧
    (∀ a ∈ run, classes.of a = classes.of c) ∧ ∀ a ∈ rest.head?, classes.of a ≠ classes.of c := by
  refine ⟨c :: s.takeWhile (classes.is (classes.of c)), s.dropWhile (classes.is (classes.of c)),
    ?_, cons_ne_nil _ _, forall_mem_cons.mpr ⟨rfl, fun a ha => ?_⟩, fun a ha => ?_⟩
  · rw [cons_append, takeWhile_append_dropWhile]
  · simpa [Classes.is] using mem_takeWhile_imp ha
  · have hnot := head?_dropWhile_not (classes.is (classes.of c)) s
    rw [Option.mem_def.mp ha] at hnot
    simpa [Classes.is] using hnot

theorem spacedClass_none (h : ∀ d ∈ s.head?, classes.of d = .space) :
    spacedClass classes (c :: s) = none := by
  unfold spacedClass
  split
  · rename_i d rest heq
    obtain ⟨-, rfl⟩ := List.cons.inj heq
    exact if_neg (not_not.mpr (h d rfl))
  · rfl

theorem spacedClass_none_of_ne (hc : c ≠ ' ') (s : List Char) :
    spacedClass classes (c :: s) = none := by
  unfold spacedClass
  split
  · rename_i heq
    exact absurd (List.cons.inj heq).1 hc
  · rfl

theorem ne_quote_of_space (hc : classes.of c = .space) : c ≠ '\'' := by
  rintro rfl
  rw [of_quote] at hc
  cases hc

variable {p : List Char}

theorem IsPiece.ne_nil (h : IsPiece classes p rest) : p ≠ [] := by
  cases h with
  | contracted h =>
    rintro rfl
    cases h
  | word _ _ hrun => exact append_ne_nil_of_right_ne_nil _ hrun
  | trailing hrun => exact hrun
  | lone => exact cons_ne_nil _ _
  | givenBack hrun => exact hrun

theorem nextPiece_contraction (h : contraction s = some k) : nextPiece classes s = s.take k := by
  cases s with
  | nil => cases h
  | cons c s => rw [nextPiece, h]

theorem nextPiece_spaced {d : Char} (hd : classes.of d ≠ .space) (s : List Char) :
    nextPiece classes (' ' :: d :: s) = ' ' :: (d :: s).takeWhile (classes.is (classes.of d)) := by
  have hspaced : spacedClass classes (' ' :: d :: s) = some (classes.of d) := if_pos hd
  rw [nextPiece, contraction_none (by decide), hspaced]

theorem nextPiece_plain (hnone : contraction (c :: s) = none) (hc : classes.of c ≠ .space) :
    nextPiece classes (c :: s) = (c :: s).takeWhile (classes.is (classes.of c)) := by
  have hblank : c ≠ ' ' := by
    rintro rfl
    exact hc of_space
  rw [nextPiece, hnone, spacedClass_none_of_ne hblank, takeWhile_cons_of_pos (is_self c)]
  exact if_pos hc

theorem nextPiece_space (hc : classes.of c = .space)
    (hspaced : spacedClass classes (c :: s) = none) :
    nextPiece classes (c :: s) =
      if s.dropWhile (classes.is .space) = [] ∨ s.takeWhile (classes.is .space) = [] then
        c :: s.takeWhile (classes.is .space)
      else c :: (s.takeWhile (classes.is .space)).dropLast := by
  rw [nextPiece, contraction_none (ne_quote_of_space hc), hspaced]
  exact if_neg (not_not.mpr hc)

theorem IsPiece.nextPiece_eq (h : IsPiece classes p rest) : nextPiece classes (p ++ rest) = p := by
  cases h with
  | contracted h => rw [nextPiece_contraction (contraction_append h rest), take_left]
  | @word cls lead run _ hcls hlead hrun hall hstop hnone =>
    obtain ⟨d, tail, rfl⟩ := exists_cons_of_ne_nil hrun
    have hd : classes.of d = cls := hall d (mem_cons_self ..)
    have htake := (takeWhile_is_append hall hstop).1
    rcases hlead with rfl | rfl
    · rw [nil_append, cons_append] at hnone ⊢
      rw [nextPiece_plain hnone (by rwa [hd]), hd]
      exact htake
    · rw [append_assoc, cons_append, nil_append, cons_append,
        nextPiece_spaced (by rwa [hd]), hd]
      exact congrArg (' ' :: ·) htake
  | trailing hrun hall =>
    obtain ⟨c, tail, rfl⟩ := exists_cons_of_ne_nil hrun
    obtain ⟨hc, htail⟩ := forall_mem_cons.mp hall
    obtain ⟨htake, hdrop⟩ := @takeWhile_is_append classes .space tail [] htail (by simp)
    rw [append_nil] at htake hdrop ⊢
    rw [nextPiece_space hc (spacedClass_none fun d hd => htail d (mem_of_mem_head? hd)),
      hdrop, htake, if_pos (.inl rfl)]
  | @lone c d rest hc hblank hd =>
    obtain ⟨htake, -⟩ := @takeWhile_is_append classes .space [] (d :: rest) (by simp) (by simpa)
    rw [nil_append] at htake
    rw [cons_append, nil_append, nextPiece_space hc (spacedClass_none_of_ne hblank _),
      htake, if_pos (.inr rfl)]
  | @givenBack run last d rest hrun hall hlast hd =>
    obtain ⟨c, tail, rfl⟩ := exists_cons_of_ne_nil hrun
    obtain ⟨hc, htail⟩ := forall_mem_cons.mp hall
    have hspaces : ∀ a ∈ tail ++ [last], classes.of a = .space :=
      forall_mem_append.mpr ⟨htail, by simpa⟩
    obtain ⟨htake, hdrop⟩ := @takeWhile_is_append classes .space _ (d :: rest) hspaces (by simpa)
    rw [append_assoc, cons_append, nil_append] at htake hdrop
    have hnext : ∀ a ∈ (tail ++ last :: d :: rest).head?, classes.of a = .space := by
      cases tail with
      | nil => simpa
      | cons a tail => simpa using htail a (mem_cons_self ..)
    rw [cons_append, nextPiece_space hc (spacedClass_none hnext), htake, hdrop,
      if_neg (by simp), dropLast_concat]

variable (classes) in
theorem exists_isPiece (c : Char) (s : List Char) :
    ∃ p rest, c :: s = p ++ rest ∧ IsPiece classes p rest := by
  cases hcontraction : contraction (c :: s) with
  | some k =>
    exact ⟨(c :: s).take k, (c :: s).drop k, (take_append_drop _ _).symm,
      .contracted (contraction_take hcontraction)⟩
  | none =>
    obtain ⟨run, rest, hs, hrun, hall, hstop⟩ := exists_run classes c s
    by_cases hc : classes.of c = .space
    · rw [hc] at hall hstop
      cases rest with
      | nil => exact ⟨run, [], hs, .trailing hrun hall⟩
      | cons d rest =>
        have hd : classes.of d ≠ .space := hstop d rfl
        obtain ⟨init, last, rfl⟩ : ∃ init last, run = init ++ [last] :=
          ⟨_, _, (dropLast_append_getLast hrun).symm⟩
        obtain ⟨hinit, hlast⟩ := forall_mem_append.mp hall
        rw [append_assoc, cons_append, nil_append] at hs
        by_cases hne : init = []
        · -- a single whitespace character belongs to what follows exactly if it is a space
          subst hne
          obtain ⟨rfl, rfl⟩ := List.cons.inj hs
          by_cases hblank : c = ' '
          · subst hblank
            obtain ⟨word, rest', hword, hnonempty, hclass, hend⟩ := exists_run classes d rest
            refine ⟨[' '] ++ word, rest', by rw [append_assoc, ← hword]; rfl, ?_⟩
            exact .word hd (.inr rfl) hnonempty hclass hend (contraction_none (by decide))
          · exact ⟨[c], d :: rest, rfl, .lone hc hblank hd⟩
        · exact ⟨init, last :: d :: rest, hs, .givenBack hne hinit (hlast last (by simp)) hd⟩
    · refine ⟨[] ++ run, rest, hs, .word hc (.inl rfl) hrun hall hstop ?_⟩
      rw [nil_append, ← hs]
      exact hcontraction

/-! ## The parts -/

def parts (classes : Classes) (s : List Char) : List (List Char) := cut classes s.length s

@[simp]
theorem parts_nil : parts classes [] = [] := rfl

theorem IsPiece.parts_append (h : IsPiece classes p rest) :
    parts classes (p ++ rest) = p :: parts classes rest := by
  obtain ⟨c, s, hs⟩ := exists_cons_of_ne_nil h.ne_nil
  have hnext := h.nextPiece_eq
  have hrest : (c :: (s ++ rest)).drop p.length = rest := by
    rw [← cons_append, ← hs, drop_left]
  rw [hs, cons_append] at hnext ⊢
  rw [parts, length_cons, cut, hnext, ← hs, hrest]
  exact congrArg (p :: ·) (cut_fuel (by rw [length_append]; omega) le_rfl)

theorem parts_eq_nil : parts classes s = [] ↔ s = [] := by
  constructor
  · intro h
    cases s with
    | nil => rfl
    | cons c s =>
      obtain ⟨p, rest, hs, hpiece⟩ := exists_isPiece classes c s
      cases h
  · rintro rfl
    rfl

theorem parts_eq_cons {ps : List (List Char)} (h : parts classes s = p :: ps) :
    ∃ rest, s = p ++ rest ∧ IsPiece classes p rest ∧ parts classes rest = ps := by
  cases s with
  | nil => cases h
  | cons c s =>
    obtain ⟨p', rest, hs, hpiece⟩ := exists_isPiece classes c s
    rw [hs, hpiece.parts_append] at h
    obtain ⟨rfl, rfl⟩ := List.cons.inj h
    exact ⟨rest, hs, hpiece, rfl⟩

variable (classes) in
theorem flatten_parts (s : List Char) : (parts classes s).flatten = s := (cut_tiles le_rfl).1

theorem ne_nil_of_mem_parts (h : p ∈ parts classes s) : p ≠ [] :=
  (cut_tiles le_rfl).2 p h

theorem parts_singleton (c : Char) : parts classes [c] = [[c]] := by
  obtain ⟨p, rest, hc, hpiece⟩ := exists_isPiece classes c []
  have hne := hpiece.ne_nil
  rcases append_eq_singleton_iff.mp hc.symm with ⟨rfl, -⟩ | ⟨rfl, rfl⟩
  · exact absurd rfl hne
  · exact hpiece.parts_append

theorem pieces_eq_parts (text : List Char) :
    pieces classes (utf8 text) = some (byteSpans 0 (parts classes text)) := by
  have hsize := length_le_utf8 text
  rw [pieces, piecesFrom_eq (at_zero text) hsize, cut_fuel hsize le_rfl]
  rfl

variable {front back : List (List Char)}

theorem parts_of_append (h : parts classes s = front ++ back) :
    parts classes back.flatten = back := by
  induction front generalizing s with
  | nil =>
    rw [nil_append] at h
    rw [← h, flatten_parts, h]
  | cons p front ih =>
    obtain ⟨rest, -, -, hrest⟩ := parts_eq_cons h
    exact ih hrest

/-! ## Something appended -/

/-- A piece that something follows stays one, unless it is an apostrophe and what is appended
makes a contraction of it. -/
theorem IsPiece.append (h : IsPiece classes p rest) (hrest : rest ≠ [])
    (hquote : ∀ letter, p = ['\''] → rest = [letter] → contraction ('\'' :: letter :: s) = none) :
    IsPiece classes p (rest ++ s) := by
  obtain ⟨first, tail, rfl⟩ := exists_cons_of_ne_nil hrest
  cases h with
  | contracted h => exact .contracted h
  | @word cls lead run _ hcls hlead hrun hall hstop hnone =>
    refine .word hcls hlead hrun hall hstop ?_
    rw [← append_assoc]
    by_cases hlong : 2 < (lead ++ run ++ first :: tail).length
    · exact contraction_append_none hnone hlong s
    · -- one character and one that follows it
      obtain ⟨c, run, rfl⟩ := exists_cons_of_ne_nil hrun
      simp only [length_append, length_cons] at hlong
      obtain rfl : lead = [] := eq_nil_of_length_eq_zero (by omega)
      obtain rfl : run = [] := eq_nil_of_length_eq_zero (by omega)
      obtain rfl : tail = [] := eq_nil_of_length_eq_zero (by omega)
      by_cases hc : c = '\''
      · subst hc
        exact hquote first rfl rfl
      · exact contraction_none hc
  | lone hc hblank hd => exact .lone hc hblank hd
  | givenBack hrun hall hlast hd => exact .givenBack hrun hall hlast hd

variable {text : List Char}

/-- The parts before another are parts whatever is appended, unless that makes a contraction of
an apostrophe and a letter at the end. -/
theorem parts_append (h : parts classes text = init ++ back) (hback : back ≠ [])
    (hquote : ∀ front letter, init = front ++ [['\'']] → back = [[letter]] →
      contraction ('\'' :: letter :: s) = none) :
    parts classes (text ++ s) = init ++ parts classes (back.flatten ++ s) := by
  induction init generalizing text with
  | nil =>
    have htext := flatten_parts classes text
    rw [h, nil_append] at htext
    rw [htext]
    rfl
  | cons p init ih =>
    obtain ⟨rest, rfl, hpiece, hparts⟩ := parts_eq_cons h
    have hrest : rest ≠ [] := by
      rintro rfl
      simp [hback] at hparts
    have hstays : IsPiece classes p (rest ++ s) := by
      refine hpiece.append hrest fun letter hp hletter => ?_
      subst hp hletter
      rw [parts_singleton] at hparts
      obtain ⟨rfl, rfl⟩ : init = [] ∧ back = [[letter]] := by
        rcases append_eq_singleton_iff.mp hparts.symm with hsplit | ⟨-, hnil⟩
        · exact hsplit
        · exact absurd hnil hback
      exact hquote [] letter rfl rfl
    rw [append_assoc, hstays.parts_append, ih hparts fun front letter hfront => ?_]
    · rfl
    · exact hquote (p :: front) letter (by rw [hfront]; rfl)

/-! ## A prefix -/

/-- A piece stays one where the text ends earlier, unless whitespace then gives nothing back. -/
theorem IsPiece.of_append (h : IsPiece classes p (rest ++ t)) (ht : t ≠ [])
    (hspace : ∀ w g d, w ∈ p.getLast? → rest = [g] → d ∈ t.head? → classes.of w = .space →
      classes.of g = .space → classes.of d = .space) :
    IsPiece classes p rest := by
  generalize hall : rest ++ t = whole at h
  cases h with
  | contracted h => exact .contracted h
  | word hcls hlead hrun hclass hstop hnone =>
    subst hall
    refine .word hcls hlead hrun hclass (fun c hc => hstop c ?_) ?_
    · rw [head?_append, hc]
      rfl
    · rw [← append_assoc] at hnone
      exact contraction_of_append hnone
  | trailing => exact absurd (append_eq_nil_iff.mp hall).2 ht
  | lone hc hblank hd =>
    cases rest with
    | nil => exact .trailing (cons_ne_nil _ _) (by simpa)
    | cons first rest =>
      obtain ⟨rfl, -⟩ := List.cons.inj hall
      exact .lone hc hblank hd
  | @givenBack _ last d tail hrun hspaces hlast hd =>
    match rest with
    | [] => exact .trailing hrun hspaces
    | [g] =>
      obtain ⟨rfl, rfl⟩ := List.cons.inj hall
      have hw := getLast_mem hrun
      exact absurd (hspace _ g d (getLast?_eq_some_getLast hrun) rfl rfl
        (hspaces _ hw) hlast) hd
    | g :: first :: rest =>
      obtain ⟨rfl, htail⟩ := List.cons.inj hall
      obtain ⟨rfl, -⟩ := List.cons.inj htail
      exact .givenBack hrun hspaces hlast hd

/-- The parts up to a boundary are those of the text up to there, unless that ends in two
whitespace characters and another character follows. -/
theorem parts_flatten (h : parts classes text = front ++ back) (hback : back ≠ [])
    (hspace : ∀ a w g d b, front.flatten = a ++ [w, g] → back.flatten = d :: b →
      classes.of w = .space → classes.of g = .space → classes.of d = .space) :
    parts classes front.flatten = front := by
  induction front generalizing text with
  | nil => rfl
  | cons p front ih =>
    obtain ⟨rest, rfl, hpiece, hparts⟩ := parts_eq_cons h
    replace hparts : parts classes rest = front ++ back := hparts
    have hrest : rest = front.flatten ++ back.flatten := by
      rw [← flatten_append, ← hparts, flatten_parts]
    have hback' : back.flatten ≠ [] := by
      have hflatten := parts_of_append h
      intro hnil
      rw [hnil] at hflatten
      exact hback hflatten.symm
    subst hrest
    have hstays : IsPiece classes p front.flatten := by
      refine hpiece.of_append hback' fun w g d hw hg hd => ?_
      obtain ⟨a, rfl⟩ := getLast?_eq_some_iff.mp hw
      obtain ⟨b, hb⟩ := head?_eq_some_iff.mp hd
      exact hspace a w g d b (by rw [flatten_cons, hg, append_assoc]; rfl) hb
    rw [flatten_cons, hstays.parts_append, ih hparts fun a w g d b hfront => ?_]
    exact hspace (p ++ a) w g d b (by rw [flatten_cons, hfront, append_assoc])

/-! ## A window -/

theorem parts_word (hcls : cls ≠ .space) (hrun : run ≠ []) (hall : ∀ c ∈ run, classes.of c = cls)
    (hstop : ∀ c ∈ rest.head?, classes.of c ≠ cls) (hnone : contraction (run ++ rest) = none) :
    parts classes (run ++ rest) = run :: parts classes rest :=
  (@IsPiece.word classes cls [] _ _ hcls (.inl rfl) hrun hall hstop hnone).parts_append

theorem contraction_none_of_letter (hc : classes.of c = .letter) (s : List Char) :
    contraction (c :: s) = none := by
  refine contraction_none ?_
  rintro rfl
  rw [of_quote] at hc
  cases hc

theorem parts_letters {letters : List Char} (hletters : letters ≠ [])
    (hall : ∀ c ∈ letters, classes.of c = .letter) (s : List Char) :
    ∃ more rest, s = more ++ rest ∧ (∀ c ∈ more, classes.of c = .letter) ∧
      (more ≠ [] → parts classes s = more :: parts classes rest) ∧
      parts classes (letters ++ s) = (letters ++ more) :: parts classes rest := by
  have hword : ∀ run rest, run ≠ [] → (∀ c ∈ run, classes.of c = .letter) →
      (∀ c ∈ rest.head?, classes.of c ≠ .letter) →
        parts classes (run ++ rest) = run :: parts classes rest := by
    intro run rest hrun hclass hstop
    refine parts_word (by decide) hrun hclass hstop ?_
    obtain ⟨c, run, rfl⟩ := exists_cons_of_ne_nil hrun
    exact contraction_none_of_letter (hclass c (mem_cons_self ..)) _
  obtain ⟨more, rest, rfl, hmore, hstop⟩ : ∃ more rest, s = more ++ rest ∧
      (∀ c ∈ more, classes.of c = .letter) ∧ ∀ c ∈ rest.head?, classes.of c ≠ .letter := by
    cases s with
    | nil => exact ⟨[], [], rfl, by simp, by simp⟩
    | cons d s =>
      by_cases hd : classes.of d = .letter
      · obtain ⟨run, rest, hs, -, hclass, hstop⟩ := exists_run classes d s
        rw [hd] at hclass hstop
        exact ⟨run, rest, hs, hclass, hstop⟩
      · exact ⟨[], d :: s, rfl, by simp, by simpa⟩
  refine ⟨more, rest, rfl, hmore, fun hne => hword more rest hne hmore hstop, ?_⟩
  rw [← append_assoc]
  exact hword _ rest (append_ne_nil_of_left_ne_nil hletters _)
    (forall_mem_append.mpr ⟨hall, hmore⟩) hstop

/-- From inside a piece the scan is in step with the full one after at most two parts. -/
theorem IsPiece.in_step {x y z : List Char} (h : IsPiece classes (x ++ y) z) (hx : x ≠ [])
    (hy : y ≠ []) : ∃ front opening back, parts classes z = front ++ back ∧
      parts classes (y ++ z) = opening ++ back ∧ opening.length ≤ 2 := by
  generalize hp : x ++ y = p at h
  have hsame : IsPiece classes y z → ∃ front opening back, parts classes z = front ++ back ∧
      parts classes (y ++ z) = opening ++ back ∧ opening.length ≤ 2 := fun hpiece =>
    ⟨[], [y], parts classes z, rfl, hpiece.parts_append, by simp⟩
  cases h with
  | contracted h =>
    -- the window opens on letters, which run on into what follows the contraction
    subst hp
    obtain ⟨letters, rest, -, hletters, hp, hlength⟩ := contraction_letters classes h
    obtain rfl : rest = [] := by
      have := congrArg List.length hp
      simp only [length_cons, length_append] at this hlength
      exact eq_nil_of_length_eq_zero (by omega)
    obtain ⟨quote, x, rfl⟩ := exists_cons_of_ne_nil hx
    obtain ⟨-, hsuffix⟩ := List.cons.inj hp
    rw [append_nil] at hsuffix
    rw [← hsuffix] at hletters
    obtain ⟨more, rest, rfl, -, hmore, hparts⟩ :=
      parts_letters hy (forall_mem_append.mp hletters).2 z
    by_cases hnil : more = []
    · subst hnil
      exact ⟨[], [y ++ []], parts classes rest, rfl, hparts, by simp⟩
    · exact ⟨[more], [y ++ more], parts classes rest, hmore hnil, hparts, by simp⟩
  | @word cls lead run _ hcls hlead hrun hall hstop hnone =>
    obtain ⟨x', rfl⟩ : ∃ x', run = x' ++ y := by
      rcases hlead with rfl | rfl
      · exact ⟨x, hp.symm⟩
      · obtain ⟨blank, x, rfl⟩ := exists_cons_of_ne_nil hx
        exact ⟨x, (List.cons.inj hp).2.symm⟩
    have hclass : ∀ c ∈ y, classes.of c = cls := (forall_mem_append.mp hall).2
    cases hcontraction : contraction (y ++ z) with
    | none => exact hsame (@IsPiece.word _ _ [] _ _ hcls (.inl rfl) hy hclass hstop hcontraction)
    | some k =>
      -- the last apostrophe of a run is read as a contraction's
      obtain ⟨letters, rest, hne, hletters, hyz, rfl⟩ :=
        contraction_letters classes hcontraction
      obtain ⟨quote, y, rfl⟩ := exists_cons_of_ne_nil hy
      obtain ⟨rfl, hz⟩ := List.cons.inj hyz
      obtain rfl : y = [] := by
        by_contra hy
        obtain ⟨a, y, rfl⟩ := exists_cons_of_ne_nil hy
        obtain ⟨b, letters, rfl⟩ := exists_cons_of_ne_nil hne
        obtain ⟨rfl, -⟩ := List.cons.inj hz
        have hquote := (hclass '\'' (by simp)).symm.trans of_quote
        have hletter := (hclass a (by simp)).symm.trans (hletters a (by simp))
        rw [hquote] at hletter
        cases hletter
      have hpiece : IsPiece classes ('\'' :: letters) rest := by
        have htake := contraction_take hcontraction
        rw [hyz, take_succ_cons, take_left] at htake
        exact .contracted htake
      obtain ⟨more, rest, rfl, -, hmore, hparts⟩ := parts_letters hne hletters rest
      replace hz : z = letters ++ (more ++ rest) := hz
      rw [hyz, hz, hparts]
      refine ⟨[letters ++ more], ?_⟩
      by_cases hnil : more = []
      · subst hnil
        exact ⟨['\'' :: letters], parts classes rest, rfl, hpiece.parts_append, by simp⟩
      · refine ⟨['\'' :: letters, more], parts classes rest, rfl, ?_, by simp⟩
        exact hpiece.parts_append.trans (by rw [hmore hnil]; rfl)
  | trailing hrun hall =>
    subst hp
    exact hsame (.trailing hy (forall_mem_append.mp hall).2)
  | lone hc hblank hd =>
    have hlength := congrArg List.length hp
    have hx := length_pos_of_ne_nil hx
    have hy := length_pos_of_ne_nil hy
    simp only [length_append, length_singleton] at hlength
    omega
  | givenBack hrun hall hlast hd =>
    subst hp
    exact hsame (.givenBack hy (forall_mem_append.mp hall).2 hlast hd)

/-- After at most two parts the parts of a window are parts of the text. -/
theorem parts_window (a w : List Char) : ∃ front opening back,
    parts classes (a ++ w) = front ++ back ∧ parts classes w = opening ++ back ∧
      opening.length ≤ 2 := by
  generalize hparts : parts classes (a ++ w) = all
  induction all generalizing a with
  | nil =>
    obtain ⟨-, rfl⟩ := append_eq_nil_iff.mp (parts_eq_nil.mp hparts)
    exact ⟨[], [], [], rfl, rfl, by simp⟩
  | cons p all ih =>
    obtain ⟨rest, hwhole, hpiece, hrest⟩ := parts_eq_cons hparts
    rcases append_eq_append_iff.mp hwhole with ⟨y, rfl, rfl⟩ | ⟨a', rfl, rfl⟩
    · by_cases ha : a = []
      · subst ha
        exact ⟨[], [], y :: all, rfl, hparts, by simp⟩
      · by_cases hy : y = []
        · subst hy
          exact ⟨[a ++ []], [], all, rfl, hrest, by simp⟩
        · obtain ⟨front, opening, back, hfront, hopening, hlength⟩ := hpiece.in_step ha hy
          exact ⟨(a ++ y) :: front, opening, back, by rw [← hrest, hfront]; rfl, hopening,
            hlength⟩
    · obtain ⟨front, opening, back, hall, hw, hlength⟩ := ih a' hrest
      exact ⟨p :: front, opening, back, by rw [hall]; rfl, hw, hlength⟩

end Eidnara.Tokenizer
