import Eidnara.Tokenizer.ScanRuns

/-!
# The scanner is the pattern

On a text the scanner ends its next piece where the preferred match of the pattern ends: both
end it after `nextPiece`.  So its pieces are the successive matches of the pattern, and they
tile the text.
-/

namespace Eidnara.Tokenizer

open Lib Utf8 List

/-! ## Characters in their bytes -/

/-- Six more bits below the bits of a number. -/
theorem shift_or (high : Nat) {low : Nat} (h : low < 64) :
    high <<< 6 ||| low = high * 64 + low := by
  rw [← Nat.shiftLeft_add_eq_or_of_lt h, Nat.shiftLeft_eq]

theorem and_six (byte : Nat) : byte &&& 0x3F = byte % 64 :=
  Nat.and_two_pow_sub_one_eq_mod byte 6

theorem decode_two (b0 b1 : Nat) :
    (b0 &&& 0x1F) <<< 6 ||| b1 &&& 0x3F = b0 % 32 * 64 + b1 % 64 := by
  have hlead : b0 &&& 0x1F = b0 % 32 := Nat.and_two_pow_sub_one_eq_mod b0 5
  rw [hlead, and_six, shift_or _ (Nat.mod_lt _ (by decide))]

theorem decode_three (b0 b1 b2 : Nat) :
    (b0 &&& 0x0F) <<< 12 ||| (b1 &&& 0x3F) <<< 6 ||| b2 &&& 0x3F =
      (b0 % 16 * 64 + b1 % 64) * 64 + b2 % 64 := by
  have hlead : b0 &&& 0x0F = b0 % 16 := Nat.and_two_pow_sub_one_eq_mod b0 4
  rw [hlead, and_six, and_six, ← shift_or (b0 % 16) (Nat.mod_lt b1 (by decide)),
    ← shift_or _ (Nat.mod_lt b2 (by decide)), Nat.shiftLeft_or_distrib, ← Nat.shiftLeft_add]

theorem decode_four (b0 b1 b2 b3 : Nat) :
    (b0 &&& 0x07) <<< 18 ||| (b1 &&& 0x3F) <<< 12 ||| (b2 &&& 0x3F) <<< 6 ||| b3 &&& 0x3F =
      ((b0 % 8 * 64 + b1 % 64) * 64 + b2 % 64) * 64 + b3 % 64 := by
  have hlead : b0 &&& 0x07 = b0 % 8 := Nat.and_two_pow_sub_one_eq_mod b0 3
  rw [hlead, and_six, and_six, and_six, ← shift_or (b0 % 8) (Nat.mod_lt b1 (by decide)),
    ← shift_or _ (Nat.mod_lt b2 (by decide)), ← shift_or _ (Nat.mod_lt b3 (by decide))]
  simp only [Nat.shiftLeft_or_distrib, ← Nat.shiftLeft_add]

section

variable {classes : Classes} {bytes : Bytes} {i : Nat} {c : Char} {s : List Char}

theorem lead_lt {b : UInt8} {v : Nat} (hb : b.toNat = v) :
    (b < 0x80 ↔ v < 0x80) ∧ (b < 0xE0 ↔ v < 0xE0) ∧ (b < 0xF0 ↔ v < 0xF0) := by
  simp only [UInt8.lt_iff_toNat_lt, hb]
  exact ⟨Iff.rfl, Iff.rfl, Iff.rfl⟩

theorem classAt_eq (h : At bytes i (c :: s)) :
    classAt classes bytes i = some (classes.of c, (utf8 [c]).length) := by
  have hbound := toNat_lt c
  unfold classAt
  rcases utf8_singleton_cases c with ⟨hv, b0, hc, h0⟩ | ⟨hv, hv', b0, b1, hc, h0, h1⟩ |
    ⟨hv, hv', b0, b1, b2, hc, h0, h1, h2⟩ | ⟨hv, b0, b1, b2, b3, hc, h0, h1, h2, h3⟩
  · have hb0 : bytes[i]? = some b0 := h.byte (k := 0) (by rw [hc]; rfl)
    have hclass : classes.of c = asciiClass b0.toNat := by
      rw [h0]
      exact classes.ascii _ hv
    rw [hb0, some_bind,
      if_pos ((lead_lt h0).1.mpr hv), hc, hclass]
    rfl
  · have hb0 : bytes[i]? = some b0 := h.byte (k := 0) (by rw [hc]; rfl)
    have hb1 : bytes[i + 1]? = some b1 := h.byte (by rw [hc]; rfl)
    have hdecode : b0.toNat % 32 * 64 + b1.toNat % 64 = c.toNat := by omega
    rw [hb0, Option.bind_eq_bind, Option.bind_some,
      if_neg ((lead_lt h0).1.not.mpr (by omega)),
      if_pos ((lead_lt h0).2.1.mpr (by omega)), hb1, Option.bind_some,
      decode_two, hdecode, hc]
    rfl
  · have hb0 : bytes[i]? = some b0 := h.byte (k := 0) (by rw [hc]; rfl)
    have hb1 : bytes[i + 1]? = some b1 := h.byte (by rw [hc]; rfl)
    have hb2 : bytes[i + 2]? = some b2 := h.byte (by rw [hc]; rfl)
    have hdecode : (b0.toNat % 16 * 64 + b1.toNat % 64) * 64 + b2.toNat % 64 = c.toNat := by omega
    rw [hb0, Option.bind_eq_bind, Option.bind_some,
      if_neg ((lead_lt h0).1.not.mpr (by omega)),
      if_neg ((lead_lt h0).2.1.not.mpr (by omega)),
      if_pos ((lead_lt h0).2.2.mpr (by omega)), hb1, Option.bind_some, hb2,
      Option.bind_some, decode_three, hdecode, hc]
    rfl
  · have hb0 : bytes[i]? = some b0 := h.byte (k := 0) (by rw [hc]; rfl)
    have hb1 : bytes[i + 1]? = some b1 := h.byte (by rw [hc]; rfl)
    have hb2 : bytes[i + 2]? = some b2 := h.byte (by rw [hc]; rfl)
    have hb3 : bytes[i + 3]? = some b3 := h.byte (by rw [hc]; rfl)
    have hdecode : ((b0.toNat % 8 * 64 + b1.toNat % 64) * 64 + b2.toNat % 64) * 64 +
        b3.toNat % 64 = c.toNat := by omega
    rw [hb0, Option.bind_eq_bind, Option.bind_some,
      if_neg ((lead_lt h0).1.not.mpr (by omega)),
      if_neg ((lead_lt h0).2.1.not.mpr (by omega)),
      if_neg ((lead_lt h0).2.2.not.mpr (by omega)), hb1, Option.bind_some,
      hb2, Option.bind_some, hb3, Option.bind_some,
      decode_four, hdecode, hc]
    rfl

theorem runEnd_eq (h : At bytes i s) (cls : Class) :
    runEnd classes bytes i cls = some (i + (utf8 (s.takeWhile (classes.is cls))).length) := by
  rw [runEnd_eq_runChars]
  induction s generalizing i with
  | nil =>
    unfold runChars
    rw [if_neg h.length_nil.not_gt]
    rfl
  | cons c s ih =>
    have hpos := utf8_length_pos c
    have hi : i < bytes.length := by
      have hnext := h.next.le
      omega
    rw [runChars_step hi (classAt_eq h)]
    by_cases hc : classes.of c = cls
    · rw [if_neg (not_not.mpr hc), ih h.next, takeWhile_cons_of_pos (by simp [Classes.is, hc]),
        length_utf8_cons c (s.takeWhile _), Nat.add_assoc]
    · rw [if_pos hc, takeWhile_cons_of_neg (by simp [Classes.is, hc])]
      rfl

/-! ## The start of a character -/

theorem charStart_lead {last : Nat} {b : UInt8} (hb : bytes[last]? = some b)
    (hlead : b &&& 0xC0 ≠ 0x80) : charStart bytes last = some last := by
  cases last with
  | zero | succ last => rw [charStart, hb, some_bind, if_neg hlead]

theorem charStart_continuation {last : Nat} {b : UInt8} (hb : bytes[last + 1]? = some b)
    (hcontinuation : b &&& 0xC0 = 0x80) : charStart bytes (last + 1) = charStart bytes last := by
  rw [charStart, hb, some_bind, if_pos hcontinuation]

theorem continuation_iff :
    ∀ b : UInt8, b &&& 0xC0 = 0x80 ↔ 0x80 ≤ b.toNat ∧ b.toNat < 0xC0 :=
  Words.forall_byte (by decide +kernel)

/-- Every byte of a character but its first is a continuation byte. -/
theorem utf8_lead_continuation (c : Char) : ∃ lead rest, utf8 [c] = lead :: rest ∧
    lead &&& 0xC0 ≠ 0x80 ∧ ∀ b ∈ rest, b &&& 0xC0 = 0x80 := by
  simp only [ne_eq, continuation_iff]
  rcases utf8_singleton_cases c with ⟨hv, b0, hc, h0⟩ | ⟨hv, hv', b0, b1, hc, h0, h1⟩ |
    ⟨hv, hv', b0, b1, b2, hc, h0, h1, h2⟩ | ⟨hv, b0, b1, b2, b3, hc, h0, h1, h2, h3⟩
  all_goals
    refine ⟨b0, _, hc, by omega, ?_⟩
    simp only [mem_cons, not_mem_nil, or_false, forall_eq_or_imp, forall_eq, false_imp_iff,
      implies_true]
    try omega

theorem charStart_eq (h : At bytes i (c :: s)) :
    charStart bytes (i + (utf8 [c]).length - 1) = some i := by
  obtain ⟨lead, rest, hc, hlead, hrest⟩ := utf8_lead_continuation c
  rw [hc]
  have hback : ∀ k ≤ rest.length, charStart bytes (i + k) = some i := fun k hk => by
    induction k with
    | zero => exact charStart_lead (h.byte (by rw [hc]; rfl)) hlead
    | succ k ih =>
      have hin : k < rest.length := hk
      have hb : bytes[i + k + 1]? = some rest[k] :=
        h.byte (k := k + 1) (by rw [hc, getElem?_cons_succ, getElem?_eq_getElem hin])
      exact (charStart_continuation hb (hrest _ (getElem_mem hin))).trans (ih (by omega))
  exact hback rest.length le_rfl

/-! ## The next piece -/

def contraction : List Char → Option Nat
  | '\'' :: c1 :: s =>
    if c1 = 's' ∨ c1 = 't' ∨ c1 = 'm' ∨ c1 = 'd' then some 2
    else if (c1 = 'r' ∨ c1 = 'v') ∧ s.head? = some 'e' then some 3
    else if c1 = 'l' ∧ s.head? = some 'l' then some 3
    else none
  | _ => none

/-- The class of what follows a space at the front, where that is not whitespace. -/
def spacedClass (classes : Classes) : List Char → Option Class
  | ' ' :: d :: _ => if classes.of d ≠ .space then some (classes.of d) else none
  | _ => none

def nextPiece (classes : Classes) : List Char → List Char
  | [] => []
  | c :: s =>
    match contraction (c :: s) with
    | some k => (c :: s).take k
    | none =>
      match spacedClass classes (c :: s) with
      | some cls => c :: s.takeWhile (classes.is cls)
      | none =>
        if classes.of c ≠ .space then c :: s.takeWhile (classes.is (classes.of c))
        else if s.dropWhile (classes.is .space) = [] ∨ s.takeWhile (classes.is .space) = [] then
          c :: s.takeWhile (classes.is .space)
        else c :: (s.takeWhile (classes.is .space)).dropLast

theorem lead_eq (h : At bytes i (c :: s)) : ∃ b, bytes[i]? = some b ∧
    (b < 0x80 ↔ c.toNat < 0x80) ∧ (c.toNat < 0x80 → b.toNat = c.toNat) := by
  rcases utf8_singleton_cases c with ⟨hv, b0, hc, h0⟩ | ⟨hv, hv', b0, b1, hc, h0, h1⟩ |
    ⟨hv, hv', b0, b1, b2, hc, h0, h1, h2⟩ | ⟨hv, b0, b1, b2, b3, hc, h0, h1, h2, h3⟩
  all_goals
    refine ⟨b0, h.byte (k := 0) (by rw [hc]; rfl), ?_, by omega⟩
    exact (lead_lt h0).1.trans (by omega)

theorem utf8_length_ascii (hc : c.toNat < 0x80) : (utf8 [c]).length = 1 := by
  rcases utf8_singleton_cases c with ⟨-, b0, h, -⟩ | ⟨hv, -⟩ | ⟨hv, -⟩ | ⟨hv, -⟩
  · rw [h]
    rfl
  all_goals omega

theorem byte_eq_iff (h : At bytes i s) {a : Char} (ha : a.toNat < 0x80) {v : UInt8}
    (hv : v.toNat = a.toNat) : bytes[i]? = some v ↔ s.head? = some a := by
  cases s with
  | nil =>
    simp [getElem?_eq_none h.length_nil]
  | cons c s =>
    obtain ⟨b, hb, hascii, hvalue⟩ := lead_eq h
    have hsmall : v < 0x80 := (lead_lt hv).1.mpr ha
    rw [hb, head?_cons, Option.some.injEq, Option.some.injEq]
    constructor
    · rintro rfl
      exact Char.toNat_inj.mp ((hvalue (hascii.mp hsmall)).symm.trans hv)
    · rintro rfl
      exact UInt8.toNat.inj ((hvalue ha).trans hv.symm)

theorem contractionEnd_quote {b1 : UInt8} (h0 : bytes[i]? = some 0x27)
    (h1 : bytes[i + 1]? = some b1) : contractionEnd bytes i =
      if b1 = 0x73 ∨ b1 = 0x74 ∨ b1 = 0x6D ∨ b1 = 0x64 then some (i + 2)
      else if (b1 = 0x72 ∨ b1 = 0x76) ∧ bytes[i + 2]? = some 0x65 then some (i + 3)
      else if b1 = 0x6C ∧ bytes[i + 2]? = some 0x6C then some (i + 3)
      else none := by
  simp only [contractionEnd, h0, h1]

theorem contractionEnd_none (h0 : bytes[i]? ≠ some 0x27) : contractionEnd bytes i = none := by
  unfold contractionEnd
  split
  · rename_i hb _
    exact absurd hb h0
  · rfl

theorem contraction_none (hc : c ≠ '\'') : contraction (c :: s) = none := by
  unfold contraction
  split
  · rename_i heq
    exact absurd (List.cons.inj heq).1 hc
  · rfl

theorem contractionEnd_eq (h : At bytes i s) :
    contractionEnd bytes i = (contraction s).map (i + ·) := by
  have hquote := byte_eq_iff h (a := '\'') (by decide) (v := 0x27) rfl
  match s with
  | [] =>
    simp only [contractionEnd, getElem?_eq_none h.length_nil]
    rfl
  | c :: s =>
    by_cases hc : c = '\''
    · subst hc
      have h0 : bytes[i]? = some 0x27 := hquote.mpr rfl
      have hrest : At bytes (i + 1) s := h.next
      match s with
      | [] =>
        simp only [contractionEnd, h0, getElem?_eq_none hrest.length_nil]
        rfl
      | c1 :: s =>
        obtain ⟨b1, h1, hascii, hvalue⟩ := lead_eq hrest
        have hb1 : ∀ {a : Char}, a.toNat < 0x80 → ∀ {v : UInt8}, v.toNat = a.toNat →
            (b1 = v ↔ c1 = a) := by
          intro a ha v hv
          have := byte_eq_iff hrest ha hv
          rw [h1] at this
          simpa using this
        have hb2 : ∀ {a : Char}, a.toNat < 0x80 → ∀ {v : UInt8}, v.toNat = a.toNat →
            c1.toNat < 0x80 → (bytes[i + 2]? = some v ↔ s.head? = some a) := by
          intro a ha v hv hc1
          have hnext : At bytes (i + 1 + 1) s := by
            have := hrest.next
            rwa [utf8_length_ascii hc1] at this
          exact byte_eq_iff hnext ha hv
        have hre : (b1 = 0x72 ∨ b1 = 0x76) ∧ bytes[i + 2]? = some 0x65 ↔
            (c1 = 'r' ∨ c1 = 'v') ∧ s.head? = some 'e' := by
          rw [hb1 (a := 'r') (by decide) rfl, hb1 (a := 'v') (by decide) rfl]
          refine and_congr_right fun hc1 => hb2 (by decide) rfl ?_
          rcases hc1 with rfl | rfl <;> decide
        have hll : b1 = 0x6C ∧ bytes[i + 2]? = some 0x6C ↔
            c1 = 'l' ∧ s.head? = some 'l' := by
          rw [hb1 (a := 'l') (by decide) rfl]
          refine and_congr_right fun hc1 => hb2 (by decide) rfl ?_
          rw [hc1]
          decide
        rw [contractionEnd_quote h0 h1, contraction]
        simp only [hb1 (a := 's') (by decide) (v := 0x73) rfl,
          hb1 (a := 't') (by decide) (v := 0x74) rfl, hb1 (a := 'm') (by decide) (v := 0x6D) rfl,
          hb1 (a := 'd') (by decide) (v := 0x64) rfl, hre, hll]
        split_ifs <;> rfl
    · have h0 : bytes[i]? ≠ some 0x27 := fun h0 => hc (by simpa using hquote.mp h0)
      rw [contractionEnd_none h0, contraction_none hc]
      rfl

variable (classes) in
/-- Either nothing follows a space, or what does is known by its class and length. -/
theorem afterSpace_cases (h : At bytes i (c :: s)) :
    (spacedClass classes (c :: s) = none ∧ afterSpace classes bytes i = some none) ∨
      ∃ d rest, c = ' ' ∧ s = d :: rest ∧ classes.of d ≠ .space ∧
        spacedClass classes (c :: s) = some (classes.of d) ∧
        afterSpace classes bytes i = some (some (classes.of d, (utf8 [d]).length)) := by
  have hspace := byte_eq_iff h (a := ' ') (by decide) (v := 0x20) rfl
  rw [head?_cons, Option.some.injEq] at hspace
  by_cases hc : c = ' '
  · subst hc
    have hnext : At bytes (i + 1) s := h.next
    cases s with
    | nil =>
      exact .inl ⟨rfl, if_neg fun hin => hnext.length_nil.not_gt hin.2⟩
    | cons d rest =>
      have hin : i + 1 < bytes.length := by
        have hpos := utf8_length_pos d
        have hle := hnext.next.le
        omega
      have hafter : afterSpace classes bytes i =
          some
            (if classes.of d ≠ .space then some (classes.of d, (utf8 [d]).length) else none) := by
        rw [afterSpace, if_pos ⟨hspace.mpr rfl, hin⟩, classAt_eq hnext]
        rfl
      by_cases hd : classes.of d = .space
      · exact .inl ⟨if_neg (not_not.mpr hd), by rw [hafter, if_neg (not_not.mpr hd)]⟩
      · exact .inr ⟨d, rest, rfl, rfl, hd, if_pos hd, by rw [hafter, if_pos hd]⟩
  · refine .inl ⟨?_, if_neg fun hin => hc (hspace.mp hin.1)⟩
    unfold spacedClass
    split
    · rename_i heq
      exact absurd (List.cons.inj heq).1 hc
    · rfl

variable (classes) in
/-- A run of whitespace gives its last character back before another character, unless that is
its only one. -/
theorem whitespacePieceEnd_eq (h : At bytes i (c :: s)) :
    whitespacePieceEnd classes bytes i (utf8 [c]).length =
      some (i + (utf8 (if s.dropWhile (classes.is .space) = [] ∨
          s.takeWhile (classes.is .space) = [] then c :: s.takeWhile (classes.is .space)
        else c :: (s.takeWhile (classes.is .space)).dropLast)).length) := by
  generalize htake : s.takeWhile (classes.is .space) = run
  generalize hdrop : s.dropWhile (classes.is .space) = rest
  have hs : s = run ++ rest := by rw [← htake, ← hdrop, takeWhile_append_dropWhile]
  have hlength : bytes.length = i + (utf8 [c]).length + (utf8 run).length + (utf8 rest).length := by
    rw [h.length_eq, length_utf8_cons, hs, utf8_append, length_append]
    omega
  rw [whitespacePieceEnd, runEnd_eq h.next, htake, some_bind]
  by_cases hend : rest = [] ∨ run = []
  · have hstop : i + (utf8 [c]).length + (utf8 run).length = bytes.length ∨
        i + (utf8 [c]).length + (utf8 run).length = i + (utf8 [c]).length := by
      rcases hend with rfl | rfl
      · exact .inl (by rw [hlength]; simp [utf8])
      · exact .inr (by simp [utf8])
    rw [if_pos hstop, if_pos hend, length_utf8_cons c run, Nat.add_assoc]
  · rw [not_or] at hend
    have hrest := length_utf8_eq_zero.not.mpr hend.1
    have hrun := length_utf8_eq_zero.not.mpr hend.2
    obtain ⟨init, d, rfl⟩ : ∃ init d, run = init ++ [d] :=
      ⟨_, _, (dropLast_append_getLast hend.2).symm⟩
    have hat : At bytes (i + (utf8 (c :: init)).length) (d :: rest) := by
      refine At.step ?_
      rw [hs] at h
      simpa using h
    have hstart := charStart_eq hat
    rw [if_neg (by omega), if_neg (not_or.mpr hend), dropLast_concat, ← hstart, utf8_append,
      length_append, length_utf8_cons c init]
    congr 1
    omega

/-- The letters after the apostrophe of a contraction. -/
def contractionWords : List (List Char) :=
  [['s'], ['t'], ['r', 'e'], ['v', 'e'], ['m'], ['l', 'l'], ['d']]

theorem contraction_eq_some {k : Nat} :
    contraction s = some k ↔
      ∃ word ∈ contractionWords, ∃ rest, s = '\'' :: (word ++ rest) ∧ k = word.length + 1 := by
  constructor
  · intro h
    unfold contraction at h
    split at h
    · rename_i c1 rest
      split_ifs at h with htwo hre hll
      · rcases htwo with rfl | rfl | rfl | rfl <;>
          exact ⟨[_], by decide, rest, rfl, (Option.some.inj h).symm⟩
      · obtain ⟨tail, rfl⟩ := head?_eq_some_iff.mp hre.2
        rcases hre.1 with rfl | rfl <;>
          exact ⟨[_, 'e'], by decide, tail, rfl, (Option.some.inj h).symm⟩
      · obtain ⟨tail, rfl⟩ := head?_eq_some_iff.mp hll.2
        exact ⟨[c1, 'l'], by rw [hll.1]; decide, tail, rfl, (Option.some.inj h).symm⟩
    · cases h
  · rintro ⟨word, hword, rest, rfl, rfl⟩
    simp only [contractionWords, mem_cons, not_mem_nil, or_false] at hword
    rcases hword with rfl | rfl | rfl | rfl | rfl | rfl | rfl <;> rfl

theorem take_contraction {word : List Char} (rest : List Char) :
    ('\'' :: (word ++ rest)).take (word.length + 1) = '\'' :: word := by
  rw [take_succ_cons, take_left]

theorem length_utf8_contraction {k : Nat} (h : contraction s = some k) :
    (utf8 (s.take k)).length = k := by
  obtain ⟨word, hword, rest, rfl, rfl⟩ := contraction_eq_some.mp h
  rw [take_contraction]
  exact (by decide : ∀ word ∈ contractionWords, (utf8 ('\'' :: word)).length = word.length + 1)
    word hword

theorem pieceEnd_eq (h : At bytes i (c :: s)) :
    pieceEnd classes bytes i = some (i + (utf8 (nextPiece classes (c :: s))).length) := by
  obtain ⟨b, hb, hascii, hvalue⟩ := lead_eq h
  rw [pieceEnd, hb, some_bind, nextPiece]
  have hplain : classes.of c ≠ .space →
      runEnd classes bytes (i + (utf8 [c]).length) (classes.of c) =
        some (i + (utf8 (c :: s.takeWhile (classes.is (classes.of c)))).length) := fun _ => by
    rw [runEnd_eq h.next, length_utf8_cons c (s.takeWhile _), Nat.add_assoc]
  by_cases hsmall : c.toNat < 0x80
  · have hone := utf8_length_ascii hsmall
    have hclass : asciiClass b.toNat = classes.of c := by
      rw [hvalue hsmall]
      exact (classes.ascii _ hsmall).symm
    rw [if_pos (hascii.mpr hsmall), contractionEnd_eq h]
    cases hcontraction : contraction (c :: s) with
    | some k =>
      simp only [Option.map_some, length_utf8_contraction hcontraction]
    | none =>
      simp only [Option.map_none]
      rcases afterSpace_cases classes h with ⟨hspaced, hafter⟩ |
        ⟨d, rest, rfl, rfl, hd, hspaced, hafter⟩
      · simp only [hafter, hspaced, hclass, some_bind]
        rw [hone] at hplain
        by_cases hc : classes.of c = .space
        · have hwhite := whitespacePieceEnd_eq classes h
          rw [hone] at hwhite
          rw [if_neg (not_not.mpr hc), if_neg (not_not.mpr hc), hwhite]
        · rw [if_pos hc, if_pos hc, hplain hc]
      · have hnext : At bytes (i + 1) (d :: rest) := h.next
        simp only [hafter, hspaced, some_bind]
        rw [runEnd_eq hnext.next, takeWhile_cons_of_pos (by simp [Classes.is]),
          length_utf8_cons ' ', length_utf8_cons d (rest.takeWhile _), hone]
        congr 1
        omega
  · have hcontraction : contraction (c :: s) = none :=
      contraction_none fun hc => hsmall (by rw [hc]; decide)
    have hspaced : spacedClass classes (c :: s) = none := by
      rcases afterSpace_cases classes h with ⟨hspaced, -⟩ | ⟨d, rest, rfl, -⟩
      · exact hspaced
      · exact absurd (show (' ').toNat < 0x80 by decide) hsmall
    rw [if_neg (hascii.not.mpr hsmall), classAt_eq h]
    simp only [hcontraction, hspaced, some_bind]
    by_cases hc : classes.of c = .space
    · rw [if_neg (not_not.mpr hc), if_neg (not_not.mpr hc), whitespacePieceEnd_eq classes h]
    · rw [if_pos hc, if_pos hc, hplain hc]

end

/-! ## The preferred match -/

section

variable {classes : Classes} {c : Char} {s : List Char}

open Pattern

def contractions : Pattern Char :=
  .anyOf (.literal '\'' ['s'])
    [.literal '\'' ['t'], .literal '\'' ['r', 'e'], .literal '\'' ['v', 'e'],
      .literal '\'' ['m'], .literal '\'' ['l', 'l'], .literal '\'' ['d']]

theorem head?_run_literal (a : Char) (rest s : List Char) :
    ((literal a rest).run s).head? = if a :: rest <+: s then some (s.drop (rest.length + 1))
      else none := by
  rw [run_literal]
  split_ifs <;> rfl

theorem head?_run_contractions (s : List Char) :
    (contractions.run s).head? = (contraction s).map fun k => s.drop k := by
  cases hcontraction : contraction s with
  | some k =>
    obtain ⟨word, hword, rest, rfl, rfl⟩ := contraction_eq_some.mp hcontraction
    simp only [contractionWords, mem_cons, not_mem_nil, or_false] at hword
    rcases hword with rfl | rfl | rfl | rfl | rfl | rfl | rfl <;>
      simp [contractions, anyOf, head?_run_alt, head?_run_literal]
  | none =>
    have hnone : ∀ word ∈ contractionWords, ¬ '\'' :: word <+: s := by
      rintro word hword ⟨t, rfl⟩
      cases hcontraction.symm.trans (contraction_eq_some.mpr ⟨word, hword, t, rfl, rfl⟩)
    simp only [contractionWords, forall_mem_cons] at hnone
    simp [contractions, anyOf, head?_run_alt, head?_run_literal, hnone]

theorem head?_words {cls : Class} (hcls : cls ≠ .space) {t : List Char}
    (hhit : ((Classes.word (classes.is cls)).run s).head? = some t)
    (hmiss : ∀ cls', cls' ≠ cls → cls' ≠ .space →
      ((Classes.word (classes.is cls')).run s).head? = none) (later : Option (List Char)) :
    ((Classes.word (classes.is .letter)).run s).head?.or
      (((Classes.word (classes.is .number)).run s).head?.or
        (((Classes.word (classes.is .other)).run s).head?.or later)) = some t := by
  cases cls with
  | letter => rw [hhit, Option.some_or]
  | number =>
    rw [hmiss .letter (by decide) (by decide), hhit, Option.none_or, Option.some_or]
  | space => exact absurd rfl hcls
  | other =>
    rw [hmiss .letter (by decide) (by decide), hmiss .number (by decide) (by decide), hhit,
      Option.none_or, Option.none_or, Option.some_or]

theorem head?_run_word (p : Char → Bool) (c : Char) (s : List Char) :
    ((Classes.word p).run (c :: s)).head? =
      (if c = ' ' then (runs p s).head? else none).or (runs p (c :: s)).head? := by
  rw [Classes.word, run_opt_runs_cons, head?_append]
  by_cases hc : c = ' ' <;> simp [hc]

theorem is_self (c : Char) : classes.is (classes.of c) c = true := by
  simp [Classes.is]

theorem is_eq_false {cls : Class} (h : classes.of c ≠ cls) : classes.is cls c = false := by
  simp [Classes.is, h]

theorem of_space : classes.of ' ' = .space := classes.ascii 0x20 (by decide)

theorem is_other :
    (fun c => !(classes.is .space c || classes.is .letter c || classes.is .number c)) =
    classes.is .other := by
  funext c
  simp only [Classes.is]
  cases classes.of c <;> rfl

theorem head?_run_pattern (s : List Char) :
    (classes.pattern.run s).head? =
      (contractions.run s).head?.or
        (((Classes.word (classes.is .letter)).run s).head?.or
          (((Classes.word (classes.is .number)).run s).head?.or
            (((Classes.word (classes.is .other)).run s).head?.or
              (((maximalRun (classes.is .space)).run s).head?.or
                ((plus (one (classes.is .space))).run s).head?)))) := by
  simp only [Classes.pattern, contractions, anyOf, head?_run_alt, is_other, Option.or_assoc]

theorem drop_length_takeWhile (p : Char → Bool) (s : List Char) :
    s.drop (s.takeWhile p).length = s.dropWhile p := by
  have hdrop : (s.takeWhile p ++ s.dropWhile p).drop (s.takeWhile p).length = s.dropWhile p :=
    drop_left
  rwa [takeWhile_append_dropWhile] at hdrop

theorem spacedClass_some {cls : Class} (h : spacedClass classes (c :: s) = some cls) :
    ∃ d rest, c = ' ' ∧ s = d :: rest ∧ classes.of d = cls ∧ cls ≠ .space := by
  unfold spacedClass at h
  split at h
  · rename_i d rest heq
    obtain ⟨rfl, rfl⟩ := List.cons.inj heq
    split_ifs at h with hd
    obtain rfl := Option.some.inj h
    exact ⟨d, rest, rfl, rfl, rfl, hd⟩
  · cases h

theorem of_head_of_spacedClass_none {d : Char} (h : spacedClass classes (' ' :: d :: s) = none) :
    classes.of d = .space := by
  by_contra hd
  simp [spacedClass, hd] at h

theorem head?_run_word_space (hspaced : spacedClass classes (c :: s) = none)
    (hc : classes.of c = .space) {cls : Class} (hcls : cls ≠ .space) :
    ((Classes.word (classes.is cls)).run (c :: s)).head? = none := by
  have hself : runs (classes.is cls) (c :: s) = [] :=
    runs_eq_nil (is_eq_false (by rw [hc]; exact hcls.symm)) s
  rw [head?_run_word, hself]
  by_cases hblank : c = ' '
  · subst hblank
    cases s with
    | nil => rfl
    | cons d rest =>
      have hd := of_head_of_spacedClass_none hspaced
      rw [runs_eq_nil (is_eq_false (by rw [hd]; exact hcls.symm)) rest]
      rfl
  · rw [if_neg hblank]
    rfl

/-- The pattern prefers to match `nextPiece`. -/
theorem head?_run_pattern_cons (c : Char) (s : List Char) :
    (classes.pattern.run (c :: s)).head? =
      some ((c :: s).drop (nextPiece classes (c :: s)).length) := by
  rw [head?_run_pattern, head?_run_contractions, nextPiece]
  cases hcontraction : contraction (c :: s) with
  | some k =>
    have hk : k ≤ (c :: s).length := by
      obtain ⟨word, -, rest, hs, rfl⟩ := contraction_eq_some.mp hcontraction
      simp [hs]
    rw [Option.map_some, Option.some_or, length_take_of_le hk]
  | none =>
    rw [Option.map_none, Option.none_or]
    cases hspaced : spacedClass classes (c :: s) with
    | some cls =>
      obtain ⟨d, rest, rfl, rfl, rfl, hd⟩ := spacedClass_some hspaced
      refine head?_words hd ?_ (fun cls' hne hcls' => ?_) _
      · rw [head?_run_word, if_pos rfl, head?_runs (is_self d), Option.some_or,
          length_cons, drop_succ_cons, drop_length_takeWhile,
          dropWhile_cons_of_pos (is_self d)]
      · have hself : runs (classes.is cls') (' ' :: d :: rest) = [] :=
          runs_eq_nil (is_eq_false (by rw [of_space]; exact hcls'.symm)) _
        rw [head?_run_word, if_pos rfl, runs_eq_nil (is_eq_false hne.symm), hself]
        rfl
    | none =>
      by_cases hc : classes.of c = .space
      · have hspace : classes.is .space c = true := by rw [← hc]; exact is_self c
        rw [head?_run_word_space hspaced hc (by decide),
          head?_run_word_space hspaced hc (by decide),
          head?_run_word_space hspaced hc (by decide), Option.none_or, Option.none_or,
          Option.none_or, head?_run_maximalRun hspace, run_plus_one, head?_runs hspace,
          if_neg (not_not.mpr hc)]
        have hall := drop_length_takeWhile (classes.is .space) s
        by_cases hend : s.dropWhile (classes.is .space) = []
        · rw [if_pos hend, if_pos (.inl hend), Option.some_or, length_cons,
            drop_succ_cons, hall, hend]
        · by_cases hrun : s.takeWhile (classes.is .space) = []
          · rw [if_neg hend, if_pos hrun, if_pos (.inr hrun), Option.none_or, length_cons,
              drop_succ_cons, hall]
          · have hpos := length_pos_of_ne_nil hrun
            rw [if_neg hend, if_neg hrun, if_neg (not_or.mpr ⟨hend, hrun⟩), Option.some_or,
              length_cons, length_dropLast, Nat.sub_add_cancel hpos]
      · rw [if_pos hc]
        have hblank : c ≠ ' ' := by
          rintro rfl
          exact hc of_space
        refine head?_words hc ?_ (fun cls' hne hcls' => ?_) _
        · rw [head?_run_word, if_neg hblank, head?_runs (is_self c), Option.none_or,
            length_cons, drop_succ_cons, drop_length_takeWhile]
        · rw [head?_run_word, if_neg hblank, runs_eq_nil (is_eq_false hne.symm)]
          rfl

variable (classes) in
theorem isPrefix_nextPiece (s : List Char) : nextPiece classes s <+: s := by
  cases s with
  | nil => exact prefix_refl _
  | cons c s =>
    have hrun : ∀ p : Char → Bool, c :: s.takeWhile p <+: c :: s := fun p =>
      cons_prefix_cons.mpr ⟨rfl, takeWhile_prefix p⟩
    rw [nextPiece]
    split
    · exact take_prefix _ _
    · split
      · exact hrun _
      · split_ifs
        · exact hrun _
        · exact hrun _
        · refine cons_prefix_cons.mpr ⟨rfl, ?_⟩
          exact ( dropLast_prefix _).trans ( takeWhile_prefix _)

variable (classes) in
theorem nextPiece_ne_nil (c : Char) (s : List Char) : nextPiece classes (c :: s) ≠ [] := by
  rw [nextPiece]
  split
  · rename_i k hcontraction
    obtain ⟨word, -, rest, hs, rfl⟩ := contraction_eq_some.mp hcontraction
    simp
  · split
    · exact cons_ne_nil _ _
    · split_ifs <;> exact cons_ne_nil _ _

end

/-! ## All pieces -/

section

variable {classes : Classes}

def cut (classes : Classes) : Nat → List Char → List (List Char)
  | 0, _ => []
  | _ + 1, [] => []
  | fuel + 1, c :: s =>
    nextPiece classes (c :: s) ::
      cut classes fuel ((c :: s).drop (nextPiece classes (c :: s)).length)

def byteSpans : Nat → List (List Char) → List (Nat × Nat)
  | _, [] => []
  | offset, part :: parts =>
    (offset, offset + (utf8 part).length) :: byteSpans (offset + (utf8 part).length) parts

theorem nextPiece_append_drop (s : List Char) :
    nextPiece classes s ++ s.drop (nextPiece classes s).length = s :=
  prefix_iff_eq_append.mp (isPrefix_nextPiece classes s)

variable (classes) in
theorem length_drop_nextPiece (c : Char) (s : List Char) :
    ((c :: s).drop (nextPiece classes (c :: s)).length).length < (c :: s).length := by
  have hpos := length_pos_of_ne_nil (nextPiece_ne_nil classes c s)
  rw [length_drop]
  simp only [length_cons]
  omega

theorem cut_fuel {fuel fuel' : Nat} {s : List Char} (h : s.length ≤ fuel) (h' : s.length ≤ fuel') :
    cut classes fuel s = cut classes fuel' s := by
  induction fuel generalizing fuel' s with
  | zero =>
    obtain rfl := eq_nil_of_length_eq_zero (Nat.le_zero.mp h)
    cases fuel' <;> rfl
  | succ fuel ih =>
    cases s with
    | nil => cases fuel' <;> rfl
    | cons c s =>
      have hshort := length_drop_nextPiece classes c s
      cases fuel' with
      | zero => simp at h'
      | succ fuel' =>
        rw [cut, cut, @ih fuel' _ (by omega) (by omega)]

theorem cut_tiles {fuel : Nat} {s : List Char} (hfuel : s.length ≤ fuel) :
    (cut classes fuel s).flatten = s ∧ ∀ part ∈ cut classes fuel s, part ≠ [] := by
  induction fuel generalizing s with
  | zero =>
    obtain rfl := eq_nil_of_length_eq_zero (Nat.le_zero.mp hfuel)
    exact ⟨rfl, forall_mem_nil _⟩
  | succ fuel ih =>
    cases s with
    | nil => exact ⟨rfl, forall_mem_nil _⟩
    | cons c s =>
      have hshort := length_drop_nextPiece classes c s
      obtain ⟨hflatten, hnonempty⟩ :=
        ih (s := (c :: s).drop (nextPiece classes (c :: s)).length) (by omega)
      rw [cut]
      refine ⟨?_, forall_mem_cons.mpr ⟨nextPiece_ne_nil classes c s, hnonempty⟩⟩
      rw [flatten_cons, hflatten, nextPiece_append_drop]

theorem piecesFrom_eq {bytes : Bytes} {fuel i : Nat} {s : List Char} (h : At bytes i s)
    (hfuel : s.length ≤ fuel) :
    piecesFrom classes bytes fuel i = some (byteSpans i (cut classes fuel s)) := by
  induction fuel generalizing i s with
  | zero =>
    obtain rfl := eq_nil_of_length_eq_zero (Nat.le_zero.mp hfuel)
    unfold piecesFrom
    rw [if_pos h.length_nil]
    rfl
  | succ fuel ih =>
    cases s with
    | nil =>
      unfold piecesFrom
      rw [if_pos h.length_nil]
      rfl
    | cons c s =>
      have hshort := length_drop_nextPiece classes c s
      have hpos := utf8_length_pos c
      have hend := h.next.le
      have hrest : At bytes (i + (utf8 (nextPiece classes (c :: s))).length)
          ((c :: s).drop (nextPiece classes (c :: s)).length) := by
        refine At.step ?_
        rw [nextPiece_append_drop]
        exact h
      unfold piecesFrom
      rw [if_neg (by omega)]
      simp only [pieceEnd_eq h, ih hrest (by omega), some_bind]
      rfl

theorem sum_utf8Size (part : List Char) : (part.map Char.utf8Size).sum = (utf8 part).length := by
  induction part with
  | nil => rfl
  | cons c part ih =>
    rw [length_utf8_cons, map_cons, sum_cons, ih, utf8_singleton,
      String.length_utf8EncodeChar]

theorem findIter_eq {fuel i : Nat} {s : List Char} (hfuel : s.length < fuel) :
    classes.pattern.findIter Char.utf8Size fuel i s = byteSpans i (cut classes fuel s) := by
  induction fuel generalizing i s with
  | zero => omega
  | succ fuel ih =>
    cases s with
    | nil =>
      have hnone : (classes.pattern.run []).head? = none := by
        rfl
      rfl
    | cons c s =>
      have hshort := length_drop_nextPiece classes c s
      have htake : (c :: s).take ((c :: s).length -
          ((c :: s).drop (nextPiece classes (c :: s)).length).length) =
            nextPiece classes (c :: s) := by
        have hle := (isPrefix_nextPiece classes (c :: s)).length_le
        rw [length_drop, Nat.sub_sub_self hle]
        exact (prefix_iff_eq_take.mp (isPrefix_nextPiece classes _)).symm
      rw [Pattern.findIter, head?_run_pattern_cons]
      simp only [htake, if_pos hshort, sum_utf8Size]
      rw [ih (by omega)]
      rfl

/-- The pieces of a text are the successive matches of the pattern; they are parts of the text,
none is empty and there is no gap.  The masks of eight bytes end a run of any class where the
scan by characters does. -/
theorem pieces_are_matches (classes : Classes) (text : List Char) :
    ∃ parts : List (List Char), parts.flatten = text ∧ (∀ part ∈ parts, part ≠ []) ∧
      pieces classes (utf8 text) = some (byteSpans 0 parts) ∧
      classes.pattern.spans Char.utf8Size text = byteSpans 0 parts ∧
      ∀ (bytes : Bytes) (cls : Class) (i : Nat),
        runEnd classes bytes i cls = runChars classes bytes cls bytes.length i := by
  have hsize := length_le_utf8 text
  obtain ⟨hflatten, hnonempty⟩ := cut_tiles (le_refl text.length)
  refine ⟨cut classes text.length text, hflatten, hnonempty, ?_, ?_, fun bytes cls i =>
    runEnd_eq_runChars i⟩
  · rw [pieces, piecesFrom_eq (at_zero text) hsize, cut_fuel hsize le_rfl]
  · rw [Pattern.spans, findIter_eq (Nat.lt_succ_self _), cut_fuel (Nat.le_succ _) le_rfl]

example : pieces ⟨asciiClass, fun _ _ => rfl⟩ (utf8 "it's  a\n".toList) =
    some [(0, 2), (2, 4), (4, 5), (5, 7), (7, 8)] := by
  decide +kernel

end

end Eidnara.Tokenizer
